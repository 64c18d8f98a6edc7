import Smalltalk.Fault

/-!
# Image records

Each object of an image is a record: one to three header words and then its fields. The low two
bits of the first word tell the kind of header:

    0   size word, class word, base header
    1   class word, base header
    2   a free block, which no saved image contains
    3   base header with the index of a compact class

The base header holds the format in bits 8 to 11, the compact class in bits 12 to 16, the identity
hash in bits 17 to 28 and, except for the first kind, the size in bits 2 to 7. A size counts the
base header.
-/

namespace Smalltalk.Image

/-- An object as it stands in the stream. -/
structure Record where
  /-- Where its base header stands, in bytes from the first record. -/
  offset : Nat
  /-- The address of its class, or the index of a compact class. -/
  classRef : UInt32
  /-- The four-bit format code. -/
  formatCode : Nat
  /-- The identity hash. -/
  hash : UInt16
  /-- The fields. -/
  words : List UInt32
  deriving DecidableEq, Inhabited, Repr

/-- The address of a record when the first stood at `base`. -/
def Record.address (record : Record) (base : UInt32) : UInt32 := UInt32.ofNat record.offset + base

/-- What the header words of a record say. -/
structure RecordHead where
  /-- How many header words follow the first. -/
  extraWords : Nat
  /-- The address of the class, or the index of a compact class. -/
  classRef : UInt32
  /-- The base header. -/
  base : UInt32
  /-- The size in words, base header included. -/
  size : Nat
  deriving DecidableEq, Inhabited, Repr

/-- The record of header words that start at `offset` and the fields after them. -/
def RecordHead.record (head : RecordHead) (offset : Nat) (fields : List UInt32) : Record where
  offset := offset + 4 * head.extraWords
  classRef := head.classRef
  formatCode := (head.base >>> 8 &&& 15).toNat
  hash := (head.base >>> 17 &&& 4095).toUInt16
  words := fields

/-- Reads the header words of the record at `offset`, of which `word` is the first. -/
def readHead (offset : Nat) (word : UInt32) (rest : List UInt32) :
    Except ImageFault RecordHead :=
  match (word &&& 3).toNat, rest with
  | 0, classRef :: base :: _ =>
    .ok { extraWords := 2, classRef, base, size := (word >>> 2).toNat }
  | 0, _ => .error .endOfStream
  | 1, base :: _ =>
    .ok { extraWords := 1, classRef := word - 1, base, size := (base >>> 2 &&& 63).toNat }
  | 1, _ => .error .endOfStream
  | 2, _ => .error (.freeBlock offset)
  | _, _ =>
    let compact := word >>> 12 &&& 31
    if compact = 0 then
      .error (.malformedRecord offset .noCompactClass)
    else
      .ok { extraWords := 0, classRef := compact, base := word, size := (word >>> 2 &&& 63).toNat }

/-- Reads records from `offset` up to the `limit`. -/
def readRecords (limit offset : Nat) (words : List UInt32) : Except ImageFault (List Record) :=
  if offset < limit then
    match words with
    | [] => .error .endOfStream
    | word :: rest => do
      let head ← readHead offset word rest
      if head.size = 0 then
        throw (.malformedRecord offset .zeroSize)
      let count := head.size - 1
      let fields := rest.drop head.extraWords
      let body := fields.take count
      if body.length < count then
        throw .endOfStream
      let record := head.record offset body
      let records ← readRecords limit (record.offset + 4 + 4 * count) (fields.drop count)
      return record :: records
  else
    .ok []
termination_by words.length
decreasing_by simp only [List.length_drop, List.length_cons]; omega

end Smalltalk.Image
