import Smalltalk.Image.Header
import Smalltalk.Image.Record
import Smalltalk.SpecialObjects
import Std.Data.HashMap

/-!
# Loading an image

Every record becomes one object, registered in record order under its own hash. Addresses in the
stream are resolved to the objects at those addresses; an odd word is a small integer. Records may
refer to each other in any order, so all are registered before any is filled in.
-/

namespace Smalltalk.Image

/-- The objects of an image and the addresses they had. -/
structure Resolver where
  /-- The record at an address. -/
  addresses : Std.HashMap UInt32 Nat
  /-- The reference to each record's object. -/
  values : Array Value

namespace Resolver

/-- The record at an address. -/
def index (r : Resolver) (address : UInt32) : Except ImageFault Nat :=
  match r.addresses[address]? with
  | some i => .ok i
  | none => .error (.danglingReference address)

/-- The object at an address. -/
def value (r : Resolver) (address : UInt32) : Except ImageFault Value := do
  let i ← r.index address
  match r.values[i]? with
  | some v => return v
  | none => throw (.danglingReference address)

/-- The value a pointer field stands for. -/
def pointer (r : Resolver) (word : UInt32) : Except ImageFault Value :=
  if word &&& 1 = 1 then .ok (.small (word.toBitVec.toInt >>> (1 : Nat))) else r.value word

/-- The values of a list of pointer fields. -/
def pointers (r : Resolver) (words : List UInt32) : Except ImageFault (Array Value) := do
  return (← words.mapM r.pointer).toArray

end Resolver

/-- The bytes of a list of words, most significant first, without the last `unused` ones. -/
def decodeBytes (words : List UInt32) (unused : Nat) : Array UInt8 :=
  ((words.flatMap bytesOfWord).take (words.length * 4 - unused)).toArray

/-- The method of a record: a header, as many literals as it counts, and bytecodes. -/
def decodeMethod (r : Resolver) (record : Record) (cls : Value) : Except ImageFault Object :=
  match record.words with
  | [] => .error (.malformedRecord record.offset .methodWithoutHeader)
  | header :: _ => do
    let count := (header >>> 10 &&& 255).toNat + 1
    if record.words.length < count then
      throw (.malformedRecord record.offset .literalsExceedSize)
    let pointers ← r.pointers (record.words.take count)
    return Object.ofMethod cls pointers
      (decodeBytes (record.words.drop count) (record.formatCode % 4))

/-- The word object of a record, which is a number if it has two words and the class for it. -/
def decodeWords (record : Record) (cls : Value) (isFloat : Bool) : Object :=
  match isFloat, record.words with
  | true, [high, low] => Object.ofFloat cls (high.toUInt64 <<< 32 ||| low.toUInt64)
  | _, words => Object.ofWords cls words.toArray

/-- The contents of a record of class `cls`. -/
def decodeContents (r : Resolver) (record : Record) (cls : Value) (isFloat : Bool) :
    Except ImageFault Object :=
  match Format.ofCode? record.formatCode with
  | none => .error (.malformedRecord record.offset .unknownFormat)
  | some .method => decodeMethod r record cls
  | some .bytes => .ok (Object.ofBytes cls (decodeBytes record.words (record.formatCode % 4)))
  | some .words => .ok (decodeWords record cls isFloat)
  | some format => do return Object.ofPointers cls format (← r.pointers record.words)

/-- The object of a record of class `cls`. -/
def decodeObject (r : Resolver) (record : Record) (cls : Value) (isFloat : Bool) :
    Except ImageFault Object := do
  let object ← decodeContents r record cls isFloat
  return { object with hash := record.hash }

/-- How many compact classes there are. -/
def compactClassCount : Nat := 31

/-- The class address of a record: a small number is the index of a compact class. -/
def classAddress (compact : List UInt32) (classRef : UInt32) : UInt32 :=
  if 1 ≤ classRef ∧ classRef < 32 then (compact[classRef.toNat - 1]?).getD classRef else classRef

/-- What loading an image gives. -/
structure Loaded where
  /-- The objects. -/
  memory : Memory
  /-- The special objects. -/
  specials : SpecialObjects
  /-- The header of the image. -/
  header : Header

/-- Registers a placeholder for one more record. -/
def reserveNext (values : Array Value) (record : Record) : Memory.Change (Array Value) := do
  let placeholder := Object.ofPointers (.small 0) .empty #[]
  let v ← Memory.registerHashed { placeholder with hash := record.hash }
  return values.push v

/-- Registers a placeholder for every record, in order. -/
def reserve (records : List Record) : Memory.Change (Array Value) :=
  records.foldlM reserveNext #[]

/-- Enters the address of a numbered record. -/
def enterAddress (base : UInt32) (map : Std.HashMap UInt32 Nat) (numbered : Record × Nat) :
    Std.HashMap UInt32 Nat :=
  map.insert (numbered.1.address base) numbered.2

/-- The addresses of the records when the first stood at `base`. -/
def addresses (base : UInt32) (records : List Record) : Std.HashMap UInt32 Nat :=
  records.zipIdx.foldl (enterAddress base) ∅

/-- Word `i` of the special objects record. -/
def specialWord (record : Record) (i : Nat) : Except ImageFault UInt32 :=
  match record.words[i]? with
  | some word => .ok word
  | none => .error (.missingSpecialObject i)

/-- The addresses of the compact classes. -/
def compactClasses (r : Resolver) (records : Array Record) (specials : Record) :
    Except ImageFault (List UInt32) := do
  let i ← r.index (← specialWord specials Special.compactClasses)
  match records[i]? with
  | none => throw (.missingSpecialObject Special.compactClasses)
  | some record =>
    if record.words.length < compactClassCount then
      throw (.malformedRecord record.offset .shortCompactTable)
    return record.words.take compactClassCount

/-- Gives every registered object the contents of its record. -/
def fill (r : Resolver) (compact : List UInt32) (floatClass : UInt32) :
    List (Record × Value) → Memory → Except ImageFault Memory
  | [], m => .ok m
  | (record, v) :: rest, m => do
    let address := classAddress compact record.classRef
    let cls ← r.value address
    let object ← decodeObject r record cls (address = floatClass)
    fill r compact floatClass rest (m.replace v object)

/-- Gives all registered objects their contents and finds the special objects array. -/
def fillAll (r : Resolver) (records : List Record) (header : Header) (m : Memory) :
    Except ImageFault (Memory × Value) := do
  let i ← r.index header.specialObjects
  match records[i]? with
  | none => throw (.danglingReference header.specialObjects)
  | some specials =>
    let compact ← compactClasses r records.toArray specials
    let floatClass ← specialWord specials Special.classFloat
    let m ← fill r compact floatClass (records.zip r.values.toList) m
    return (m, ← r.value header.specialObjects)

/-- Makes objects of the records. -/
def install (records : List Record) (header : Header) (settings : TableSettings) :
    Except Fault Loaded := do
  match reserve records (Memory.empty settings) with
  | .error e _ => throw e
  | .ok values memory =>
    let r : Resolver := { addresses := addresses header.baseAddress records, values }
    let (memory, array) ← Except.mapError Fault.image (fillAll r records header memory)
    let specials ← SpecialObjects.load memory array
    return { memory := (memory.setHashSeed header.lastHash).markOldBoundary, specials, header }

/-- Reads the header and the records of an image. -/
def readStream (bytes : List UInt8) : Except ImageFault (Header × List Record) := do
  let (order, bytes) ← readMagic bytes
  let (header, bytes) ← readHeader order bytes
  let records ← readRecords header.endOfMemory.toNat 0 (order.words bytes)
  return (header, records)

/-- Reads an image. -/
def load (bytes : List UInt8) (settings : TableSettings) : Except Fault Loaded := do
  let (header, records) ← Except.mapError Fault.image (readStream bytes)
  install records header settings

end Smalltalk.Image
