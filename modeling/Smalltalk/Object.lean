import Smalltalk.Value

/-!
# Objects

An object has a class, an identity hash, pointer fields and a raw part. Its format says which of
these carry its contents. The shape that a class gives its instances is packed into one integer,
the class's format word, which `InstanceSpec` reads and writes.
-/

namespace Smalltalk

/-- The shape of an object. -/
inductive Format where
  /-- No fields. -/
  | empty
  /-- Named pointer fields. -/
  | fixed
  /-- Indexed pointer fields. -/
  | indexable
  /-- Named pointer fields followed by indexed ones. -/
  | fixedIndexable
  /-- Indexed pointer fields of a weak collection, after its named ones. -/
  | weak
  /-- Raw 32-bit words. -/
  | words
  /-- Raw bytes. -/
  | bytes
  /-- A header, literals, and then bytecodes. -/
  | method
  deriving DecidableEq, Inhabited, Repr

namespace Format

/-- The number that stands for a format. -/
def code : Format → Nat
  | empty => 0
  | fixed => 1
  | indexable => 2
  | fixedIndexable => 3
  | weak => 4
  | words => 6
  | bytes => 8
  | method => 12

/-- The format of a four-bit code. The low bits of the byte and method codes count unused
trailing bytes and do not change the format; the codes 5 and 7 carry words. -/
def ofCode? (code : Nat) : Option Format :=
  match code with
  | 0 => some empty
  | 1 => some fixed
  | 2 => some indexable
  | 3 => some fixedIndexable
  | 4 => some weak
  | 5 | 6 | 7 => some words
  | 8 | 9 | 10 | 11 => some bytes
  | 12 | 13 | 14 | 15 => some method
  | _ => none

/-- The word for a format. -/
def name : Format → String
  | empty => "Empty"
  | fixed => "Fixed"
  | indexable => "Indexable"
  | fixedIndexable => "FixedIndexable"
  | weak => "Weak"
  | words => "Words"
  | bytes => "Bytes"
  | method => "Method"

/-- Whether the contents are pointer fields only. -/
def isPointers (f : Format) : Bool := f.code ≤ 4

/-- Whether the format has an indexed part. -/
def isIndexable (f : Format) : Bool := 2 ≤ f.code

end Format

/-- The shape a class gives to its instances. -/
structure InstanceSpec where
  /-- How many named fields an instance has. -/
  instSize : Nat
  /-- The four-bit format code of an instance. -/
  formatCode : Nat
  deriving DecidableEq, Inhabited, Repr

namespace InstanceSpec

/-- Reads a class's format word: one more than the size in bits 1 to 6 and, above them, in bits 16
and 17, and the format code in bits 7 to 10. -/
def decode (word : Int) : InstanceSpec where
  instSize := ((word >>> (1 : Nat)) % 64 + (word >>> (16 : Nat)) % 4 * 64 - 1).toNat
  formatCode := ((word >>> (7 : Nat)) % 16).toNat

/-- The format word for instances with `instSize` named fields. -/
def encode (instSize formatCode : Nat) : Int :=
  ((instSize + 1) % 64 * 2 + formatCode % 16 * 128 + (instSize + 1) / 64 % 4 * 65536 : Nat)

end InstanceSpec

/-- The raw part of an object. -/
inductive Body where
  /-- No raw part. -/
  | none
  /-- Raw 32-bit words. -/
  | words (words : Array UInt32)
  /-- Raw bytes. -/
  | bytes (bytes : Array UInt8)
  /-- A double precision number, by its bits. -/
  | float (bits : UInt64)
  deriving DecidableEq, Inhabited, Repr

/-- How many elements the raw part has: bytes, words, or the two words of a float. -/
def Body.size : Body → Nat
  | none => 0
  | words ws => ws.size
  | bytes bs => bs.size
  | float _ => 2

/-- The bytes a raw part takes in 32-bit words. -/
def Body.byteSize : Body → Nat
  | bytes bs => (bs.size + 3) / 4 * 4
  | body => body.size * 4

/-- An object of the heap. -/
structure Object where
  /-- The class. -/
  cls : Value
  /-- The shape. -/
  format : Format
  /-- The identity hash, which never changes. -/
  hash : UInt16
  /-- The pointer fields. -/
  pointers : Array Value
  /-- The raw part. -/
  body : Body
  deriving DecidableEq, Inhabited, Repr

namespace Object

/-- An object without a raw part; registration gives it its hash. -/
def ofPointers (cls : Value) (format : Format) (pointers : Array Value) : Object :=
  { cls, format, hash := 0, pointers, body := .none }

/-- A byte object. -/
def ofBytes (cls : Value) (bytes : Array UInt8) : Object :=
  { cls, format := .bytes, hash := 0, pointers := #[], body := .bytes bytes }

/-- A word object. -/
def ofWords (cls : Value) (words : Array UInt32) : Object :=
  { cls, format := .words, hash := 0, pointers := #[], body := .words words }

/-- A number object. -/
def ofFloat (cls : Value) (bits : UInt64) : Object :=
  { cls, format := .words, hash := 0, pointers := #[], body := .float bits }

/-- A compiled method: header and literals are pointers, the bytecodes are bytes. -/
def ofMethod (cls : Value) (headerAndLiterals : Array Value) (code : Array UInt8) : Object :=
  { cls, format := .method, hash := 0, pointers := headerAndLiterals, body := .bytes code }

/-- The bytes of the raw part, if it holds bytes. -/
def bytes? (o : Object) : Option (Array UInt8) :=
  match o.body with
  | .bytes bs => some bs
  | _ => none

/-- The words of the raw part, if it holds words. -/
def words? (o : Object) : Option (Array UInt32) :=
  match o.body with
  | .words ws => some ws
  | _ => none

/-- The object with another pointer in one of its fields. -/
def setPointer (o : Object) (i : Nat) (x : Value) : Object :=
  { o with pointers := o.pointers.setIfInBounds i x }

/-- The object with another byte in its raw part. -/
def setByte (o : Object) (i : Nat) (byte : UInt8) : Object :=
  match o with
  | { cls, format, hash, pointers, body := .bytes bs } =>
    { cls, format, hash, pointers, body := .bytes (bs.setIfInBounds i byte) }
  | o => o

/-- The object with another word in its raw part. -/
def setWord (o : Object) (i : Nat) (word : UInt32) : Object :=
  match o with
  | { cls, format, hash, pointers, body := .words ws } =>
    { cls, format, hash, pointers, body := .words (ws.setIfInBounds i word) }
  | o => o

/-- The size in bytes that a 32-bit image would give the object. -/
def byteSize (o : Object) : Nat := 4 + o.pointers.size * 4 + o.body.byteSize

/-- How many of the pointer fields are named, given the spec of the class where the format leaves
it open. -/
def namedFields (o : Object) (spec : Option InstanceSpec) : Nat :=
  match o.format with
  | .empty | .fixed => o.pointers.size
  | .fixedIndexable | .weak => (spec.map fun s => min s.instSize o.pointers.size).getD 0
  | _ => 0

/-- The values through which the object keeps others alive. -/
def references (o : Object) : List Value := o.cls :: o.pointers.toList.filter Value.isReference

end Object

end Smalltalk
