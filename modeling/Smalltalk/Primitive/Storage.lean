import Smalltalk.Double
import Smalltalk.Primitive.Basic

/-!
# Indexed access

Reading and writing the elements of indexed objects: pointers, words, bytes (as integers or as
characters) and the bytes of compiled methods, in which header and literals count four bytes each.
The bytecodes for `at:` and `at:put:` use only what the at-cache remembers and leave everything else
to a send.
-/

namespace Smalltalk

/-- How an indexed access is made. -/
structure AccessMode where
  /-- Bytes are characters. -/
  asCharacters : Bool
  /-- Named fields count as the first elements. -/
  withNamedFields : Bool
  deriving DecidableEq, Inhabited, Repr

namespace Action

/-- Whether a value is a method or block context. -/
def isContext (v : Value) : Action Bool := do
  if ← isInstanceOf v Special.classMethodContext then return true
  else isInstanceOf v Special.classBlockContext

/-- The number of named fields of an object. -/
def fixedFields (v : Value) : Action Nat := do
  let o ← object v
  match o.format with
  | .fixedIndexable | .weak => return o.namedFields (some (← instanceSpec o.cls))
  | _ => return o.namedFields none

/-- The number of indexed elements of an object, if it is indexed. A context has as many as its
stack pointer says. -/
def indexableSize (v : Value) : Action (Option Nat) := do
  if v.isSmall then
    return none
  if ← isContext v then
    return some (← fetchInt v Context.stackPointer).toNat
  let o ← object v
  match o.format with
  | .empty | .fixed => return none
  | .indexable | .fixedIndexable | .weak => return some (o.pointers.size - (← fixedFields v))
  | .words | .bytes => return some o.body.size
  | .method => return some (o.body.size + 4 * o.pointers.size)

/-- Entry `index` of the special selectors array. -/
def specialSelector (index : Nat) : Action Value := do
  fetch (← special Special.specialSelectors) index

/-- The position of the selector of a kind of access among the special selectors. -/
def selectorIndex : Access → Nat
  | .at => 32
  | .atPut => 34

/-- Works out the bounds of an array, and remembers them if the access came from a send of the
plain selector to an array whose size cannot change. -/
def atEntry (access : Access) (array : Value) (mode : AccessMode) : Action AtEntry := do
  let fixed ← fixedFields array
  let size := (← indexableSize array).getD 0
  let format := (← object array).format
  let entry : AtEntry :=
    if mode.withNamedFields then
      { array, size := size + fixed, offset := 0, asCharacters := mode.asCharacters }
    else
      { array, size, offset := if format.isPointers then fixed else 0
        asCharacters := mode.asCharacters }
  let selector ← specialSelector (selectorIndex access)
  let cls ← classOf array
  if (← get).lastPrimitiveSend = some (selector, cls) then
    if !(← isContext array) then
      let hash := (← object array).hash
      modify fun m => { m with atCache := m.atCache.install access hash entry }
  return entry

/-- The character of a code. -/
def characterFor (code : Nat) : Action Value := do fetch (← special Special.characterTable) code

end Action

namespace Attempt

/-- The byte to store for a value: an integer, or the code of a character. -/
def byteToPut (v : Value) (asCharacters : Bool) : Attempt UInt8 := do
  let code ← if asCharacters then do
      require (← Action.isInstanceOf v Special.classCharacter)
      ofOption (← Action.fetch v 0).asSmall?
    else
      ofOption v.asSmall?
  require (0 ≤ code ∧ code < 256)
  return UInt8.ofNat code.toNat

/-- What the at-cache remembers about an array. -/
def cachedEntry (access : Access) (array : Value) : Attempt AtEntry := do
  let hash := (← Action.object array).hash
  ofOption ((← get).atCache.find access array hash)

/-- The value of an element, counting from zero. -/
def elementAt (array : Value) (slot : Nat) (entry : AtEntry) (mode : AccessMode) :
    Attempt Value := do
  let o ← Action.object array
  if mode.withNamedFields then
    return ← ofOption o.pointers[slot]?
  match o.format with
  | .words =>
    let word ← ofOption (o.words?.bind (·[slot]?))
    Action.positive32 word.toNat
  | .bytes =>
    let byte ← ofOption (o.bytes?.bind (·[slot]?))
    if entry.asCharacters then Action.characterFor byte.toNat else return .small byte.toNat
  | .method =>
    require (4 * o.pointers.size ≤ slot)
    let byte ← ofOption (o.bytes?.bind (·[slot - 4 * o.pointers.size]?))
    return .small byte.toNat
  | _ => ofOption o.pointers[slot + entry.offset]?

/-- Reads the element that the stack names, by what the at-cache remembers if `fromBytecode`. -/
def indexedAt (fromBytecode : Bool) (mode : AccessMode) : Attempt Value := do
  let array ← stackObject 1
  let index ← stackPositive32 0
  if !fromBytecode && (← Action.isInstanceOf array Special.classFloat) then
    let bits ← floatValue array
    match index with
    | 1 => Action.positive32 (bits >>> 32).toNat
    | 2 => Action.positive32 (bits &&& 0xFFFFFFFF).toNat
    | _ => decline
  else
    let entry ← if fromBytecode then cachedEntry .at array else Action.atEntry .at array mode
    require (1 ≤ index ∧ index ≤ entry.size)
    elementAt array (index - 1) entry mode

/-- Replaces a pointer field of an object that has it. -/
def putPointer (v : Value) (slot : Nat) (x : Value) : Attempt Unit := do
  require (slot < (← Action.object v).pointers.size)
  Action.modifyMemory fun m => m.setField v slot x

/-- Replaces a byte of an object that has it. -/
def putByte (v : Value) (slot : Nat) (byte : UInt8) : Attempt Unit := do
  let bytes ← ofOption (← Action.object v).bytes?
  require (slot < bytes.size)
  Action.modifyMemory fun m => m.modify v fun o => o.setByte slot byte

/-- Replaces a word of an object that has it. -/
def putWord (v : Value) (slot : Nat) (word : UInt32) : Attempt Unit := do
  let words ← ofOption (← Action.object v).words?
  require (slot < words.size)
  Action.modifyMemory fun m => m.modify v fun o => o.setWord slot word

/-- Stores into an element, counting from zero. -/
def elementPut (array : Value) (slot : Nat) (x : Value) (entry : AtEntry) (mode : AccessMode) :
    Attempt Unit := do
  let o ← Action.object array
  if mode.withNamedFields then
    return ← putPointer array slot x
  match o.format with
  | .words =>
    let word ← positive32Value x
    putWord array slot (UInt32.ofNat word)
  | .bytes =>
    let byte ← byteToPut x entry.asCharacters
    putByte array slot byte
  | .method =>
    let byte ← byteToPut x entry.asCharacters
    require (4 * o.pointers.size ≤ slot)
    putByte array (slot - 4 * o.pointers.size) byte
  | _ => putPointer array (slot + entry.offset) x

/-- Stores into the element that the stack names and answers what was stored. -/
def indexedAtPut (fromBytecode : Bool) (mode : AccessMode) : Attempt Value := do
  let array ← stackObject 2
  let index ← stackPositive32 1
  let x ← stackValue 0
  let entry ← if fromBytecode then cachedEntry .atPut array else Action.atEntry .atPut array mode
  require (1 ≤ index ∧ index ≤ entry.size)
  elementPut array (index - 1) x entry mode
  return x

end Attempt

namespace Primitive

open Attempt

/-- Reads an element. -/
def readElement (mode : AccessMode) : PrimitiveAction := fun _ => do
  answer 1 (← indexedAt false mode)

/-- Writes an element. -/
def writeElement (mode : AccessMode) : PrimitiveAction := fun _ => do
  answer 2 (← indexedAtPut false mode)

/-- Elements as they are. -/
def plainMode : AccessMode := { asCharacters := false, withNamedFields := false }

/-- Bytes as characters. -/
def characterMode : AccessMode := { asCharacters := true, withNamedFields := false }

/-- Named fields first. -/
def fieldMode : AccessMode := { asCharacters := false, withNamedFields := true }

def basicAt : PrimitiveAction := readElement plainMode
def basicAtPut : PrimitiveAction := writeElement plainMode
def stringAt : PrimitiveAction := readElement characterMode
def stringAtPut : PrimitiveAction := writeElement characterMode
def objectAt : PrimitiveAction := readElement fieldMode
def objectAtPut : PrimitiveAction := writeElement fieldMode

/-- The number of indexed elements. -/
def size : PrimitiveAction := fun _ => do
  let size ← ofOption (← Action.indexableSize (← Action.top))
  answer 0 (← newPositive32 size)

/-- The elements from `start` on, if there are as many as `count`. -/
def slice? (xs : Array α) (start count : Nat) : Option (Array α) :=
  if start + count ≤ xs.size then some (xs.extract start (start + count)) else none

/-- Writes elements over those from `start` on, if there are as many. -/
def overwrite? (xs : Array α) (start : Nat) (part : Array α) : Option (Array α) :=
  if start + part.size ≤ xs.size then
    some (xs.extract 0 start ++ part ++ xs.extract (start + part.size) xs.size)
  else
    none

/-- Copies a range of elements between two objects of the same kind, which may be the same. -/
def replaceElements : PrimitiveAction := fun _ => do
  let dest ← stackObject 4
  let start ← stackInteger 3
  let stop ← stackInteger 2
  let source ← stackObject 1
  let sourceStart ← stackInteger 0
  let count ← natural (stop - start + 1)
  let destPos ← natural (start - 1)
  let sourcePos ← natural (sourceStart - 1)
  let destObject ← Action.object dest
  let sourceObject ← Action.object source
  if destObject.format.isPointers && sourceObject.format.isPointers then
    let sourcePos := sourcePos + (← Action.fixedFields source)
    let destPos := destPos + (← Action.fixedFields dest)
    let part ← ofOption (slice? sourceObject.pointers sourcePos count)
    let pointers ← ofOption (overwrite? destObject.pointers destPos part)
    Action.modifyMemory fun m => m.modify dest fun o => { o with pointers }
  else if destObject.format = .words ∧ sourceObject.format = .words then
    let part ← ofOption (sourceObject.words?.bind (slice? · sourcePos count))
    let words ← ofOption (destObject.words?.bind (overwrite? · destPos part))
    Action.modifyMemory fun m => m.modify dest fun o => { o with body := .words words }
  else if destObject.format = .bytes ∧ sourceObject.format = .bytes then
    let part ← ofOption (sourceObject.bytes?.bind (slice? · sourcePos count))
    let bytes ← ofOption (destObject.bytes?.bind (overwrite? · destPos part))
    Action.modifyMemory fun m => m.modify dest fun o => { o with body := .bytes bytes }
  else
    decline
  answer 4 dest

end Primitive

end Smalltalk
