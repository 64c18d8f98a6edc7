import Smalltalk.Fault
import Smalltalk.Object
import Smalltalk.Word

/-!
# Object memory

Objects live in slots that are reused; each reuse starts a new generation of the slot, and a
reference resolves only while its generation is the slot's. The table lists the live references in
the order of their registration. Its capacity grows in steps up to a maximum, and a registration
that finds it full and unable to grow fails. The sizes come from outside and may be any words, so the
sums and products that involve them are checked.

Every registration through `register` draws the next identity hash of a congruential sequence,
whether or not there is room for the object.
-/

namespace Smalltalk

/-- Sizes of the object table. Each is a word. -/
structure TableSettings where
  /-- The capacity to start with. -/
  initial : Nat := 30000
  /-- How much one growth adds, and how much a reclamation has to free to be worth it. -/
  growth : Nat := 10000
  /-- The capacity that is never exceeded. -/
  maximum : Nat := 60000
  words : initial < 0x10000000000000000 ∧ growth < 0x10000000000000000 ∧
    maximum < 0x10000000000000000 := by decide
  deriving DecidableEq, Repr

/-- The sizes where none are given. -/
def TableSettings.standard : TableSettings := {}

instance : Inhabited TableSettings := ⟨.standard⟩

/-- A place for one object. -/
structure Slot where
  /-- How often the slot has been vacated. -/
  generation : UInt32
  /-- The object in the slot. -/
  object : Option Object
  deriving DecidableEq, Inhabited, Repr

/-- The objects, the table of their references, and what is needed to add and remove them. -/
structure Memory where
  /-- All slots that were ever used. -/
  slots : Array Slot
  /-- The vacant slots, the one to use next first. -/
  free : List UInt32
  /-- The live references in registration order. -/
  table : Array Value
  /-- How many references the table may hold at present. -/
  capacity : Nat
  /-- How many entries at the front of the table a young reclamation leaves alone. -/
  oldBoundary : Nat
  /-- The state of the identity hash sequence. -/
  hashSeed : UInt32
  /-- The table position the last query ended at. -/
  hint : Nat
  /-- Values that are kept alive from outside the heap. -/
  pins : Array Value
  /-- The sizes of the table. -/
  settings : TableSettings
  /-- How many reclamations there were. -/
  reclamations : Nat
  /-- How many objects they freed. -/
  reclaimed : Nat
  /-- How often the table grew. -/
  growths : Nat
  deriving DecidableEq, Inhabited, Repr

namespace Memory

/-- A memory without objects. -/
def empty (settings : TableSettings) : Memory where
  slots := #[]
  free := []
  table := #[]
  capacity := min settings.initial settings.maximum
  oldBoundary := 0
  hashSeed := 0
  hint := 0
  pins := #[]
  settings
  reclamations := 0
  reclaimed := 0
  growths := 0

/-! ### Access -/

/-- The object a value refers to. -/
def get? (m : Memory) : Value → Option Object
  | .small _ => none
  | .ref index generation =>
    match m.slots[index.toNat]? with
    | some slot => if slot.generation.toNat = generation.toNat then slot.object else none
    | none => none

/-- Whether a value refers to an object. -/
def isLive (m : Memory) (v : Value) : Bool := (m.get? v).isSome

/-- The object a value refers to; anything else is a fault. -/
def object (m : Memory) (v : Value) : Except Fault Object :=
  match m.get? v with
  | some o => .ok o
  | none => .error (.invalidReference v)

/-- Changes the object in the slot at `index`. -/
def modifyAt (m : Memory) (index : Nat) (f : Object → Object) : Memory :=
  { m with slots := m.slots.modify index fun slot => { slot with object := slot.object.map f } }

/-- Changes the object a value refers to, if there is one. -/
def modify (m : Memory) (v : Value) (f : Object → Object) : Memory :=
  match v with
  | .small _ => m
  | .ref index _ => if m.isLive v then m.modifyAt index.toNat f else m

/-- Replaces the object a value refers to, if there is one. -/
def replace (m : Memory) (v : Value) (o : Object) : Memory := m.modify v fun _ => o

/-- Pointer field `i` of the object `v` refers to, or `flaw` when it has fewer fields. -/
def field (m : Memory) (flaw : Flaw) (v : Value) (i : Nat) : Except Fault Value :=
  match m.get? v with
  | none => .error (.invalidReference v)
  | some o =>
    match o.pointers[i]? with
    | some x => .ok x
    | none => .error (.malformed flaw v)

/-- Writes pointer field `i` of the object `v` refers to. -/
def setField (m : Memory) (v : Value) (i : Nat) (x : Value) : Memory :=
  m.modify v fun o => o.setPointer i x

/-- The number of registered objects. -/
def size (m : Memory) : Nat := m.table.size

/-! ### Registration -/

/-- Whether the table has no room at its present capacity. -/
def isFull (m : Memory) : Bool := m.capacity ≤ m.table.size

/-- Whether the capacity is below the maximum. -/
def canGrow (m : Memory) : Bool := m.capacity < m.settings.maximum

/-- The memory with its capacity raised by one step. -/
def grown (m : Memory) : Memory :=
  { m with
    capacity := min (m.capacity + m.settings.growth) m.settings.maximum
    growths := m.growths + 1 }

/-- The state that follows `seed` in the identity hash sequence. -/
def nextSeed (seed : UInt32) : UInt32 := 13849 + 27181 * seed

/-- The identity hash that a state of the sequence stands for. -/
def seedHash (seed : UInt32) : UInt16 := (seed &&& 0xFFF).toUInt16

/-- Puts an object into the slot to use next and lists it in the table. -/
def place (m : Memory) (o : Object) : Value × Memory :=
  match m.free with
  | index :: free =>
    let generation := (m.slots[index.toNat]?.map Slot.generation).getD 0
    let v := Value.reference index generation
    (v, { m with
      free
      slots := m.slots.modify index.toNat fun slot => { slot with object := some o }
      table := m.table.push v })
  | [] =>
    let v := Value.reference (UInt32.ofNat m.slots.size) 0
    (v, { m with
      slots := m.slots.push { generation := 0, object := some o }
      table := m.table.push v })

/-- A change of a memory that answers something or faults. -/
abbrev Change := EStateM Fault Memory

/-- Raises the capacity by one step. -/
def grow : Change Unit := fun m =>
  match Width.natural64.check (m.capacity + m.settings.growth) with
  | .ok _ => .ok () m.grown
  | .error e => .error e m

/-- Makes room in a full table by letting it grow. -/
def ensureRoom : Change Unit := do
  if (← get).isFull then
    if (← get).canGrow then
      grow
    else
      throw (.objectTableFull (← get).table.size)

/-- Registers an object that has its identity hash already. -/
def registerHashed (o : Object) : Change Value := do
  ensureRoom
  modifyGet fun m => m.place o

/-- Registers an object under the next identity hash. -/
def register (o : Object) : Change Value := fun m =>
  let seed := nextSeed m.hashSeed
  registerHashed { o with hash := seedHash seed } { m with hashSeed := seed }

/-- Restarts the identity hash sequence. -/
def setHashSeed (m : Memory) (seed : UInt32) : Memory := { m with hashSeed := seed }

/-- Counts everything registered so far as old. -/
def markOldBoundary (m : Memory) : Memory := { m with oldBoundary := m.table.size }

/-! ### Pins -/

/-- Keeps a value alive until it is released. -/
def pin (m : Memory) (v : Value) : Memory := { m with pins := m.pins.push v }

/-- Releases all pins but the first `count`. -/
def releasePins (m : Memory) (count : Nat) : Memory := { m with pins := m.pins.take count }

/-! ### Space -/

/-- The room that is left, in bytes: the references that may still be added times the mean size of
the objects. -/
def bytesLeft (m : Memory) : Nat :=
  let live := m.table.size
  let total := m.table.foldl (fun sum v => sum + ((m.get? v).map Object.byteSize).getD 0) 0
  let mean := if live = 0 then 64 else total / live
  (m.settings.maximum - live) * mean

/-- The room that is left, and never more than an immediate integer. -/
def spaceLeft (m : Memory) : Except Fault Int := do
  let bytes ← Width.natural64.check m.bytesLeft
  return min (signedWord bytes.toNat) Value.smallMax

end Memory

end Smalltalk
