import Smalltalk.Machine.Inspect
import Smalltalk.World.Standard

/-!
# Workspaces

A machine together with names for its objects, and the operations that build a world by hand:
classes, methods, contexts and processes. What is built is registered directly, so nothing is
reclaimed meanwhile; what is kept is reachable from the array of globals.
-/

namespace Smalltalk

/-- A machine and names for values. -/
structure Workspace where
  machine : Machine
  names : Std.HashMap String Value
  /-- A method cache for lookups from outside the machine. -/
  cache : MethodCache

namespace Workspace

/-- The workspace of the standard world. -/
def standard (table : TableSettings) (settings : MachineSettings) (devices : Device.Devices) :
    Except Fault Workspace := do
  let (memory, specials) ← World.standard table
  return {
    machine := Machine.create memory specials settings devices
    names := World.names
    cache := .empty }

/-- The workspace of an image; it has names for the special objects alone. -/
def ofImage (bytes : List UInt8) (table : TableSettings) (settings : MachineSettings)
    (devices : Device.Devices) : Except Fault Workspace := do
  let loaded ← Image.load bytes table
  let s := loaded.specials
  return {
    machine := Machine.create loaded.memory s settings devices
    names := Std.HashMap.ofList
      [("nil", s.nil), ("true", s.trueObject), ("false", s.falseObject), ("specials", s.array)]
    cache := .empty }

/-- A change of the workspace that answers something or faults. -/
abbrev Edit := EStateM Fault Workspace

/-- Carries out an action of the machine. -/
def act (x : Action α) : Edit α := fun w =>
  let (machine, names, cache) := (w.machine, w.names, w.cache)
  match x machine with
  | .ok a machine => .ok a { machine, names, cache }
  | .error e machine => .error e { machine, names, cache }

/-- The value of a name. -/
def named? (w : Workspace) (name : String) : Option Value := w.names[name]?

/-- The value of a name, or nil. -/
def valueOf (name : String) : Edit Value := do
  match (← get).named? name with
  | some v => return v
  | none => act Action.nil

/-- Gives a name to a reference. -/
def bind (name : String) (v : Value) : Edit Unit :=
  if v.isReference then modify fun w => { w with names := w.names.insert name v } else pure ()

/-- Makes a value reachable from the array of globals. -/
def keep (v : Value) : Edit Unit := do
  let globals ← valueOf "globals"
  act <| Action.modifyMemory fun m =>
    m.modify globals fun o => { o with pointers := o.pointers.push v }

/-- Registers an object. -/
def register (o : Object) : Edit Value := act (Action.onMemory (Memory.register o))

/-- Registers an object, gives it a name if there is one, and keeps it if that is wanted. -/
def newObject (name : Option String) (o : Object) (kept : Bool) : Edit Value := do
  let v ← register o
  match name with
  | some name => bind name v
  | none => pure ()
  if kept then
    keep v
  return v

/-- The symbol of a text. -/
def symbol (text : String) : Edit Value := do
  match (← get).named? (World.symbolName text) with
  | some v => return v
  | none =>
    let o := Object.ofBytes (← valueOf "Symbol") text.toUTF8.data
    newObject (some (World.symbolName text)) o true

/-- A new class. -/
def newClass (name : String) (superclass spec : Value) : Edit Value := do
  let symbol ← symbol name
  let nil ← act Action.nil
  let o := Object.ofPointers (← valueOf "Class") .fixed
    #[superclass, nil, spec, nil, nil, nil, symbol]
  newObject (some name) o true

/-- A new compiled method. -/
def newMethod (name : Option String) (header : Value) (literals : Array Value)
    (code : Array UInt8) (kept : Bool) : Edit Value := do
  let cls ← act (Action.special Special.classCompiledMethod)
  newObject name (.ofMethod cls (#[header] ++ literals) code) kept

/-! ### Method dictionaries -/

/-- The selectors and methods in a dictionary, in the order of their positions. -/
def entriesOf (m : Memory) (dictionary nil : Value) : List (Value × Value) :=
  match m.get? dictionary with
  | none => []
  | some o =>
    let keys := o.pointers.toList.drop Dictionary.keyStart
    let methods := ((o.pointers[Dictionary.methods]?).bind m.get?).map Object.pointers
    let found := keys.zipIdx.map fun (key, i) => (key, (methods.bind (·[i]?)).getD nil)
    found.filter fun e => e.1 != nil

/-- The number of positions of a dictionary with `count` entries: a power of two, so that at most
half of them are taken. -/
def capacityFor (count : Nat) : Nat := max 4 (2 * count).nextPowerOfTwo

/-- Puts an entry at the first free position for its hash. -/
def insertEntry (hash : Nat) (entry : Value × Value) (slots : Array (Option (Value × Value))) :
    Array (Option (Value × Value)) :=
  let free i := (slots[i]?).join.isNone
  match (Dictionary.probes (Dictionary.startFor hash slots.size) slots.size).find? free with
  | some i => slots.setIfInBounds i (some entry)
  | none => slots

/-- Gives a class a method for a selector, by way of a new dictionary. No cache is emptied. -/
def install (cls selector method : Value) : Edit Value := do
  let nil ← act Action.nil
  let old ← act (Action.fetch cls Class.dictionary)
  let m := (← get).machine.memory
  let others := (entriesOf m old nil).filter fun e => e.1 != selector
  let entries := others ++ [(selector, method)]
  let empty := Array.replicate (capacityFor entries.length) none
  let slots := entries.foldl (fun slots e =>
    insertEntry (Dictionary.selectorHash m e.1).toNat e slots) empty
  let column (f : Value × Value → Value) := slots.map fun e => (e.map f).getD nil
  let methods ← register (.ofPointers (← valueOf "Array") .indexable (column (·.2)))
  let dictionary ← register (.ofPointers (← valueOf "MethodDictionary") .fixedIndexable
    (#[.small entries.length, methods] ++ column (·.1)))
  act (Action.store cls Class.dictionary dictionary)
  return dictionary

/-! ### Contexts and processes -/

/-- A context at the beginning of a method. -/
def contextObject (method receiver sender : Value) : Edit Object := do
  let m := (← get).machine.memory
  let header ← act (Action.ofExcept (MethodHeader.of m method))
  let nil ← act Action.nil
  let cls ← act (Action.special Special.classMethodContext)
  let frame := Array.replicate (Context.size header.largeFrame) nil
  let frame := frame.setIfInBounds Context.sender sender
    |>.setIfInBounds Context.instructionPointer (.small (Context.encodePc 0 header.literalCount))
    |>.setIfInBounds Context.stackPointer
      (.small (Context.encodeSp (Context.receiver + header.tempCount)))
    |>.setIfInBounds Context.method method
    |>.setIfInBounds Context.receiver receiver
  return .ofPointers cls .indexable frame

/-- A new context at the beginning of a method. -/
def newContext (name : Option String) (method receiver sender : Value) (kept : Bool) :
    Edit Value := do
  newObject name (← contextObject method receiver sender) kept

/-- A new process that will start a method. -/
def newProcess (name : Option String) (method receiver : Value) (priority : Value)
    (kept : Bool) : Edit Value := do
  let nil ← act Action.nil
  let context ← newContext none method receiver nil kept
  let o := Object.ofPointers (← valueOf "Process") .fixed #[nil, context, priority, nil]
  newObject name o kept

/-- Makes the active process start a method. -/
def prepare (method receiver : Value) : Edit Value := do
  let nil ← act Action.nil
  let context ← newContext none method receiver nil false
  let process ← act Action.activeProcess
  act (Action.store process Process.suspendedContext context)
  return context

/-! ### Special objects -/

/-- Writes an entry of the special objects array and reads nil, false and true again. -/
def setSpecial (index : Nat) (v : Value) : Edit Unit := act do
  let array := (← get).specials.array
  Action.store array index v
  let specials ← Action.ofExcept (SpecialObjects.load (← get).memory array)
  modify fun m => { m with specials }

/-- Looks up a selector by way of the workspace's own cache. -/
def lookup (cls selector : Value) : Edit (Option CacheEntry) := fun w =>
  match cachedLookup w.machine.memory cls selector w.machine.specials.nil w.cache with
  | .ok e cache => .ok e { w with cache }
  | .error e cache => .error e { w with cache }

end Workspace

end Smalltalk
