import Smalltalk.Machine.Basic
import Smalltalk.Memory.Reclaim
import Smalltalk.Text.Utf8

/-!
# Allocation

New objects are registered in the memory. When the table is full the machine first reclaims young
objects, giving up its caches and pooled contexts if that does not free enough, then lets the table
grow, and as a last resort reclaims all objects. Whatever the machine itself holds on to is a root.
-/

namespace Smalltalk

/-- The values the machine holds outside the heap. -/
def Machine.roots (m : Machine) : List Value :=
  [m.specials.array, m.registers.context, m.registers.home, m.registers.method,
    m.registers.receiver] ++ m.pool.roots ++
    match m.lastPrimitiveSend with
    | some (selector, cls) => [selector, cls]
    | none => []

/-- Forgets what the caches remember. -/
def Machine.flushCaches (m : Machine) : Machine :=
  { m with methodCache := m.methodCache.clear, atCache := .empty }

namespace Action

/-- Frees the objects that neither the heap nor the machine can reach, and empties the caches. -/
def sweep (scope : Scope) : Action Nat := fun m =>
  let roots := m.roots
  let memory := m.memory
  let m := { m with memory := default }
  let (freed, memory) := memory.reclaim roots scope
  .ok freed { m with memory }.flushCaches

/-- Frees what can be freed, and notes whether space has become low. -/
def reclaim (scope : Scope) : Action Nat := do
  let freed ← sweep scope
  let left ← ofExcept (← get).memory.spaceLeft
  if left < (← get).lowSpaceThreshold then
    modify fun m => { m with interrupts := { m.interrupts with signalLowSpace := true } }
  return freed

/-- Reclaims young objects until `wanted` have been freed, once for each entry of the list. An
entry says whether to give up caches and pooled contexts first. Answers how many were freed. -/
def reclaimYoung (wanted : Nat) : List Bool → Nat → Action Nat
  | [], freed => return freed
  | giveUp :: rest, freed => do
    if giveUp then
      modify fun m => { m.flushCaches with pool := m.pool.clear }
    let freed := freed + (← reclaim .young)
    if wanted ≤ freed then return freed else reclaimYoung wanted rest freed

/-- Makes the table ready for one more object. -/
def makeRoom : Action Unit := do
  let wanted := (← get).memory.settings.growth
  let freed ← reclaimYoung wanted [false, false, true, true, true] 0
  if wanted ≤ freed then
    return
  if (← get).memory.canGrow then
    onMemory Memory.grow
  else
    let freed := freed + (← reclaim .full)
    let memory := (← get).memory
    if freed = 0 || memory.isFull then
      throw (.objectTableFull memory.size)

/-- Registers an object, making room first if there is none. -/
def allocate (o : Object) : Action Value := do
  if (← get).memory.isFull then
    makeRoom
  onMemory (Memory.register o)

/-- Keeps values alive while an action runs. -/
def withPins (values : List Value) (x : Action α) : Action α := fun m =>
  let count := m.memory.pins.size
  match x { m with memory := values.foldl Memory.pin m.memory } with
  | .ok a m => .ok a { m with memory := m.memory.releasePins count }
  | .error e m => .error e { m with memory := m.memory.releasePins count }

/-- The format of a pointer object whose class has that format code. -/
def pointerFormat (code count : Nat) : Format :=
  match code with
  | 0 => if count = 0 then .empty else .fixed
  | 1 => .fixed
  | 2 => .indexable
  | 4 => .weak
  | _ => .fixedIndexable

/-- A new instance of a class with `count` indexed elements. -/
def newInstance (cls nil : Value) (spec : InstanceSpec) (count : Nat) : Object :=
  if spec.formatCode = 6 then
    .ofWords cls (Array.replicate count 0)
  else if spec.formatCode < 8 then
    .ofPointers cls (pointerFormat spec.formatCode count)
      (Array.replicate (spec.instSize + count) nil)
  else
    .ofBytes cls (Array.replicate count 0)

/-- Allocates an instance of a class with `count` indexed elements. -/
def instantiate (cls : Value) (count : Nat) : Action Value := do
  let spec ← instanceSpec cls
  allocate (newInstance cls (← nil) spec count)

/-- Runs a change of the context pool and the memory. -/
def onPool (x : EStateM Fault (ContextPool × Memory) α) : Action α := fun m =>
  let (pool, memory) := (m.pool, m.memory)
  let m := { m with memory := default }
  match x (pool, memory) with
  | .ok a (pool, memory) => .ok a { m with pool, memory }
  | .error e (pool, memory) => .error e { m with pool, memory }

/-- A method context with nil in all fields, from the pool if it has one. -/
def allocateContext (large : Bool) : Action Value := do
  if (← get).memory.isFull then
    makeRoom
  let cls ← special Special.classMethodContext
  let nil ← nil
  onPool (ContextPool.allocate large cls nil)

/-- Offers a context to the pool. -/
def recycleContext (context : Value) : Action Unit := do
  let cls ← special Special.classMethodContext
  let nil ← nil
  onPool fun (pool, memory) => .ok () (pool.recycle memory context cls nil).2

/-! ### Objects for answers -/

/-- A point. -/
def makePoint (x y : Value) : Action Value := do
  let point ← withPins [x, y] do instantiate (← special Special.classPoint) 0
  store point 0 x
  store point 1 y
  return point

/-- A number object. -/
def makeFloat (bits : UInt64) : Action Value := do
  allocate (.ofFloat (← special Special.classFloat) bits)

/-- A string. -/
def makeString (text : String) : Action Value := do
  allocate (.ofBytes (← special Special.classString) (Text.encode text))

/-- The four bytes of a word, least significant first. -/
def littleEndian (n : Nat) : Array UInt8 :=
  #[UInt8.ofNat n, UInt8.ofNat (n >>> 8), UInt8.ofNat (n >>> 16), UInt8.ofNat (n >>> 24)]

/-- The integer object for a natural number below `2^32`: immediate if it fits, else large. -/
def positive32 (n : Nat) : Action Value := do
  match Value.ofInt? n with
  | some v => return v
  | none => allocate (.ofBytes (← special Special.classLargePositiveInteger) (littleEndian n))

end Action

end Smalltalk
