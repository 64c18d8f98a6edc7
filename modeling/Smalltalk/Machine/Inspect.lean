import Smalltalk.Bytecode.Execute

/-!
# Looking at a machine

What can be seen of a machine from outside: its visible stack, its statistics, and a trace of its
steps.
-/

namespace Smalltalk

/-- Everything the machine counts. -/
structure Statistics where
  bytecodes : Nat
  sends : Nat
  methodCacheHits : Nat
  methodCacheMisses : Nat
  doesNotUnderstand : Nat
  primitiveFailures : Nat
  contextsAllocated : Nat
  contextsRecycled : Nat
  processSwitches : Nat
  reclamations : Nat
  objectsReclaimed : Nat
  liveObjects : Nat
  tableCapacity : Nat
  deriving DecidableEq, Inhabited, Repr

/-- One line of a trace: the active context, the program counter, the stack pointer, and the top of
the visible stack. -/
structure TraceRow where
  context : Value
  pc : Nat
  sp : Nat
  top : Option Value
  deriving DecidableEq, Inhabited, Repr

namespace Machine

/-- The statistics of a machine. -/
def statistics (m : Machine) : Statistics where
  bytecodes := m.counters.bytecodes
  sends := m.counters.sends
  methodCacheHits := m.methodCache.hits
  methodCacheMisses := m.methodCache.misses
  doesNotUnderstand := m.counters.doesNotUnderstand
  primitiveFailures := m.counters.primitiveFailures
  contextsAllocated := m.pool.allocated
  contextsRecycled := m.pool.recycled
  processSwitches := m.counters.processSwitches
  reclamations := m.memory.reclamations
  objectsReclaimed := m.memory.reclaimed
  liveObjects := m.memory.size
  tableCapacity := m.memory.capacity

/-- The entries of the active context from the first temporary to the top of the stack. -/
def visibleStack (m : Machine) : List Value :=
  match m.memory.get? m.registers.context with
  | none => []
  | some o => (o.pointers.extract Context.frameStart (m.registers.sp + 1)).toList

/-- The trace line of the present state. -/
def traceRow (m : Machine) : TraceRow where
  context := m.registers.context
  pc := m.registers.pc
  sp := m.registers.sp
  top := m.visibleStack.getLast?

/-- Executes up to `count` instructions, until the guest asks to stop or a fault ends it. Answers
the trace and the fault. -/
def trace : Nat → Machine → List TraceRow × Option Fault × Machine
  | 0, m => ([], none, m)
  | count + 1, m =>
    if m.quitting then
      ([], none, m)
    else
      match Action.step m with
      | .error e m => ([], some e, m)
      | .ok _ m =>
        let row := m.traceRow
        let (rows, fault, m) := trace count m
        (row :: rows, fault, m)

end Machine

end Smalltalk
