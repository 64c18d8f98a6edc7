import Smalltalk.AtCache
import Smalltalk.Context.Pool
import Smalltalk.Device.Devices
import Smalltalk.Lookup.Cache
import Smalltalk.SpecialObjects

/-!
# The machine

The state of the interpreter: the object memory, the registers of the active context, the caches,
the interrupt counters and the devices. An `Action` changes the machine and answers something or
faults; the changes made before a fault remain.
-/

namespace Smalltalk

/-- How the machine paces itself. -/
structure MachineSettings where
  /-- The wanted time between two looks at the clock, in milliseconds. -/
  checkInterval : Int := 3
  /-- The least number of calls between two looks at the clock. -/
  minCounter : Int := 1000
  deriving DecidableEq, Inhabited, Repr

/-- The time, which stands still during a step. -/
structure Clock where
  /-- Milliseconds since the machine was started. -/
  elapsed : Nat := 0
  /-- Seconds since the beginning of 1901. -/
  seconds : Nat := 3900000000
  deriving DecidableEq, Inhabited, Repr

/-- The time in milliseconds, of which 29 bits are kept. -/
def Clock.milliseconds (c : Clock) : Int := (c.elapsed % 0x20000000 : Nat)

/-- When the clock is looked at and what is to be signalled then. -/
structure Interrupts where
  /-- How many calls are left until the next look at the clock. -/
  counter : Int
  /-- What the counter starts from next. -/
  feedbackReset : Int
  /-- The time of the last look. -/
  lastTick : Int
  /-- The time at which to signal the timer, or zero. -/
  nextWakeup : Int
  /-- Whether the user asked for an interrupt. -/
  pending : Bool
  /-- Whether space has become low. -/
  signalLowSpace : Bool
  deriving DecidableEq, Inhabited, Repr

/-- What the machine has counted itself. -/
structure Counters where
  bytecodes : Nat
  sends : Nat
  doesNotUnderstand : Nat
  primitiveFailures : Nat
  processSwitches : Nat
  deriving DecidableEq, Inhabited, Repr

/-- The cached state of the active context. -/
structure Registers where
  /-- The active context. -/
  context : Value
  /-- The method context that the active context belongs to. -/
  home : Value
  method : Value
  receiver : Value
  /-- The index of the next bytecode. -/
  pc : Nat
  /-- The index of the top stack slot in the active context. -/
  sp : Nat
  /-- The number of literals of the method. -/
  literalCount : Nat
  deriving DecidableEq, Inhabited, Repr

/-- The state of the interpreter. -/
structure Machine where
  memory : Memory
  specials : SpecialObjects
  registers : Registers
  /-- How many contexts at the top of the sender chain nothing else can refer to. -/
  reclaimable : Nat
  methodCache : MethodCache
  atCache : AtCache
  pool : ContextPool
  /-- The selector and class of the last send that found a primitive. -/
  lastPrimitiveSend : Option (Value × Value)
  interrupts : Interrupts
  /-- The space below which the low space semaphore is signalled. -/
  lowSpaceThreshold : Int
  clock : Clock
  settings : MachineSettings
  counters : Counters
  /-- Whether the guest has asked to stop. -/
  quitting : Bool
  /-- The name of the image file. -/
  imagePath : Option String
  devices : Device.Devices

namespace Machine

/-- A machine that has no active context yet. -/
def create (memory : Memory) (specials : SpecialObjects) (settings : MachineSettings)
    (devices : Device.Devices) : Machine where
  memory
  specials
  registers :=
    { context := specials.nil, home := specials.nil, method := specials.nil
      receiver := specials.nil, pc := 0, sp := 0, literalCount := 0 }
  reclaimable := 0
  methodCache := .empty
  atCache := .empty
  pool := .empty
  lastPrimitiveSend := none
  interrupts :=
    { counter := 0, feedbackReset := settings.minCounter, lastTick := 0, nextWakeup := 0
      pending := false, signalLowSpace := false }
  lowSpaceThreshold := 0
  clock := {}
  settings
  counters :=
    { bytecodes := 0, sends := 0, doesNotUnderstand := 0, primitiveFailures := 0
      processSwitches := 0 }
  quitting := false
  imagePath := none
  devices

end Machine

/-- A change of the machine that answers something or faults. -/
abbrev Action := EStateM Fault Machine

namespace Action

/-- Runs a change of the memory. -/
def onMemory (x : Memory.Change α) : Action α := fun m =>
  let memory := m.memory
  let m := { m with memory := default }
  match x memory with
  | .ok a memory => .ok a { m with memory }
  | .error e memory => .error e { m with memory }

/-- Answers what a computation gives, or faults as it does. -/
def ofExcept : Except Fault α → Action α
  | .ok a => pure a
  | .error e => throw e

/-- The immediate value of a number, which has to be in their range. -/
def immediate (n : Int) : Action Value := ofExcept (Value.immediate n)

/-- Applies a function to the memory. -/
def modifyMemory (f : Memory → Memory) : Action Unit := fun m =>
  .ok () { m with memory := f m.memory }

/-- Applies a function to the registers. -/
def modifyRegisters (f : Registers → Registers) : Action Unit := fun m =>
  .ok () { m with registers := f m.registers }

/-- Applies a function to the counters. -/
def modifyCounters (f : Counters → Counters) : Action Unit := fun m =>
  .ok () { m with counters := f m.counters }

/-- The registers. -/
def registers : Action Registers := return (← get).registers

/-- The object for nothing. -/
def nil : Action Value := return (← get).specials.nil

/-- The object for a truth value. -/
def truth (b : Bool) : Action Value := return (← get).specials.truth b

/-- A special object, or nil when the array is too short. -/
def special (index : Nat) : Action Value := return (← get).specials.get (← get).memory index

/-! ### Fields -/

/-- The object a value refers to. -/
def object (v : Value) : Action Object := do ofExcept ((← get).memory.object v)

/-- The object a value refers to, if any. -/
def object? (v : Value) : Action (Option Object) := return (← get).memory.get? v

/-- Pointer field `i` of an object. -/
def fetch (v : Value) (i : Nat) : Action Value := do
  ofExcept ((← get).memory.field .pointerIndex v i)

/-- Writes pointer field `i` of an object. -/
def store (v : Value) (i : Nat) (x : Value) : Action Unit := do
  let _ ← fetch v i
  modifyMemory fun m => m.setField v i x

/-- Pointer field `i` of an object, which has to be an integer. -/
def fetchInt (v : Value) (i : Nat) : Action Int := do
  match ← fetch v i with
  | .small n => return n
  | x => throw (.malformed .integerField x)

/-- The class of a value. -/
def classOf (v : Value) : Action Value := do
  match v with
  | .small _ => special Special.classSmallInteger
  | _ => return (← object v).cls

/-- Whether a value is an object of the class with that special index. -/
def isInstanceOf (v : Value) (special : Nat) : Action Bool := do
  match ← object? v with
  | none => return false
  | some o => return o.cls == (← Action.special special)

/-- The shape a class gives to its instances. -/
def instanceSpec (cls : Value) : Action InstanceSpec :=
  return InstanceSpec.decode (← fetchInt cls Class.format)

/-! ### The stack -/

/-- Pushes a value on the active stack. -/
def push (x : Value) : Action Unit := do
  let r ← registers
  store r.context (r.sp + 1) x
  modifyRegisters fun r => { r with sp := r.sp + 1 }

/-- The value `depth` entries below the top of the stack. -/
def stackValue (depth : Nat) : Action Value := do
  let r ← registers
  if r.sp < depth then
    throw (.malformed .stackDepth r.context)
  fetch r.context (r.sp - depth)

/-- The value on top of the stack. -/
def top : Action Value := stackValue 0

/-- Drops `count` entries. -/
def popN (count : Nat) : Action Unit := do
  let r ← registers
  if r.sp < count then
    throw (.malformed .stackDepth r.context)
  modifyRegisters fun r => { r with sp := r.sp - count }

/-- Takes the value on top off the stack. The stack pointer is a count and must not go below zero. -/
def pop : Action Value := do
  let x ← top
  if (← registers).sp = 0 then
    throw (.panic (.overflow .natural64 (-1)))
  modifyRegisters fun r => { r with sp := r.sp - 1 }
  return x

/-- Replaces `count` entries by one value. -/
def popThenPush (count : Nat) (x : Value) : Action Unit := do
  popN count
  push x

/-- The topmost `count` values in the order they were pushed. -/
def stackValues : Nat → Action (List Value)
  | 0 => return []
  | count + 1 => do
    let x ← stackValue count
    let rest ← stackValues count
    return x :: rest

/-! ### Context registers -/

/-- Loads the registers from a context with the given home and method. -/
def loadFrame (context home method : Value) : Action Unit := do
  modifyRegisters fun r => { r with home }
  let receiver ← fetch home Context.receiver
  modifyRegisters fun r => { r with receiver, method }
  let header ← ofExcept (MethodHeader.of (← get).memory method)
  let literalCount := header.literalCount
  modifyRegisters fun r => { r with literalCount }
  let stored ← fetchInt context Context.instructionPointer
  match Context.decodePc? stored literalCount with
  | none => throw (.malformed .instructionPointer context)
  | some pc => modifyRegisters fun r => { r with pc }
  let stored ← fetchInt context Context.stackPointer
  match Context.decodeSp? stored with
  | none => throw (.malformed .stackPointer context)
  | some sp => modifyRegisters fun r => { r with sp }

/-- Loads the registers from a context. A block context has its argument count where a method
context has its method. -/
def loadRegisters (context : Value) : Action Unit := do
  let slot ← fetch context Context.method
  match slot with
  | .small _ => do
    let home ← fetch context Context.home
    let method ← fetch home Context.method
    loadFrame context home method
  | _ => loadFrame context context slot

/-- Stores the instruction pointer and the stack pointer into the active context. -/
def saveRegisters : Action Unit := do
  let r ← registers
  let pc ← immediate (Context.encodePc r.pc r.literalCount)
  let sp ← immediate (Context.encodeSp r.sp)
  store r.context Context.instructionPointer pc
  store r.context Context.stackPointer sp

/-- Makes a context the active one. -/
def activate (context : Value) : Action Unit := do
  saveRegisters
  modifyRegisters fun r => { r with context }
  loadRegisters context

end Action

end Smalltalk
