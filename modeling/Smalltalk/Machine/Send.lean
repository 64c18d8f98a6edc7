import Smalltalk.Machine.Interrupt
import Smalltalk.Primitive.Table

/-!
# Sends and returns

A send looks up its selector in the class of the receiver. If it is not found, the arguments are
packed into a message and `doesNotUnderstand:` is sent instead. The primitive of the method is tried
first; if there is none or it declines, a context is made for the method and becomes active. A return
unwinds the sender chain down to its target.
-/

namespace Smalltalk

namespace Machine

/-- How many fields the active context has. -/
def room (m : Machine) : Nat := ((m.memory.get? m.registers.context).map fun o => o.pointers.size).getD 0

/-- How often a send may be handed on from one perform to the next. With as many arguments as there
is room for, and each taken from one of the objects in the slots, there are fewer sends than this
unless one of them comes about again. -/
def resendLimit (m : Machine) : Nat :=
  1 <<< ((Nat.log2 (m.room + 1) + 1) * (m.memory.slots.size + 1))

end Machine

namespace Action

/-- The message that stands for a send that was not understood. -/
def createMessage (selector : Value) (argCount : Nat) (cls : Value) : Action Value := do
  let arguments ← stackValues argCount
  let array ← allocate
    (.ofPointers (← special Special.classArray) .indexable arguments.toArray)
  let message ← withPins [array] do instantiate (← special Special.classMessage) 0
  store message 0 selector
  store message 1 array
  if 2 < (← object message).pointers.size then
    store message 2 cls
  return message

/-- The method for a selector. If there is none the arguments are replaced by a message, and the
method for `doesNotUnderstand:` is answered. -/
def findSelector (selector : Value) (argCount : Nat) (cls : Value) : Action CacheEntry := do
  match ← lookup selector cls with
  | some e => return e
  | none =>
    let report ← special Special.doesNotUnderstand
    if selector = report then
      throw (.recursiveDoesNotUnderstand selector)
    modifyCounters fun c => { c with doesNotUnderstand := c.doesNotUnderstand + 1 }
    let message ← createMessage selector argCount cls
    popThenPush argCount message
    match ← lookup report cls with
    | some e => return e
    | none => throw (.recursiveDoesNotUnderstand report)

/-- Fills the frame of a new context: sender, method, receiver and arguments, and nil in the
remaining temporaries. The frame is given from the receiver on. -/
def fillFrame (o : Object) (sender method nil : Value) (frame : Array Value) (tempCount : Nat) :
    Object :=
  let padded := frame ++ Array.replicate (tempCount + 1 - frame.size) nil
  let fixed := (o.pointers.extract 0 Context.receiver).setIfInBounds Context.method method
    |>.setIfInBounds Context.initialPointer nil
    |>.setIfInBounds Context.sender sender
  { o with
    pointers := fixed ++ padded ++ o.pointers.extract (Context.receiver + padded.size)
      o.pointers.size }

/-- Makes a context for a method whose receiver and arguments are on the stack, and makes it the
active one. -/
def enterMethod (receiver method : Value) (argCount : Nat) : Action Unit := do
  let header ← ofExcept (MethodHeader.of (← get).memory method)
  let context ← withPins [method] (allocateContext header.largeFrame)
  let nil ← nil
  let r ← registers
  let frame ← stackValues (argCount + 1)
  let o ← object context
  if o.pointers.size < Context.receiver + max frame.length (header.tempCount + 1) then
    throw (.malformed .methodFrame method)
  modifyMemory fun m =>
    m.modify context fun o => fillFrame o r.context method nil frame.toArray header.tempCount
  popN (argCount + 1)
  modify fun m => { m with reclaimable := m.reclaimable + 1 }
  saveRegisters
  modifyRegisters fun _ => {
    context
    home := context
    method
    receiver
    pc := 0
    sp := Context.receiver + header.tempCount
    literalCount := header.literalCount }
  saveRegisters

/-- Makes a context for a method active, and looks whether an interrupt is due. -/
def activateMethod (receiver method : Value) (argCount : Nat) : Action Unit := do
  enterMethod receiver method argCount
  checkInterrupts

/-- What became of the primitive of a method. -/
inductive Trial where
  /-- It took the place of the method. -/
  | handled
  /-- It hands the send on. -/
  | resend (selector : Value) (argCount : Nat) (lookupClass : Value)
  /-- The method has to run. -/
  | unhandled
  deriving DecidableEq, Inhabited, Repr

/-- The constant that a primitive number from 256 to 263 answers. -/
def quickConstant (s : SpecialObjects) (number : Nat) : Option Value :=
  match number with
  | 257 => some s.trueObject
  | 258 => some s.falseObject
  | 259 => some s.nil
  | 260 => some (.small (-1))
  | 261 => some (.small 0)
  | 262 => some (.small 1)
  | 263 => some (.small 2)
  | _ => none

/-- Answers the receiver, a constant, or a field of the receiver. -/
def quickPrimitive (number : Nat) : Action Trial := do
  if number = 256 then
    return .handled
  match quickConstant (← get).specials number with
  | some v =>
    popThenPush 1 v
    return .handled
  | none =>
    match (← object? (← top)).bind fun o => o.pointers[number - 264]? with
    | some v =>
      popThenPush 1 v
      return .handled
    | none => return .unhandled

/-- Tries a primitive. -/
def tryPrimitive (number argCount : Nat) : Action Trial := do
  if 256 ≤ number ∧ number < 520 then
    return ← quickPrimitive number
  match Primitive.find? number with
  | none => return .unhandled
  | some p =>
    match ← (p.action argCount).run? with
    | some .done => return .handled
    | some (.resend selector count cls) => return .resend selector count cls
    | none =>
      modifyCounters fun c => { c with primitiveFailures := c.primitiveFailures + 1 }
      return .unhandled

/-- Sends a selector to the receiver below the arguments on the stack, starting the lookup at a
class. The send may be handed on at most `limit` times. -/
def sendWithin : Nat → Value → Nat → Value → Action Unit
  | 0, selector, _, _ => throw (.endlessResend selector)
  | limit + 1, selector, argCount, lookupClass => do
    modifyCounters fun c => { c with sends := c.sends + 1 }
    let receiver ← stackValue argCount
    let before := (← registers).sp
    let entry ← findSelector selector argCount lookupClass
    if 0 < entry.primitive then
      modify fun m => { m with lastPrimitiveSend := some (selector, lookupClass) }
    let argCount := argCount + (← registers).sp - before
    let trial ← if 0 < entry.primitive then tryPrimitive entry.primitive argCount
      else pure .unhandled
    match trial with
    | .handled => return
    | .resend selector argCount lookupClass => sendWithin limit selector argCount lookupClass
    | .unhandled => activateMethod receiver entry.method argCount

/-- Sends a selector, starting the lookup at a class. -/
def sendToClass (selector : Value) (argCount : Nat) (lookupClass : Value) : Action Unit := do
  sendWithin (← get).resendLimit selector argCount lookupClass

/-- Sends a selector to the receiver below the arguments on the stack. -/
def send (selector : Value) (argCount : Nat) : Action Unit := do
  let lookupClass ← classOf (← stackValue argCount)
  sendToClass selector argCount lookupClass

/-- Sends a selector, starting the lookup above the class that the active method belongs to: the
value of the association in its last literal. -/
def sendSuper (selector : Value) (argCount : Nat) : Action Unit := do
  let r ← registers
  let association ← fetch r.method r.literalCount
  let cls ← fetch association Association.value
  let lookupClass ← fetch cls Class.superclass
  sendToClass selector argCount lookupClass

/-- Runs a numbered primitive on its own, without a method to fall back on. Answers whether it was
not declined; there is no answer if there is no such primitive. -/
def runPrimitive (number argCount : Nat) : Action (Option Bool) := do
  match Primitive.find? number with
  | none => return none
  | some p =>
    match ← (p.action argCount).run? with
    | some .done => return some true
    | some (.resend selector count cls) =>
      sendToClass selector count cls
      return some true
    | none => return some false

/-! ### Returns -/

/-- The contexts from `context` on up to but without `target`, following at most `hops` links. -/
def senderPathWithin (target : Value) : Nat → Value → Action (List Value)
  | hops, context => do
    if context = target then
      return []
    if context = (← nil) then
      throw (.cannotReturn target)
    match hops with
    | 0 => throw (.endlessChain context)
    | hops + 1 =>
      let rest ← senderPathWithin target hops (← fetch context Context.sender)
      return context :: rest

/-- The contexts that a return to `target` leaves. A chain of more links than there are slots never
ends. -/
def senderPath (target : Value) : Action (List Value) := do
  senderPathWithin target ((← get).memory.slots.size + 1) (← registers).context

/-- Cuts a context off, and offers it to the pool as long as nothing else can refer to it. -/
def sever (context : Value) : Action Unit := do
  let nil ← nil
  store context Context.sender nil
  store context Context.instructionPointer nil
  if 0 < (← get).reclaimable then
    modify fun m => { m with reclaimable := m.reclaimable - 1 }
    recycleContext context

/-- Returns a value to a context: the contexts on the way are cut off, and the value is pushed on
the stack of the target. -/
def returnTo (value target : Value) : Action Unit := do
  let nil ← nil
  if target = nil then
    throw (.cannotReturn target)
  if (← fetch target Context.instructionPointer) = nil then
    throw (.cannotReturn target)
  let path ← senderPath target
  path.forM sever
  modifyRegisters fun r => { r with context := target }
  loadRegisters target
  push value

end Action

end Smalltalk
