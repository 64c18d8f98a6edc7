import Smalltalk.Primitive.Storage

/-!
# Control primitives

Blocks, performing a message that is computed, and emptying the caches.
-/

namespace Smalltalk

namespace Action

/-- The method for a selector, by way of the method cache. -/
def lookup (selector cls : Value) : Action (Option CacheEntry) := fun m =>
  let cache := m.methodCache
  let m := { m with methodCache := default }
  match cachedLookup m.memory cls selector m.specials.nil cache with
  | .ok e methodCache => .ok e { m with methodCache }
  | .error e methodCache => .error e { m with methodCache }

/-- Whether `ancestor` is `cls` or one of its superclasses, following at most `hops` links. -/
def isAncestorWithin (ancestor : Value) : Nat → Value → Action Bool
  | hops, cls => do
    if cls = ancestor then
      return true
    if cls = (← nil) then
      return false
    match hops with
    | 0 => throw (.endlessChain cls)
    | hops + 1 => isAncestorWithin ancestor hops (← fetch cls Class.superclass)

/-- Whether `ancestor` is `cls` or one of its superclasses. A chain of more links than there are
slots never ends. -/
def isAncestor (ancestor cls : Value) : Action Bool := do
  isAncestorWithin ancestor ((← get).memory.slots.size + 1) cls

/-- Panics if a new block is too short for the fixed fields of a context. -/
def assertFrame (block : Value) : Action Unit := do
  if (← object block).pointers.size < Context.frameStart then
    throw (.panic (.shortBlock block))

end Action

namespace Attempt

/-- A block of the context on the stack, with as many arguments as the stack says. Its code starts
after the jump that follows the send. -/
def blockCopy : Attempt Value := do
  let context ← stackObject 1
  let argCount ← stackValue 0
  require argCount.isSmall
  require (← Action.isContext context)
  let home ← if (← Action.fetch context Context.method).isSmall then
      Action.fetch context Context.home
    else
      pure context
  let o ← Action.object home
  let nil ← Action.nil
  let cls ← Action.special Special.classBlockContext
  let block ← Action.allocate (.ofPointers cls o.format (Array.replicate o.pointers.size nil))
  let r ← Action.registers
  let start ← Action.immediate (Context.encodePc (r.pc + 2) r.literalCount)
  Action.assertFrame block
  Action.store block Context.caller nil
  Action.store block Context.instructionPointer start
  Action.store block Context.stackPointer (.small 0)
  Action.store block Context.blockArgCount argCount
  Action.store block Context.initialPointer start
  Action.store block Context.home home
  modify fun m => { m with reclaimable := 0 }
  return block

/-- Enters the block below the arguments on the stack. A block that is running, or takes another
number of arguments, is declined. -/
def blockValue (argCount : Nat) : Attempt Unit := do
  let block ← stackValue argCount
  require (← Action.isInstanceOf block Special.classBlockContext)
  let expected ← ofOption (← Action.fetch block Context.blockArgCount).asSmall?
  require (expected = argCount)
  require ((← Action.fetch block Context.caller) = (← Action.nil))
  require (Context.frameStart + argCount ≤ (← Action.object block).pointers.size)
  let arguments ← Action.stackValues argCount
  let start ← Action.fetch block Context.initialPointer
  let caller := (← Action.registers).context
  arguments.zipIdx.forM fun (x, i) => Action.store block (Context.frameStart + i) x
  Action.store block Context.instructionPointer start
  Action.store block Context.stackPointer (.small argCount)
  Action.store block Context.caller caller
  Action.popN (argCount + 1)
  Action.activate block

/-- Declines if the selector leads to a method with another number of arguments. A selector that
leads to none is left to the send. -/
def checkArity (selector cls : Value) (argCount : Nat) : Attempt Unit := do
  match ← Action.lookup selector cls with
  | none => return
  | some e =>
    let header ← Action.ofExcept (MethodHeader.of (← get).memory e.method)
    require (header.argCount = argCount)

/-- Performs a selector with an array of arguments; the array is `extra` entries below the top. -/
def performWithArray (lookupClass : Value) (extra : Nat) : Attempt Completion := do
  let selector ← stackObject (extra + 1)
  let array ← Action.object (← stackObject extra)
  require array.format.isPointers
  let arguments := array.pointers.toList
  let r ← Action.registers
  let room := (← Action.object r.context).pointers.size
  require (r.sp - extra - 2 + arguments.length < room)
  checkArity selector lookupClass arguments.length
  Action.popN (extra + 2)
  arguments.forM fun x => Action.push x
  return .resend selector arguments.length lookupClass

end Attempt

namespace Primitive

open Attempt

/-- Makes a block. -/
def blockCopy : PrimitiveAction := fun _ => do
  answer 1 (← Attempt.blockCopy)

/-- Enters a block. -/
def blockValue : PrimitiveAction := fun argCount => do
  Attempt.blockValue argCount
  return .done

/-- Performs a selector with the arguments that follow it. -/
def perform : PrimitiveAction := fun argCount => do
  match argCount with
  | 0 => decline
  | count + 1 =>
    let selector ← stackObject count
    let cls ← Action.classOf (← stackValue (count + 1))
    checkArity selector cls count
    let arguments ← Action.stackValues count
    Action.popN (count + 1)
    arguments.forM fun x => Action.push x
    return .resend selector count cls

/-- Performs a selector with the arguments in an array. -/
def performWithArguments : PrimitiveAction := fun _ => do
  let cls ← Action.classOf (← stackValue 2)
  performWithArray cls 0

/-- Performs a selector with the arguments in an array, looking for it from a superclass on. -/
def performInSuperclass : PrimitiveAction := fun _ => do
  let lookupClass ← stackObject 0
  let cls ← Action.classOf (← stackValue 3)
  require (← Action.isAncestor lookupClass cls)
  performWithArray lookupClass 1

/-- Empties the caches. -/
def flushCache : PrimitiveAction := fun _ => do
  modify Machine.flushCaches
  return .done

/-- Forgets the remembered lookups that found a method. -/
def flushMethod : PrimitiveAction := fun _ => do
  let method ← Action.top
  modify fun m => { m with methodCache := m.methodCache.flushMethod method }
  return .done

/-- Forgets the remembered lookups of a selector. -/
def flushSelector : PrimitiveAction := fun _ => do
  let selector ← Action.top
  modify fun m => { m with methodCache := m.methodCache.flushSelector selector }
  return .done

end Primitive

end Smalltalk
