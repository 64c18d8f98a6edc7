import Smalltalk.Memory.Become
import Smalltalk.Memory.Enumeration
import Smalltalk.Primitive.Basic

/-!
# Object primitives

Making objects, exchanging their identities, and walking over all of them.
-/

namespace Smalltalk

/-- Renames the values the machine holds itself. -/
def Registers.rename (r : Registers) (names : Renaming) : Registers :=
  { r with
    context := names.apply r.context
    home := names.apply r.home
    method := names.apply r.method
    receiver := names.apply r.receiver }

namespace Action

/-- Renames objects throughout the heap and the machine. Answers whether the lists could be
paired. -/
def become (source target : List Value) (twoWay : Bool) : Action Bool := do
  match Renaming.ofLists source target twoWay with
  | .error _ => return false
  | .ok names =>
    modifyMemory fun m => m.rename names
    modifyRegisters fun r => r.rename names
    modify fun m => { m with specials := { m.specials with array := names.apply m.specials.array } }
    let specials ← ofExcept (SpecialObjects.load (← get).memory (← get).specials.array)
    modify fun m => { m with specials, lastPrimitiveSend := none, pool := m.pool.clear }.flushCaches
    return true

/-- Applies a query that moves the position hint. -/
def query (f : Memory → Option Value × Memory) : Action (Option Value) := fun m =>
  let memory := m.memory
  let m := { m with memory := default }
  let (found, memory) := f memory
  .ok found { m with memory }

end Action

namespace Primitive

open Attempt

/-- The largest number of indexed elements or bytecodes an object is made with. -/
def maxIndexable : Nat := 0x01000000

/-- A new instance, if its class allows indexed elements where they are wanted. -/
def newInstanceOf (cls : Value) (count : Nat) : Attempt Value := do
  let spec ← orDecline (Action.instanceSpec cls)
  require (count = 0 ∨ (2 ≤ spec.formatCode ∧ spec.formatCode < 12))
  Action.instantiate cls count

/-- A new instance without indexed elements. -/
def basicNew : PrimitiveAction := fun _ => do
  let cls ← stackObject 0
  answer 0 (← newInstanceOf cls 0)

/-- A new instance with indexed elements. -/
def basicNewSized : PrimitiveAction := fun _ => do
  let cls ← stackObject 1
  let count ← stackPositive32 0
  require (count ≤ maxIndexable)
  answer 1 (← newInstanceOf cls count)

/-- Makes the elements of the receiver those of the argument. -/
def arrayBecome (twoWay : Bool) : PrimitiveAction := fun _ => do
  let receiver ← stackObject 1
  let argument ← stackObject 0
  let source := (← Action.object receiver).pointers.toList
  let target := (← Action.object argument).pointers.toList
  require (← Action.become source target twoWay)
  answer 1 (← stackValue 1)

def becomeForward : PrimitiveAction := arrayBecome false
def becomeBoth : PrimitiveAction := arrayBecome true

/-- The identity hash. -/
def identityHash : PrimitiveAction := fun _ => do
  let receiver ← stackObject 0
  let hash := (← Action.object receiver).hash
  answer 0 (.small hash.toNat)

/-- The first instance of a class, or nil. -/
def someInstance : PrimitiveAction := fun _ => do
  let cls ← stackObject 0
  let found ← Action.query fun m => m.firstInstance cls
  answer 0 (found.getD (← Action.nil))

/-- The next instance of the same class, or nil. -/
def nextInstance : PrimitiveAction := fun _ => do
  let after ← stackObject 0
  let found ← Action.query fun m => m.nextInstance after
  answer 0 (found.getD (← Action.nil))

/-- The first object, or nil. -/
def someObject : PrimitiveAction := fun _ => do
  let found ← Action.query Memory.firstObject
  answer 0 (found.getD (← Action.nil))

/-- The next object, or zero after the last. -/
def nextObject : PrimitiveAction := fun _ => do
  let after ← stackObject 0
  let found ← Action.query fun m => m.nextObject after
  answer 0 (found.getD (.small 0))

/-- A new compiled method with a given header. -/
def newMethod : PrimitiveAction := fun _ => do
  let cls ← stackObject 2
  let count ← stackPositive32 1
  let header ← stackInteger 0
  let spec ← orDecline (Action.instanceSpec cls)
  require (12 ≤ spec.formatCode ∧ count ≤ maxIndexable)
  let literals := Array.replicate (MethodHeader.literalCount ⟨header⟩) (← Action.nil)
  answer 2 (← Action.allocate
    (.ofMethod cls (#[.small header] ++ literals) (Array.replicate count 0)))

/-- Whether two values are the same. -/
def identical : PrimitiveAction := fun _ => do
  let a ← stackValue 1
  let b ← stackValue 0
  answerTruth 1 (a == b)

/-- The class of the receiver. -/
def classOf : PrimitiveAction := fun _ => do
  answer 0 (← Action.classOf (← Action.top))

/-- The special objects array. -/
def specialObjectsArray : PrimitiveAction := fun _ => do
  answer 0 (← get).specials.array

/-- A copy with an identity of its own. -/
def clone : PrimitiveAction := fun _ => do
  let receiver ← stackObject 0
  let o ← Action.object receiver
  answer 0 (← Action.allocate o)

end Primitive

end Smalltalk
