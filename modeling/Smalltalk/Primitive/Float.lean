import Smalltalk.Double
import Smalltalk.Primitive.Basic

/-!
# Float primitives
-/

namespace Smalltalk.Primitive

open Attempt

/-- An operation on two doubles. -/
def floatOp (op : UInt64 → UInt64 → Option UInt64) : PrimitiveAction := fun _ => do
  let a ← stackFloat 1
  let b ← stackFloat 0
  let c ← ofOption (op a b)
  answer 1 (← Action.makeFloat c)

/-- A comparison of two doubles. -/
def floatComparison (op : UInt64 → UInt64 → Bool) : PrimitiveAction := fun _ => do
  let a ← stackFloat 1
  let b ← stackFloat 0
  answerTruth 1 (op a b)

/-- The double of an integer. -/
def asFloat : PrimitiveAction := fun _ => do
  let n ← stackInteger 0
  answer 0 (← Action.makeFloat (Double.ofInt n))

def floatAdd : PrimitiveAction := floatOp fun a b => some (Double.add a b)
def floatSubtract : PrimitiveAction := floatOp fun a b => some (Double.sub a b)
def floatMultiply : PrimitiveAction := floatOp fun a b => some (Double.mul a b)

/-- Division, except by zero. -/
def floatDivide : PrimitiveAction := floatOp fun a b =>
  if Double.isZero b then none else some (Double.div a b)

def floatLess : PrimitiveAction := floatComparison Double.lt
def floatGreater : PrimitiveAction := floatComparison fun a b => Double.lt b a
def floatLessOrEqual : PrimitiveAction := floatComparison Double.le
def floatGreaterOrEqual : PrimitiveAction := floatComparison fun a b => Double.le b a
def floatEqual : PrimitiveAction := floatComparison Double.eq
def floatNotEqual : PrimitiveAction := floatComparison fun a b => !Double.eq a b

/-- The integral part, if it is immediate. -/
def truncated : PrimitiveAction := fun _ => do
  let a ← stackFloat 0
  require (Double.isBetween Value.smallMin Value.smallMax a)
  answer 0 (.small (Double.truncate a))

/-- The natural logarithm. -/
def logarithm : PrimitiveAction := fun _ => do
  let a ← stackFloat 0
  answer 0 (← Action.makeFloat (Double.log a))

end Smalltalk.Primitive
