import Smalltalk.Arithmetic
import Smalltalk.Primitive.Basic

/-!
# Integer primitives

Arithmetic and comparison of immediate integers, and bit operations on natural numbers of up to 32
bits, which may be large integers.
-/

namespace Smalltalk.Primitive

open Attempt

/-- An operation on two immediate integers with an immediate answer. -/
def integerOp (op : Int → Int → Option Int) : PrimitiveAction := fun _ => do
  let a ← stackInteger 1
  let b ← stackInteger 0
  answer 1 (← ofOption ((op a b).bind Value.ofInt?))

/-- A comparison of two immediate integers. -/
def integerComparison (op : Int → Int → Bool) : PrimitiveAction := fun _ => do
  let a ← stackInteger 1
  let b ← stackInteger 0
  answerTruth 1 (op a b)

/-- An operation on two natural numbers of 32 bits. -/
def bitOp (op : Nat → Nat → Nat) : PrimitiveAction := fun _ => do
  let a ← stackPositive32 1
  let b ← stackPositive32 0
  answer 1 (← newPositive32 (op a b))

def add : PrimitiveAction := integerOp fun a b => some (a + b)
def subtract : PrimitiveAction := integerOp fun a b => some (a - b)
def multiply : PrimitiveAction := integerOp fun a b => some (a * b)
def divide : PrimitiveAction := integerOp Arithmetic.exactDiv?
def modulo : PrimitiveAction := integerOp Arithmetic.floorMod?
def floorDivide : PrimitiveAction := integerOp Arithmetic.floorDiv?
def quotient : PrimitiveAction := integerOp Arithmetic.truncDiv?
def less : PrimitiveAction := integerComparison (· < ·)
def greater : PrimitiveAction := integerComparison (· > ·)
def lessOrEqual : PrimitiveAction := integerComparison (· ≤ ·)
def greaterOrEqual : PrimitiveAction := integerComparison (· ≥ ·)
def equal : PrimitiveAction := integerComparison (· = ·)
def notEqual : PrimitiveAction := integerComparison (· ≠ ·)
def bitAnd : PrimitiveAction := bitOp (· &&& ·)
def bitOr : PrimitiveAction := bitOp (· ||| ·)
def bitXor : PrimitiveAction := bitOp (· ^^^ ·)

/-- Moves the bits of a natural number. -/
def bitShift : PrimitiveAction := fun _ => do
  let n ← stackPositive32 1
  let count ← stackInteger 0
  let shifted ← ofOption (Arithmetic.shift32? n count)
  answer 1 (← newPositive32 shifted)

/-- The point of two values. -/
def point : PrimitiveAction := fun _ => do
  let x ← stackValue 1
  let y ← stackValue 0
  answer 1 (← Action.makePoint x y)

end Smalltalk.Primitive
