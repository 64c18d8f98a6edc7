/-!
# Integer arithmetic

The operations behind the arithmetic bytecodes and primitives. An operation without an integer
answer has none here; whether an answer is small enough to be immediate is not decided here.
-/

namespace Smalltalk.Arithmetic

/-- The quotient rounded down. -/
def floorDiv? (a b : Int) : Option Int := if b = 0 then none else some (a.fdiv b)

/-- The remainder that has the sign of the divisor. -/
def floorMod? (a b : Int) : Option Int := if b = 0 then none else some (a.fmod b)

/-- The quotient, if it is exact. -/
def exactDiv? (a b : Int) : Option Int :=
  if b = 0 then none else if a.tmod b = 0 then some (a.tdiv b) else none

/-- The quotient rounded towards zero. -/
def truncDiv? (a b : Int) : Option Int := if b = 0 then none else some (a.tdiv b)

/-- The bits of an integer, moved to the left by `count` places or to the right by `-count`, as
long as no more than 64 bits are needed. -/
def shift? (a count : Int) : Option Int :=
  if count < 0 then
    some (a >>> (min (-count) 63).toNat)
  else if 63 ≤ count then
    if a = 0 then some 0 else none
  else
    let shifted := a * (1 <<< count.toNat : Nat)
    if -0x8000000000000000 ≤ shifted ∧ shifted < 0x8000000000000000 then some shifted else none

/-- The bits that both integers have. -/
def bitAnd (a b : Int) : Int := (BitVec.ofInt 64 a &&& BitVec.ofInt 64 b).toInt

/-- The bits that one of the integers has. -/
def bitOr (a b : Int) : Int := (BitVec.ofInt 64 a ||| BitVec.ofInt 64 b).toInt

/-- A natural number moved by `count` bits, if the answer is below `2^32`. -/
def shift32? (n : Nat) (count : Int) : Option Nat :=
  if count < 0 then
    some (n >>> (min (-count) 63).toNat)
  else if 32 ≤ count then
    if n = 0 then some 0 else none
  else
    let shifted := n <<< count.toNat
    if shifted < 0x100000000 then some shifted else none

end Smalltalk.Arithmetic
