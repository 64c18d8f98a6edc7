/-!
# Double precision numbers

A Float object holds the 64 bits of a double. A finite double is a whole number times a power of
two, so whether it lies between two integers and its integral part are computed exactly. The four
operations and the logarithm are the hardware's; what they do with values that are not numbers is
stated here: an operand that is not a number is the answer, made quiet, the first one first, and an
operation without a meaningful answer gives the default one.
-/

namespace Smalltalk.Double

/-- The eleven exponent bits. -/
def exponentBits (bits : UInt64) : Nat := (bits >>> 52 &&& 0x7FF).toNat

/-- The 52 fraction bits. -/
def fractionBits (bits : UInt64) : Nat := (bits &&& 0xFFFFFFFFFFFFF).toNat

/-- Whether the sign bit is set. -/
def isNegative (bits : UInt64) : Bool := bits >>> 63 == 1

/-- Whether the bits stand for no number. -/
def isNaN (bits : UInt64) : Bool := exponentBits bits == 0x7FF && fractionBits bits != 0

/-- Whether the bits stand for a finite number. -/
def isFinite (bits : UInt64) : Bool := exponentBits bits != 0x7FF

/-- The signed whole number `k` and the exponent `e` with which a finite double is `k * 2^e`. -/
def parts (bits : UInt64) : Int × Int :=
  let (magnitude, exponent) : Nat × Int :=
    if exponentBits bits = 0 then (fractionBits bits, -1074)
    else (0x10000000000000 + fractionBits bits, (exponentBits bits : Int) - 1075)
  (if isNegative bits then -(magnitude : Int) else magnitude, exponent)

/-- Whether a double is a number from `low` to `high`. -/
def isBetween (low high : Int) (bits : UInt64) : Bool :=
  if isFinite bits then
    let (k, e) := parts bits
    let scale : Int := (1 <<< (-e).toNat : Nat)
    let number : Int := k * (1 <<< e.toNat : Nat)
    low * scale ≤ number && number ≤ high * scale
  else
    false

/-- The integral part of a finite double. -/
def truncate (bits : UInt64) : Int :=
  let (k, e) := parts bits
  (k * (1 <<< e.toNat : Nat)).tdiv (1 <<< (-e).toNat : Nat)

/-- The answer of an operation without a meaningful one. -/
def defaultNaN : UInt64 := 0xFFF8000000000000

/-- Marks bits that are no number as quiet. -/
def quiet (bits : UInt64) : UInt64 := bits ||| 0x0008000000000000

/-- The bits of a computed number. -/
def ofFloat (x : Float) : UInt64 := if x.isNaN then defaultNaN else x.toBits

/-- An operation with one operand. -/
def unary (op : Float → Float) (a : UInt64) : UInt64 :=
  if isNaN a then quiet a else ofFloat (op (Float.ofBits a))

/-- An operation with two operands. -/
def binary (op : Float → Float → Float) (a b : UInt64) : UInt64 :=
  if isNaN a then quiet a
  else if isNaN b then quiet b
  else ofFloat (op (Float.ofBits a) (Float.ofBits b))

def add (a b : UInt64) : UInt64 := binary (· + ·) a b
def sub (a b : UInt64) : UInt64 := binary (· - ·) a b
def mul (a b : UInt64) : UInt64 := binary (· * ·) a b
def div (a b : UInt64) : UInt64 := binary (· / ·) a b
def log (a : UInt64) : UInt64 := unary Float.log a

/-- The double of an integer. -/
def ofInt (n : Int) : UInt64 := ofFloat (Float.ofInt n)

def lt (a b : UInt64) : Bool := Float.ofBits a < Float.ofBits b
def le (a b : UInt64) : Bool := Float.ofBits a ≤ Float.ofBits b
def eq (a b : UInt64) : Bool := Float.ofBits a == Float.ofBits b

/-- Whether a double is zero, of either sign. -/
def isZero (bits : UInt64) : Bool := bits == 0 || bits == 0x8000000000000000

end Smalltalk.Double
