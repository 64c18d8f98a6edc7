/-!
# Words

Sizes and positions are counts. Where one is handed on as a signed number it is a 64-bit word in
two's complement, so a count below `2^63` is itself and a greater one comes out negative. Sums,
differences and products have to fit the words they are computed in.
-/

namespace Smalltalk

/-- The words that the machine computes in. -/
inductive Width where
  /-- Counts and sizes: 64 bits without a sign. -/
  | natural64
  /-- Coordinates: 32 bits with a sign. -/
  | integer32
  /-- Times and what is counted down: 64 bits with a sign. -/
  | integer64
  deriving DecidableEq, Inhabited, Repr

namespace Width

/-- The least number that fits. -/
def least : Width → Int
  | natural64 => 0
  | integer32 => -0x80000000
  | integer64 => -0x8000000000000000

/-- The greatest number that fits. -/
def greatest : Width → Int
  | natural64 => 0xFFFFFFFFFFFFFFFF
  | integer32 => 0x7FFFFFFF
  | integer64 => 0x7FFFFFFFFFFFFFFF

/-- Whether a number fits. -/
def Holds (w : Width) (n : Int) : Prop := w.least ≤ n ∧ n ≤ w.greatest

instance (w : Width) (n : Int) : Decidable (w.Holds n) := inferInstanceAs (Decidable (_ ∧ _))

end Width

/-- A count, read as a signed 64-bit word. -/
def signedWord (count : Nat) : Int := Int.bmod count 0x10000000000000000

/-- A count that fits is itself. -/
theorem signedWord_of_lt {count : Nat} (h : count < 0x8000000000000000) : signedWord count = count :=
  Int.bmod_eq_of_le_mul_two (by omega) (by omega)

end Smalltalk
