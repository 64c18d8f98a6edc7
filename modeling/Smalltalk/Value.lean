/-!
# Values

A value is an immediate small integer or a reference to a slot of the object memory. A reference
carries the generation its slot had when it was issued, so a reference to a slot that has been
reused since is recognised as stale. `raw` is the 64-bit word a value is stored as and `ofRaw`
reads that word back.
-/

namespace Smalltalk

/-- What a field of an object, a register or a stack slot holds. -/
inductive Value where
  /-- An immediate integer. -/
  | small (n : Int)
  /-- The slot at `index`, as it was in its `generation`-th use. -/
  | ref (index : UInt32) (generation : BitVec 30)
  deriving DecidableEq, Inhabited, Repr

namespace Value

/-- The least immediate integer, `-2^30`. -/
def smallMin : Int := -0x40000000

/-- The greatest immediate integer, `2^30 - 1`. -/
def smallMax : Int := 0x3FFFFFFF

/-- Whether `n` has an immediate representation. -/
def InRange (n : Int) : Prop := smallMin ≤ n ∧ n ≤ smallMax

instance (n : Int) : Decidable (InRange n) := inferInstanceAs (Decidable (_ ∧ _))

/-- The immediate value of `n`, when there is one. -/
def ofInt? (n : Int) : Option Value := if InRange n then some (small n) else none

/-- A reference to the slot at `index` in its `generation`-th use. A reference has room for the
low 30 bits of the generation only. -/
def reference (index generation : UInt32) : Value := ref index (generation.toBitVec.setWidth 30)

/-- The integer of an immediate value. -/
def asSmall? : Value → Option Int
  | small n => some n
  | ref .. => none

/-- Whether the value is immediate. -/
def isSmall : Value → Bool
  | small _ => true
  | ref .. => false

/-- Whether the value refers to an object. -/
def isReference : Value → Bool
  | small _ => false
  | ref .. => true

/-- The word that stores a value: integers are shifted past a zero tag bit, references carry the
tag `01`, then the slot index and the generation. -/
def raw : Value → BitVec 64
  | small n => BitVec.ofInt 64 n <<< 1
  | ref index generation =>
    generation.setWidth 64 <<< 34 ||| index.toBitVec.setWidth 64 <<< 2 ||| 1#64

/-- The value stored in a word. -/
def ofRaw (word : BitVec 64) : Value :=
  if word.getLsbD 0 then
    ref ⟨word.extractLsb' 2 32⟩ (word.extractLsb' 34 30)
  else
    small (word.sshiftRight 1).toInt

/-- How a value is written in messages. -/
def text : Value → String
  | small n => s!"SmallInt({n})"
  | ref index generation => s!"Oop({index.toNat}@{generation.toNat})"

end Value

end Smalltalk
