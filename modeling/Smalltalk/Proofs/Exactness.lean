import Smalltalk.Proofs.Answering
import Smalltalk.Proofs.Flushing
import Smalltalk.Proofs.Tagging

/-!
# Exact arithmetic

The nine arithmetic selectors that answer integers. `Means` says what their answers are in the
integers: the quotient and the remainder of a floored division are the pair with a remainder between
zero and the divisor, moving bits multiplies or divides by a power of two, and the bit operations go
place by place. A bytecode answers on the spot exactly when that integer is immediate, computes it in
words of 64 bits without overflow, and sends the selector otherwise. A numbered primitive that
answers an immediate integer answers that integer too.
-/

namespace Smalltalk

open Outcome

variable {a b q r : Int} {m m' : Machine} {n : Nat}

/-! ### Division -/

namespace Arithmetic

/-- `a` divided by `b` with the quotient rounded down: the remainder lies between zero and `b`. -/
def Divides (a b q r : Int) : Prop := a = b * q + r ∧ (0 ≤ r ∧ r < b ∨ b < r ∧ r ≤ 0)

theorem divides_iff_of_pos (hb : 0 < b) : Divides a b q r ↔ a / b = q ∧ a % b = r := by
  rw [Int.ediv_emod_unique hb, Divides, add_comm r, @eq_comm _ a]
  exact and_congr_right fun _ => or_iff_left (by omega)

/-- A floored division has one quotient and one remainder. -/
theorem divides_iff : Divides a b q r ↔ b ≠ 0 ∧ a.fdiv b = q ∧ a.fmod b = r := by
  rcases lt_trichotomy b 0 with hb | rfl | hb
  · have hneg : Divides a b q r ↔ Divides (-a) (-b) q (-r) := by
      simp only [Divides, neg_mul]
      omega
    have hquotient : a.fdiv b = -a / -b := by
      rw [← Int.neg_fdiv_neg, Int.fdiv_eq_ediv_of_nonneg _ (by omega)]
    have hremainder : a.fmod b = -(-a % -b) := by
      rw [Int.fmod_def, hquotient, Int.emod_def]
      ring
    rw [hneg, divides_iff_of_pos (by omega), hquotient, hremainder]
    omega
  · simp only [Divides]
    omega
  · rw [divides_iff_of_pos hb, Int.fdiv_eq_ediv_of_nonneg _ hb.le, Int.fmod_eq_emod_of_nonneg _ hb.le]
    exact ⟨fun h => ⟨hb.ne', h⟩, And.right⟩

theorem exactDiv?_eq_some : exactDiv? a b = some r ↔ b ≠ 0 ∧ a = b * r := by
  unfold exactDiv?
  split_ifs with hb hmod
  · simp [hb]
  · simp only [Option.some.injEq, ne_eq, hb, not_false_eq_true, true_and]
    have h := Int.mul_tdiv_add_tmod a b
    rw [hmod, add_zero] at h
    exact ⟨fun e => by rw [← e, h], fun e => mul_left_cancel₀ hb (h.trans e)⟩
  · simp only [ne_eq, hb, not_false_eq_true, true_and, false_iff]
    rintro rfl
    exact hmod (Int.mul_tmod_right b r)

/-! ### Bits -/

/-- A word of 64 bits has the bits of its number, and repeats the last of them. -/
theorem testBit_ofInt (h : -2 ^ 63 ≤ a ∧ a < 2 ^ 63) (i : Nat) :
    a.testBit i = (BitVec.ofInt 64 a).getLsbD (min i 63) := by
  have high {k : Nat} (hk : k < 2 ^ 63) : k.testBit i = k.testBit (min i 63) := by
    rcases Nat.le_total i 63 with hi | hi
    · rw [min_eq_left hi]
    · rw [min_eq_right hi, Nat.testBit_lt_two_pow hk,
        Nat.testBit_lt_two_pow (hk.trans_le (Nat.pow_le_pow_right (by decide) hi))]
  have hplace : min i 63 < 64 := by omega
  cases a with
  | ofNat k =>
    have hk : k < 2 ^ 63 := by
      have := h.2
      simp only [Int.ofNat_eq_natCast] at this
      exact_mod_cast this
    rw [Int.ofNat_eq_natCast, BitVec.ofInt_natCast, BitVec.getLsbD_ofNat]
    simp only [hplace, decide_true, Bool.true_and]
    exact high hk
  | negSucc k =>
    have hk : k < 2 ^ 63 := by
      have := h.1
      omega
    rw [BitVec.ofInt_negSucc_eq_not_ofNat, BitVec.getLsbD_not, BitVec.getLsbD_ofNat]
    simp only [hplace, decide_true, Bool.true_and]
    exact congrArg (!·) (high hk)

theorem testBit_toInt (x : BitVec 64) (i : Nat) : x.toInt.testBit i = x.getLsbD (min i 63) := by
  have h := testBit_ofInt (a := x.toInt) ⟨x.le_toInt, x.toInt_lt⟩ i
  rwa [BitVec.ofInt_toInt] at h

/-- Numbers with the same bits are equal. -/
theorem eq_of_testBit (h : ∀ i, a.testBit i = b.testBit i) : a = b := by
  have mixed {j k : Nat} (h : ∀ i, j.testBit i = !k.testBit i) : False := by
    have hj : j < 2 ^ (j + k) := Nat.lt_two_pow_self.trans_le (Nat.pow_le_pow_right (by decide) (by omega))
    have hk : k < 2 ^ (j + k) := Nat.lt_two_pow_self.trans_le (Nat.pow_le_pow_right (by decide) (by omega))
    have := h (j + k)
    rw [Nat.testBit_lt_two_pow hj, Nat.testBit_lt_two_pow hk] at this
    exact absurd this (by decide)
  cases a with
  | ofNat j =>
    cases b with
    | ofNat k => exact congrArg Int.ofNat (Nat.eq_of_testBit_eq h)
    | negSucc k => exact (mixed h).elim
  | negSucc j =>
    cases b with
    | ofNat k => exact (mixed fun i => (h i).symm).elim
    | negSucc k => exact congrArg Int.negSucc (Nat.eq_of_testBit_eq fun i => Bool.not_inj (h i))

/-- An immediate integer fits a word of 64 bits. -/
theorem fits_of_inRange (h : Value.InRange a) : -2 ^ 63 ≤ a ∧ a < 2 ^ 63 := by
  simp only [Value.InRange, Value.smallMin, Value.smallMax] at h
  omega

theorem bitAnd_eq_iff (ha : Value.InRange a) (hb : Value.InRange b) :
    bitAnd a b = r ↔ ∀ i, r.testBit i = (a.testBit i && b.testBit i) := by
  have hbits (i : Nat) : (bitAnd a b).testBit i = (a.testBit i && b.testBit i) := by
    rw [bitAnd, testBit_toInt, BitVec.getLsbD_and, testBit_ofInt (fits_of_inRange ha),
      testBit_ofInt (fits_of_inRange hb)]
  exact ⟨fun e => e ▸ hbits, fun h => eq_of_testBit fun i => (hbits i).trans (h i).symm⟩

theorem bitOr_eq_iff (ha : Value.InRange a) (hb : Value.InRange b) :
    bitOr a b = r ↔ ∀ i, r.testBit i = (a.testBit i || b.testBit i) := by
  have hbits (i : Nat) : (bitOr a b).testBit i = (a.testBit i || b.testBit i) := by
    rw [bitOr, testBit_toInt, BitVec.getLsbD_or, testBit_ofInt (fits_of_inRange ha),
      testBit_ofInt (fits_of_inRange hb)]
  exact ⟨fun e => e ▸ hbits, fun h => eq_of_testBit fun i => (hbits i).trans (h i).symm⟩

/-! ### Moving bits -/

theorem pow_places_pos (n : Nat) : (0 : Int) < 2 ^ n := Int.pow_pos (by decide)

/-- Moving an immediate integer to the right by more places than a word has is moving it by 63. -/
theorem shiftRight_min (ha : Value.InRange a) : a >>> min n 63 = a / 2 ^ n := by
  have hfits := fits_of_inRange ha
  rw [Int.shiftRight_eq_div_pow]
  push_cast
  rcases Nat.le_total n 63 with hn | hn
  · rw [min_eq_left hn]
  · have hpow : (2 : Int) ^ 63 ≤ 2 ^ n := pow_le_pow_right₀ (by decide) hn
    rw [min_eq_right hn]
    rcases lt_or_ge a 0 with hneg | hpos
    · rw [Int.ediv_eq_neg_one_of_neg_of_le hneg (by omega),
        Int.ediv_eq_neg_one_of_neg_of_le hneg (by omega)]
    · rw [Int.ediv_eq_zero_of_lt hpos hfits.2, Int.ediv_eq_zero_of_lt hpos (by omega)]

/-- Moving bits to the left multiplies, and only zero is still immediate after many places. -/
theorem shift?_left_iff (hb : 0 ≤ b) (hr : Value.InRange r) :
    shift? a b = some r ↔ r = a * 2 ^ b.toNat := by
  unfold shift?
  rw [if_neg (by omega)]
  split_ifs with hmany hzero
  · simp [hzero, eq_comm]
  · simp only [false_iff]
    intro h
    have hpow : (2 : Int) ^ 63 ≤ 2 ^ b.toNat := pow_le_pow_right₀ (by decide) (by omega)
    simp only [Value.InRange, Value.smallMin, Value.smallMax] at hr
    rcases lt_or_gt_of_ne hzero with ha | ha
    · nlinarith only [ha, hpow, h, hr.1]
    · nlinarith only [ha, hpow, h, hr.2]
  · simp only [Nat.one_shiftLeft, Nat.cast_pow, Nat.cast_ofNat, Option.ite_none_right_eq_some,
      Option.some.injEq]
    refine ⟨fun h => h.2.symm, fun h => ⟨?_, h.symm⟩⟩
    rw [← h]
    exact fits_of_inRange hr

theorem shift?_right_iff (ha : Value.InRange a) (hb : b < 0) :
    shift? a b = some r ↔ ∃ rest, Divides a (2 ^ (-b).toNat) r rest := by
  have hplaces : (min (-b) 63).toNat = min (-b).toNat 63 := by omega
  simp only [shift?, hb, if_true, hplaces, shiftRight_min ha, Option.some.injEq,
    divides_iff_of_pos (pow_places_pos _), exists_and_left, exists_eq', and_true]

/-! ### Words -/

/-- An integer, if a word of 64 bits with sign has room for it; otherwise the word overflows. -/
def word? (n : Int) : Option Int := if -2 ^ 63 ≤ n ∧ n < 2 ^ 63 then some n else none

/-- The quotient rounded down, computed from the one rounded towards zero. -/
def floorDivInWords (a b : Int) : Option (Option Int) :=
  if b = 0 then some none
  else do
    let quotient ← word? (a.tdiv b)
    let rest ← word? (a.tmod b)
    if rest ≠ 0 ∧ (a < 0) ≠ (b < 0) then return some (← word? (quotient - 1))
    else return some quotient

/-- The remainder, computed from the quotient. -/
def floorModInWords (a b : Int) : Option (Option Int) := do
  match ← floorDivInWords a b with
  | none => return none
  | some quotient => return some (← word? (a - (← word? (quotient * b))))

def exactDivInWords (a b : Int) : Option (Option Int) :=
  if b = 0 then some none
  else do
    let rest ← word? (a.tmod b)
    if rest = 0 then return some (← word? (a.tdiv b))
    else return none

/-- Bits that leave the word on the left are lost, and moving them back shows it. -/
def shiftInWords (a count : Int) : Option (Option Int) :=
  if count < 0 then do
    let places ← word? (-count)
    return some (a >>> (min places 63).toNat)
  else if 63 ≤ count then
    if a = 0 then some (some 0) else some none
  else
    let shifted := (a * 2 ^ count.toNat).bmod (2 ^ 64)
    if shifted >>> count.toNat = a then some (some shifted) else some none

theorem word?_of_natAbs_le {bound : Nat} (h : a.natAbs ≤ bound) (hbound : bound < 2 ^ 63) :
    word? a = some a := if_pos (by omega)

/-- Rounding down differs from rounding towards zero where the signs differ and a rest is left. -/
theorem fdiv_eq_tdiv_sub (hb : b ≠ 0) :
    a.fdiv b = if a.tmod b ≠ 0 ∧ (a < 0) ≠ (b < 0) then a.tdiv b - 1 else a.tdiv b := by
  have hdvd : b ∣ a ↔ a.tmod b = 0 := Int.dvd_iff_tmod_eq_zero
  rw [Int.fdiv_eq_tdiv]
  rcases lt_or_gt_of_ne hb with hneg | hpos
  · rw [Int.sign_eq_neg_one_of_neg hneg]
    simp only [hdvd, ne_eq, eq_iff_iff]
    split_ifs <;> omega
  · rw [Int.sign_eq_one_of_pos hpos]
    simp only [hdvd, ne_eq, eq_iff_iff]
    split_ifs <;> omega

section
variable (ha : Value.InRange a)
include ha

theorem natAbs_tdiv_le : (a.tdiv b).natAbs ≤ 2 ^ 30 := by
  simp only [Value.InRange, Value.smallMin, Value.smallMax] at ha
  rw [Int.natAbs_tdiv]
  exact (Nat.div_le_self _ _).trans (by omega)

theorem natAbs_tmod_le : (a.tmod b).natAbs ≤ 2 ^ 30 := by
  simp only [Value.InRange, Value.smallMin, Value.smallMax] at ha
  rw [Int.natAbs_tmod]
  exact (Nat.mod_le _ _).trans (by omega)

theorem floorDivInWords_eq : floorDivInWords a b = some (floorDiv? a b) := by
  unfold floorDivInWords floorDiv?
  by_cases hzero : b = 0
  · rw [if_pos hzero, if_pos hzero]
  have hquotient := natAbs_tdiv_le (b := b) ha
  have hless : (a.tdiv b - 1).natAbs ≤ 2 ^ 31 := by omega
  simp only [hzero, if_false, word?_of_natAbs_le hquotient (by decide),
    word?_of_natAbs_le (natAbs_tmod_le ha) (by decide), word?_of_natAbs_le hless (by decide),
    Option.bind_eq_bind, Option.bind_some, fdiv_eq_tdiv_sub hzero]
  split_ifs <;> rfl

theorem floorModInWords_eq (hb : Value.InRange b) : floorModInWords a b = some (floorMod? a b) := by
  unfold floorModInWords floorMod?
  rw [floorDivInWords_eq ha, floorDiv?]
  by_cases hzero : b = 0
  · simp [hzero]
  obtain ⟨hsum, hrest⟩ : Divides a b (a.fdiv b) (a.fmod b) := divides_iff.2 ⟨hzero, rfl, rfl⟩
  simp only [Value.InRange, Value.smallMin, Value.smallMax] at ha hb
  have hproduct : (a.fdiv b * b).natAbs ≤ 2 ^ 32 := by
    rw [mul_comm]
    omega
  have hmod : a - a.fdiv b * b = a.fmod b := by
    rw [Int.fmod_def, mul_comm]
  have hrest : (a.fmod b).natAbs ≤ 2 ^ 30 := by omega
  simp only [hzero, if_false, word?_of_natAbs_le hproduct (by decide), hmod,
    word?_of_natAbs_le hrest (by decide), Option.bind_eq_bind, Option.bind_some, Option.pure_def]

theorem exactDivInWords_eq : exactDivInWords a b = some (exactDiv? a b) := by
  unfold exactDivInWords exactDiv?
  by_cases hzero : b = 0
  · rw [if_pos hzero, if_pos hzero]
  simp only [hzero, if_false, word?_of_natAbs_le (natAbs_tdiv_le ha) (by decide),
    word?_of_natAbs_le (natAbs_tmod_le ha) (by decide), Option.bind_eq_bind, Option.bind_some]
  split_ifs <;> rfl

end

/-- Moving the bits back shows whether the product needed more than a word. -/
theorem bmod_shiftRight_iff (hn : n < 63) : (a * 2 ^ n).bmod (2 ^ 64) >>> n = a ↔
    -2 ^ 63 ≤ a * 2 ^ n ∧ a * 2 ^ n < 2 ^ 63 := by
  have hpos := pow_places_pos n
  simp only [Int.shiftRight_eq_div_pow, Nat.cast_pow, Nat.cast_ofNat]
  constructor
  · intro h
    have hword : (2 : Int) ^ n ∣ ((2 ^ 64 : Nat) : Int) := by
      rw [Nat.cast_pow]
      exact pow_dvd_pow 2 (by omega)
    have hdvd : (2 : Int) ^ n ∣ (a * 2 ^ n).bmod (2 ^ 64) :=
      (Int.dvd_iff_dvd_of_dvd_sub (hword.trans Int.dvd_bmod_sub_self)).2 (Dvd.intro_left a rfl)
    have hsame : (a * 2 ^ n).bmod (2 ^ 64) = a * 2 ^ n := by
      rw [← Int.ediv_mul_cancel hdvd, h]
    have hlow := Int.le_bmod (x := a * 2 ^ n) (m := 2 ^ 64) (by decide)
    have hhigh := Int.bmod_lt (x := a * 2 ^ n) (m := 2 ^ 64) (by decide)
    rw [hsame] at hlow hhigh
    omega
  · rintro ⟨hlow, hhigh⟩
    rw [Int.bmod_eq_of_le (by omega) (by omega), Int.mul_ediv_cancel _ hpos.ne']

theorem shiftInWords_eq (hb : Value.InRange b) : shiftInWords a b = some (shift? a b) := by
  simp only [Value.InRange, Value.smallMin, Value.smallMax] at hb
  unfold shiftInWords shift?
  by_cases hneg : b < 0
  · have hcount : (-b).natAbs ≤ 2 ^ 30 := by omega
    simp [hneg, word?_of_natAbs_le hcount (by decide)]
  by_cases hmany : 63 ≤ b
  · simp only [hneg, hmany, if_true, if_false]
    split_ifs <;> rfl
  have hback := bmod_shiftRight_iff (a := a) (n := b.toNat) (by omega)
  simp only [hneg, hmany, if_false, hback, Nat.one_shiftLeft, Nat.cast_pow, Nat.cast_ofNat]
  split_ifs with hfits hfits' hfits'
  · rw [Int.bmod_eq_of_le (by omega) (by omega)]
  · exact absurd hfits hfits'
  · exact absurd hfits' hfits
  · rfl

end Arithmetic
/-! ### Selectors -/

/-- The arithmetic selectors that answer integers: `+ - * / \\\\ bitShift: // bitAnd: bitOr:`. -/
inductive IntegerSelector where
  | plus
  | minus
  | times
  | divide
  | modulo
  | shift
  | floorDivide
  | bitAnd
  | bitOr
  deriving DecidableEq, Repr

namespace IntegerSelector

open Arithmetic

/-- The position of the selector among the arithmetic ones. -/
def index : IntegerSelector → Nat
  | plus => 0
  | minus => 1
  | times => 8
  | divide => 9
  | modulo => 10
  | shift => 12
  | floorDivide => 13
  | bitAnd => 14
  | bitOr => 15

/-- The bytecode that sends the selector. -/
def bytecode (s : IntegerSelector) : UInt8 := 176 + UInt8.ofNat s.index

/-- The number of the primitive for the selector. -/
def primitive : IntegerSelector → Nat
  | plus => 1
  | minus => 2
  | times => 9
  | divide => 10
  | modulo => 11
  | floorDivide => 12
  | bitAnd => 14
  | bitOr => 15
  | shift => 17

/-- That `r` is the answer of the selector for `a` and `b` in the integers. -/
def Means (s : IntegerSelector) (a b r : Int) : Prop :=
  match s with
  | plus => r = a + b
  | minus => r = a - b
  | times => r = a * b
  | divide => b ≠ 0 ∧ a = b * r
  | modulo => ∃ quotient, Divides a b quotient r
  | shift => if 0 ≤ b then r = a * 2 ^ b.toNat else ∃ rest, Divides a (2 ^ (-b).toNat) r rest
  | floorDivide => ∃ rest, Divides a b r rest
  | bitAnd => ∀ i, r.testBit i = (a.testBit i && b.testBit i)
  | bitOr => ∀ i, r.testBit i = (a.testBit i || b.testBit i)

/-- The answer for `a` and `b` computed in words of 64 bits, if there is one; nothing is left when a
step overflows. -/
def inWords (s : IntegerSelector) (a b : Int) : Option (Option Int) :=
  match s with
  | plus => (word? (a + b)).map some
  | minus => (word? (a - b)).map some
  | times => (word? (a * b)).map some
  | divide => exactDivInWords a b
  | modulo => floorModInWords a b
  | shift => shiftInWords a b
  | floorDivide => floorDivInWords a b
  | bitAnd => some (some (Arithmetic.bitAnd a b))
  | bitOr => some (some (Arithmetic.bitOr a b))

variable {s : IntegerSelector} (ha : Value.InRange a) (hb : Value.InRange b)
include ha hb

/-- No step of the computation overflows. -/
theorem inWords_eq : s.inWords a b = some (Action.arithmeticResult s.index a b) := by
  have hbounds := And.intro ha hb
  simp only [Value.InRange, Value.smallMin, Value.smallMax] at hbounds
  cases s with
  | plus => exact congrArg (Option.map some) (if_pos (by omega))
  | minus => exact congrArg (Option.map some) (if_pos (by omega))
  | times =>
    have hproduct : (a * b).natAbs ≤ 2 ^ 30 * 2 ^ 30 := by
      rw [Int.natAbs_mul]
      exact Nat.mul_le_mul (by omega) (by omega)
    exact congrArg (Option.map some) (word?_of_natAbs_le hproduct (by decide))
  | divide => exact exactDivInWords_eq ha
  | modulo => exact floorModInWords_eq ha hb
  | shift => exact shiftInWords_eq hb
  | floorDivide => exact floorDivInWords_eq ha
  | bitAnd => rfl
  | bitOr => rfl

/-- An immediate integer is the result of the selector exactly when it is the answer in the
integers. -/
theorem arithmeticResult_eq_some (hr : Value.InRange r) :
    Action.arithmeticResult s.index a b = some r ↔ s.Means a b r := by
  cases s with
  | plus => exact Option.some_inj.trans eq_comm
  | minus => exact Option.some_inj.trans eq_comm
  | times => exact Option.some_inj.trans eq_comm
  | divide => exact exactDiv?_eq_some
  | modulo =>
    by_cases hzero : b = 0
    · simp [Action.arithmeticResult, index, floorMod?, Means, divides_iff, hzero]
    · simp [Action.arithmeticResult, index, floorMod?, Means, divides_iff, hzero]
  | shift =>
    rcases lt_or_ge b 0 with hneg | hpos
    · rw [Means, if_neg (by omega)]
      exact shift?_right_iff ha hneg
    · rw [Means, if_pos hpos]
      exact shift?_left_iff hpos hr
  | floorDivide =>
    by_cases hzero : b = 0
    · simp [Action.arithmeticResult, index, floorDiv?, Means, divides_iff, hzero]
    · simp [Action.arithmeticResult, index, floorDiv?, Means, divides_iff, hzero]
  | bitAnd => exact Option.some_inj.trans (bitAnd_eq_iff ha hb)
  | bitOr => exact Option.some_inj.trans (bitOr_eq_iff ha hb)

end IntegerSelector

/-! ### Primitives -/

/-- A primitive that was tried and is done has done its work. -/
theorem Action.action_of_tryPrimitive {p : Primitive} (hp : p ∈ Primitive.all)
    (hquick : ¬(256 ≤ p.number ∧ p.number < 520)) (h : tryPrimitive p.number n m = .ok .handled m') :
    p.action n m = .ok .done m' := by
  unfold tryPrimitive at h
  rw [if_neg hquick, Primitive.find?_of_mem hp] at h
  obtain ⟨done, m₁, hrun, h⟩ := bind_ok.1 h
  cases done with
  | none =>
    obtain ⟨_, _, -, h⟩ := bind_ok.1 h
    exact absurd (pure_ok.1 h).1 (by simp)
  | some completion =>
    cases completion with
    | resend selector count cls => exact absurd (pure_ok.1 h).1 (by simp)
    | done =>
      obtain ⟨-, rfl⟩ := pure_ok.1 h
      unfold Attempt.run? at hrun
      split at hrun <;> simp_all

theorem Memory.place_ne_small (memory : Memory) (o : Object) : (memory.place o).1 ≠ .small r := by
  unfold place
  cases memory.free <;> exact fun e => by cases e

namespace Attempt

/-- What an answer puts on the stack is on top of it. -/
theorem answer_top {v x : Value} {completion : Completion} (h : answer n v m = .ok completion m')
    (htop : Action.top m' = .ok x m') : x = v := by
  obtain ⟨_, m₁, hpush, h⟩ := bind_ok.1 h
  obtain ⟨-, rfl⟩ := pure_ok.1 h
  obtain ⟨-, hcell, rfl⟩ := Action.popThenPush_ok.1 (lift_ok.1 hpush)
  have hv := (Action.top_ok.1 htop).1
  have hcell : ∃ y, (Action.popped m (n + 1)).memory.cell (Action.popped m (n + 1)).registers.context
      ((Action.popped m (n + 1)).registers.sp + 1) = some y := hcell
  simp only [Action.pushed, Machine.withRegisters_registers, Machine.withRegisters_memory] at hv
  rw [Machine.cell_setCell hcell, Cells.set_same] at hv
  exact (Option.some.inj hv).symm

/-- The integer object of a number is that number, if it is immediate. -/
theorem newPositive32_small {k : Nat} (h : newPositive32 k m = .ok (.small r) m') :
    r = k ∧ Value.InRange r := by
  obtain ⟨_, m₁, -, h⟩ := bind_ok.1 h
  have h := lift_ok.1 h
  unfold Action.positive32 at h
  cases hk : Value.ofInt? k with
  | some v =>
    obtain ⟨hr, rfl⟩ := Value.ofInt?_eq_some.1 hk
    rw [hk] at h
    obtain rfl : (k : Int) = r := Value.small.inj (pure_ok.1 h).1
    exact ⟨rfl, hr⟩
  | none =>
    rw [hk] at h
    obtain ⟨cls, m₂, -, h⟩ := bind_ok.1 h
    obtain ⟨m₃, hash, -, hv, -⟩ := Action.allocate_ok h
    exact absurd hv.symm (Memory.place_ne_small _ _)

theorem stackInteger_small {depth : Nat} (h : Action.stackValue depth m = .ok (.small a) m) :
    stackInteger depth m = .ok a m := bind_of_ok (lift_ok.2 h)

theorem stackPositive32_small {depth k : Nat} (h : Action.stackValue depth m = .ok (.small a) m)
    (hk : stackPositive32 depth m = .ok k m') : 0 ≤ a ∧ k = a.toNat ∧ m = m' := by
  have hvalue : stackValue depth m = .ok (.small a) m := lift_ok.2 h
  unfold stackPositive32 at hk
  rw [bind_of_ok hvalue] at hk
  obtain ⟨_, m₁, hbounds, hk⟩ := bind_ok.1 hk
  obtain ⟨rfl, rfl⟩ := pure_ok.1 hk
  have hnonneg := (require_ok hbounds).1
  unfold require at hbounds
  rw [if_pos (require_ok hbounds)] at hbounds
  exact ⟨hnonneg, rfl, (pure_ok.1 hbounds).2⟩

end Attempt

namespace IntegerSelector

open Attempt Primitive

/-- The work of the primitive for the selector. -/
def action : IntegerSelector → PrimitiveAction
  | plus => add
  | minus => subtract
  | times => multiply
  | divide => Primitive.divide
  | modulo => Primitive.modulo
  | shift => bitShift
  | floorDivide => Primitive.floorDivide
  | bitAnd => Primitive.bitAnd
  | bitOr => Primitive.bitOr

theorem exists_primitive (s : IntegerSelector) :
    ∃ p ∈ Primitive.all, p.number = s.primitive ∧ p.action = s.action := by
  cases s
  case plus => exact ⟨⟨1, "SmallInteger +", add⟩, by simp [Primitive.all], rfl, rfl⟩
  case minus => exact ⟨⟨2, "SmallInteger -", subtract⟩, by simp [Primitive.all], rfl, rfl⟩
  case times => exact ⟨⟨9, "SmallInteger *", multiply⟩, by simp [Primitive.all], rfl, rfl⟩
  case divide => exact ⟨⟨10, "SmallInteger /", Primitive.divide⟩, by simp [Primitive.all], rfl, rfl⟩
  case modulo => exact ⟨⟨11, "SmallInteger \\\\", Primitive.modulo⟩, by simp [Primitive.all], rfl, rfl⟩
  case shift => exact ⟨⟨17, "bitShift:", bitShift⟩, by simp [Primitive.all], rfl, rfl⟩
  case floorDivide =>
    exact ⟨⟨12, "SmallInteger //", Primitive.floorDivide⟩, by simp [Primitive.all], rfl, rfl⟩
  case bitAnd => exact ⟨⟨14, "bitAnd:", Primitive.bitAnd⟩, by simp [Primitive.all], rfl, rfl⟩
  case bitOr => exact ⟨⟨15, "bitOr:", Primitive.bitOr⟩, by simp [Primitive.all], rfl, rfl⟩

section
variable {s : IntegerSelector} {completion : Completion}
  (receiver : Action.stackValue 1 m = .ok (.small a) m)
  (argument : Action.stackValue 0 m = .ok (.small b) m)
  (htop : Action.top m' = .ok (.small r) m')
include receiver argument htop

theorem integerOp_top {op : Int → Int → Option Int} (h : integerOp op n m = .ok completion m') :
    op a b = some r ∧ Value.InRange r := by
  unfold integerOp at h
  rw [bind_of_ok (stackInteger_small receiver), bind_of_ok (stackInteger_small argument)] at h
  obtain ⟨v, m₁, hv, h⟩ := bind_ok.1 h
  obtain ⟨k, hk, hv⟩ := Option.bind_eq_some_iff.1 (ofOption_ok hv)
  obtain ⟨hrange, rfl⟩ := Value.ofInt?_eq_some.1 hv
  obtain rfl := Value.small.inj (answer_top h htop)
  exact ⟨hk, hrange⟩

theorem bitOp_top {op : Nat → Nat → Nat} (h : bitOp op n m = .ok completion m') :
    ∃ j k : Nat, a = j ∧ b = k ∧ r = op j k ∧ Value.InRange r := by
  obtain ⟨j, m₁, hj, h⟩ := bind_ok.1 h
  obtain ⟨ha, rfl, rfl⟩ := stackPositive32_small receiver hj
  obtain ⟨k, m₂, hk, h⟩ := bind_ok.1 h
  obtain ⟨hb, rfl, rfl⟩ := stackPositive32_small argument hk
  obtain ⟨v, m₃, hv, h⟩ := bind_ok.1 h
  obtain rfl := answer_top h htop
  obtain ⟨rfl, hr⟩ := newPositive32_small hv
  exact ⟨_, _, (Int.toNat_of_nonneg ha).symm, (Int.toNat_of_nonneg hb).symm, rfl, hr⟩

theorem bitShift_top (h : Primitive.bitShift n m = .ok completion m') :
    ∃ j k : Nat, a = j ∧ Arithmetic.shift32? j b = some k ∧ r = k ∧ Value.InRange r := by
  obtain ⟨j, m₁, hj, h⟩ := bind_ok.1 h
  obtain ⟨ha, rfl, rfl⟩ := stackPositive32_small receiver hj
  rw [bind_of_ok (stackInteger_small argument)] at h
  obtain ⟨k, m₂, hk, h⟩ := bind_ok.1 h
  obtain ⟨v, m₃, hv, h⟩ := bind_ok.1 h
  obtain rfl := answer_top h htop
  obtain ⟨rfl, hr⟩ := newPositive32_small hv
  exact ⟨_, _, (Int.toNat_of_nonneg ha).symm, ofOption_ok hk, rfl, hr⟩

end

variable {s : IntegerSelector}

/-- Moving the bits of a natural number is moving those of the integer. -/
theorem shift?_of_shift32? {j k : Nat} (h : Arithmetic.shift32? j b = some k) :
    Arithmetic.shift? j b = some ↑k := by
  unfold Arithmetic.shift32? at h
  unfold Arithmetic.shift?
  by_cases hneg : b < 0
  · simp only [hneg, if_true, Option.some.injEq] at h ⊢
    rw [← h]
    rfl
  · simp only [hneg, if_false] at h ⊢
    split_ifs at h with hmany hzero hfits
    · obtain rfl := Option.some.inj h
      simp [hzero]
    · obtain rfl := Option.some.inj h
      rw [Nat.shiftLeft_eq] at hfits
      have hplaces : ¬ 63 ≤ b := by omega
      have hproduct : (j : Int) * (1 <<< b.toNat : Nat) = (j * 2 ^ b.toNat : Nat) := by
        rw [Nat.one_shiftLeft, Nat.cast_mul]
      simp only [hplaces, if_false]
      rw [hproduct, if_pos (by omega), Nat.shiftLeft_eq]

/-- An immediate integer that the primitive for the selector answers is the answer in the integers. -/
theorem means_of_top (ha : Value.InRange a) (hb : Value.InRange b) {completion : Completion}
    (receiver : Action.stackValue 1 m = .ok (.small a) m)
    (argument : Action.stackValue 0 m = .ok (.small b) m)
    (h : s.action n m = .ok completion m') (htop : Action.top m' = .ok (.small r) m') :
    s.Means a b r ∧ Value.InRange r := by
  have hinteger (op : Int → Int → Option Int) (hop : op a b = Action.arithmeticResult s.index a b)
      (h : integerOp op n m = .ok completion m') : s.Means a b r ∧ Value.InRange r := by
    obtain ⟨hresult, hr⟩ := integerOp_top receiver argument htop h
    exact ⟨(arithmeticResult_eq_some ha hb hr).1 (hop.symm.trans hresult), hr⟩
  cases s with
  | plus => exact hinteger _ rfl h
  | minus => exact hinteger _ rfl h
  | times => exact hinteger _ rfl h
  | divide => exact hinteger _ rfl h
  | modulo => exact hinteger _ rfl h
  | floorDivide => exact hinteger _ rfl h
  | shift =>
    obtain ⟨j, k, rfl, hshifted, rfl, hr⟩ := bitShift_top (n := n) receiver argument htop h
    exact ⟨(arithmeticResult_eq_some ha hb hr).1 (shift?_of_shift32? hshifted), hr⟩
  | bitAnd =>
    obtain ⟨j, k, rfl, rfl, rfl, hr⟩ := bitOp_top (n := n) receiver argument htop h
    exact ⟨Nat.testBit_and j k, hr⟩
  | bitOr =>
    obtain ⟨j, k, rfl, rfl, rfl, hr⟩ := bitOp_top (n := n) receiver argument htop h
    exact ⟨Nat.testBit_or j k, hr⟩

end IntegerSelector

/-! ### Steps -/

namespace Action

variable {s : IntegerSelector}

theorem fetchInstruction_arithmetic {i : Nat} (hi : i < 16)
    (h : m.nextByte? = some (176 + UInt8.ofNat i)) :
    fetchInstruction m = .ok (.arithmetic i) m.fetched := by
  have hdecode : ∀ i < 16, Instruction.operandCount (176 + UInt8.ofNat i) = 0 ∧
      Instruction.decode? (176 + UInt8.ofNat i) 0 0 = some (.arithmetic i) := by decide
  exact fetchInstruction_eq h (hdecode i hi).1 (hdecode i hi).2

/-- Two integers on the stack are replaced by the result of the selector if it is immediate, and
otherwise sent the selector. -/
theorem arithmetic_eq (receiver : stackValue 1 m = .ok (.small a) m)
    (argument : stackValue 0 m = .ok (.small b) m) :
    arithmetic s.index m = match (arithmeticResult s.index a b).bind Value.ofInt? with
      | some v => popThenPush 2 v m
      | none => sendSpecial s.index m := by
  have hcomparison : comparisonResult s.index a b = none := by cases s <;> rfl
  have hindex : s.index ≠ 11 := by cases s <;> decide
  unfold arithmetic
  rw [bind_of_ok receiver, bind_of_ok argument]
  simp only [hcomparison, hindex, if_false]
  cases (arithmeticResult s.index a b).bind Value.ofInt? <;> rfl

/-- The bytecode of an arithmetic selector answers an integer on the spot exactly when it is the
answer in the integers and immediate, without an overflow on the way; otherwise the selector is sent
with receiver and argument still on the stack. A primitive for the selector that answers an immediate
integer answers the same. -/
theorem step_exact (ha : Value.InRange a) (hb : Value.InRange b) (next : m.nextByte? = some s.bytecode)
    (deep : 2 ≤ m.registers.sp) (receiver : stackValue 1 m = .ok (.small a) m)
    (argument : stackValue 0 m = .ok (.small b) m) :
    (∀ r, s.Means a b r → Value.InRange r →
      step m = .ok () (pushed (popped m.fetched 2) (.small r))) ∧
    ((∀ r, s.Means a b r → ¬ Value.InRange r) → step m = sendSpecial s.index m.fetched) ∧
    s.inWords a b = some (arithmeticResult s.index a b) ∧
    ∀ {w w' : Machine} {n : Nat} {r : Int}, stackValue 1 w = .ok (.small a) w →
      stackValue 0 w = .ok (.small b) w → tryPrimitive s.primitive n w = .ok .handled w' →
      top w' = .ok (.small r) w' → s.Means a b r ∧ Value.InRange r := by
  have hfetch := fetchInstruction_arithmetic (by cases s <;> decide) next
  have hstep : step m = arithmetic s.index m.fetched := by
    rw [step_eq, bind_of_ok hfetch]
    rfl
  have harithmetic := arithmetic_eq (s := s) (stackValue_fetched receiver) (stackValue_fetched argument)
  refine ⟨fun r hmeans hr => ?_, fun hnone => ?_, IntegerSelector.inWords_eq ha hb, ?_⟩
  · have hresult := (IntegerSelector.arithmeticResult_eq_some ha hb hr).2 hmeans
    have hvalue : (arithmeticResult s.index a b).bind Value.ofInt? = some (.small r) := by
      rw [hresult]
      exact Value.ofInt?_eq_some.2 ⟨hr, rfl⟩
    obtain ⟨hdepth, hcell, -⟩ := stackValue_ok.1 (stackValue_fetched receiver)
    have deep : 2 ≤ m.fetched.registers.sp := deep
    have hplace : m.fetched.registers.sp - 2 + 1 = m.fetched.registers.sp - 1 := by omega
    have hpush : popThenPush 2 (.small r) m.fetched =
        .ok () (pushed (popped m.fetched 2) (.small r)) :=
      popThenPush_ok.2 ⟨deep, ⟨_, hplace ▸ hcell⟩, rfl⟩
    rw [hstep, harithmetic, hvalue]
    exact hpush
  · have hvalue : (arithmeticResult s.index a b).bind Value.ofInt? = none := by
      refine Option.eq_none_iff_forall_ne_some.2 fun v hv => ?_
      obtain ⟨r, hr, hv⟩ := Option.bind_eq_some_iff.1 hv
      obtain ⟨hrange, -⟩ := Value.ofInt?_eq_some.1 hv
      exact hnone r ((IntegerSelector.arithmeticResult_eq_some ha hb hrange).1 hr) hrange
    rw [hstep, harithmetic, hvalue]
  · intro w w' n r receiver argument htry htop
    obtain ⟨p, hp, hnumber, haction⟩ := s.exists_primitive
    have hquick : ¬(256 ≤ p.number ∧ p.number < 520) := by
      rw [hnumber]
      cases s <;> decide
    have h := action_of_tryPrimitive hp hquick (hnumber ▸ htry)
    exact IntegerSelector.means_of_top ha hb receiver argument (haction ▸ h) htop

/-- A method with these bytecodes, and a context of it with two integers on its stack. -/
def abacusObjects (bytes : Array UInt8) (a b : Int) : List Object :=
  let nil : Value := .ref 0 0
  let pointers fields := Object.ofPointers nil .indexable (List.toArray fields)
  [pointers [], pointers (List.replicate 32 nil),
    .ofMethod nil #[.small (MethodHeader.encode 0 0 0 false 0).word] bytes,
    pointers ([nil, .small 0, .small 0, .ref 2 0, nil, nil, .small a, .small b] ++ List.replicate 10 nil),
    pointers [], pointers []]

def abacus (bytes : Array UInt8) (a b : Int) : Machine :=
  let m := Machine.create (Machine.filled (.empty .standard) (abacusObjects bytes a b))
    { array := .ref 1 0, nil := .ref 0 0, falseObject := .ref 4 0, trueObject := .ref 5 0 } {} default
  { m with
    registers := { m.registers with
      context := .ref 3 0
      home := .ref 3 0
      method := .ref 2 0
      sp := 7 } }

theorem stackValues_abacus (bytes : Array UInt8) (a b : Int) :
    stackValue 1 (abacus bytes a b) = .ok (.small a) (abacus bytes a b) ∧
    stackValue 0 (abacus bytes a b) = .ok (.small b) (abacus bytes a b) := ⟨rfl, rfl⟩

/-- Minus seven divided by two is minus four, by bytecode and by primitive. -/
theorem step_exact_abacus :
    let m := abacus #[189] (-7) 2
    step m = .ok () (pushed (popped m.fetched 2) (.small (-4))) ∧
    IntegerSelector.floorDivide.inWords (-7) 2 = some (some (-4)) ∧
    ∃ m', tryPrimitive 12 1 m = .ok .handled m' ∧ top m' = .ok (.small (-4)) m' ∧
      IntegerSelector.floorDivide.Means (-7) 2 (-4) := by
  intro m
  obtain ⟨receiver, argument⟩ := stackValues_abacus #[189] (-7) 2
  obtain ⟨hanswered, -, hwords, hprimitive⟩ := step_exact (s := .floorDivide) (by decide) (by decide)
    (by decide +kernel) (by decide) receiver argument
  have htried : leads (tryPrimitive 12 1) m (fun trial m' =>
      leads top m' fun x _ => decide (x = .small (-4)) && decide (trial = .handled)) = true := by
    decide +kernel
  obtain ⟨trial, m', htry, hm'⟩ := exists_of_leads htried
  obtain ⟨x, m'', htop, hx⟩ := exists_of_leads hm'
  obtain ⟨-, rfl⟩ := top_ok.1 htop
  obtain ⟨rfl, rfl⟩ : x = .small (-4) ∧ trial = .handled := by simpa using hx
  obtain ⟨hmeans, hrange⟩ := hprimitive receiver argument htry htop
  exact ⟨hanswered _ hmeans hrange, hwords, m', htry, htop, hmeans⟩

end Action

end Smalltalk
