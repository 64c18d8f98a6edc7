import Mathlib
import Smalltalk.Value

/-!
# The tagged word

A value is stored as one word of 64 bits. An immediate integer leaves the lowest bit clear; a reference
has the two lowest bits `01`, then 32 bits of index, and 30 bits of generation up to the top. The parts
do not overlap, so each can be read back alone and different values are stored as different words. What
does not fit is the generation of a slot, a number of 32 bits: references to the same slot are the same
value when it has been vacated `2 ^ 30` times between them.
-/

namespace Smalltalk.Value

variable {v w : Value} {n : Int} {index index' generation generation' : UInt32}

/-! ### Reading a word -/

/-- Whether the lowest bit of a word is clear. -/
def tagsSmall (word : BitVec 64) : Bool := word &&& 1 == 0

/-- Whether the two lowest bits of a word are `01`. -/
def tagsReference (word : BitVec 64) : Bool := word &&& 0b11 == 0b01

/-- The integer in a word, which is shifted arithmetically past the tag bit. -/
def readSmall (word : BitVec 64) : Int := (word.sshiftRight 1).toInt

/-- The slot index in a word. -/
def readIndex (word : BitVec 64) : Nat := ((word >>> 2) &&& 0xFFFFFFFF).toNat

/-- The generation in a word. -/
def readGeneration (word : BitVec 64) : Nat := ((word >>> 34).setWidth 32).toNat

theorem tagsSmall_eq (word : BitVec 64) : tagsSmall word = decide (word.toNat % 2 = 0) := by
  have hmask : (word &&& 1).toNat = word.toNat % 2 := by
    rw [BitVec.toNat_and]
    exact Nat.and_two_pow_sub_one_eq_mod word.toNat 1
  rw [tagsSmall, ← hmask, Bool.beq_eq_decide_eq, decide_eq_decide, ← BitVec.toNat_inj]
  rfl

theorem tagsReference_eq (word : BitVec 64) :
    tagsReference word = decide (word.toNat % 4 = 1) := by
  have hmask : (word &&& 0b11).toNat = word.toNat % 4 := by
    rw [BitVec.toNat_and]
    exact Nat.and_two_pow_sub_one_eq_mod word.toNat 2
  rw [tagsReference, ← hmask, Bool.beq_eq_decide_eq, decide_eq_decide, ← BitVec.toNat_inj]
  rfl

theorem readIndex_eq (word : BitVec 64) : readIndex word = word.toNat / 2 ^ 2 % 2 ^ 32 := by
  rw [readIndex, BitVec.toNat_and, BitVec.toNat_ushiftRight, Nat.shiftRight_eq_div_pow]
  exact Nat.and_two_pow_sub_one_eq_mod _ 32

theorem readGeneration_eq (word : BitVec 64) : readGeneration word = word.toNat / 2 ^ 34 := by
  have hword := word.isLt
  rw [readGeneration, BitVec.toNat_setWidth, BitVec.toNat_ushiftRight, Nat.shiftRight_eq_div_pow]
  omega

/-! ### What is stored -/

/-- The parts of a reference do not overlap. -/
theorem toNat_raw_ref (index : UInt32) (generation : BitVec 30) :
    (ref index generation).raw.toNat = generation.toNat * 2 ^ 34 + (index.toNat * 2 ^ 2 + 1) := by
  have hindex := index.toNat_lt
  have hgeneration := generation.isLt
  have hlow : index.toNat <<< 2 ||| 1 = index.toNat * 2 ^ 2 + 1 := by
    rw [← Nat.shiftLeft_add_eq_or_of_lt (by decide), Nat.shiftLeft_eq]
  have hhigh : generation.toNat <<< 34 ||| (index.toNat * 2 ^ 2 + 1) =
      generation.toNat * 2 ^ 34 + (index.toNat * 2 ^ 2 + 1) := by
    rw [← Nat.shiftLeft_add_eq_or_of_lt (by omega), Nat.shiftLeft_eq]
  rw [← hhigh, ← hlow, raw, BitVec.or_assoc]
  simp only [BitVec.toNat_or, BitVec.toNat_shiftLeft, BitVec.toNat_setWidth, BitVec.toNat_ofNat,
    UInt32.toNat_toBitVec, Nat.shiftLeft_eq]
  rw [Nat.mod_eq_of_lt (a := generation.toNat) (by omega), Nat.mod_eq_of_lt (a := index.toNat) (by omega),
    Nat.mod_eq_of_lt (by omega), Nat.mod_eq_of_lt (by omega), Nat.mod_eq_of_lt (by omega)]

/-- The tag bit doubles an integer, and the double of an immediate one fits into a signed word. -/
theorem toInt_raw_small (h : InRange n) : (small n).raw.toInt = 2 * n := by
  obtain ⟨hlow, hhigh⟩ := h
  simp only [smallMin, smallMax] at hlow hhigh
  have hdouble : BitVec.ofInt 64 n <<< 1 = BitVec.ofInt 64 (2 * n) := by
    rw [BitVec.shiftLeft_eq_mul_twoPow, BitVec.ofInt_mul, BitVec.mul_comm]
    rfl
  rw [raw, hdouble, BitVec.toInt_ofInt]
  exact Int.bmod_eq_of_le (by omega) (by omega)

theorem toNat_raw_small_mod (n : Int) : (small n).raw.toNat % 2 = 0 := by
  rw [raw, BitVec.toNat_shiftLeft, Nat.shiftLeft_eq]
  omega

/-- The low bits of a word tell what kind of value it stores. -/
theorem tagsSmall_raw (v : Value) : tagsSmall v.raw = v.isSmall := by
  cases v with
  | small n => simp [tagsSmall_eq, toNat_raw_small_mod, isSmall]
  | ref index generation =>
    simp only [tagsSmall_eq, toNat_raw_ref, isSmall, decide_eq_false_iff_not]
    omega

theorem tagsReference_raw (v : Value) : tagsReference v.raw = v.isReference := by
  cases v with
  | small n =>
    have heven := toNat_raw_small_mod n
    simp only [tagsReference_eq, isReference, decide_eq_false_iff_not]
    omega
  | ref index generation =>
    simp only [tagsReference_eq, toNat_raw_ref, isReference, decide_eq_true_eq]
    omega

theorem readSmall_raw (h : InRange n) : readSmall (small n).raw = n := by
  rw [readSmall, BitVec.toInt_sshiftRight, toInt_raw_small h, Int.shiftRight_eq_div_pow]
  omega

theorem readIndex_raw (index : UInt32) (generation : BitVec 30) :
    readIndex (ref index generation).raw = index.toNat := by
  have hindex := index.toNat_lt
  rw [readIndex_eq, toNat_raw_ref]
  omega

theorem readGeneration_raw (index : UInt32) (generation : BitVec 30) :
    readGeneration (ref index generation).raw = generation.toNat := by
  have hindex := index.toNat_lt
  rw [readGeneration_eq, toNat_raw_ref]
  omega

/-! ### What is told apart -/

/-- What can be made out of integers, indices and generations. -/
inductive Made : Value → Prop where
  | ofInt {n : Int} {v : Value} (h : ofInt? n = some v) : Made v
  | reference (index generation : UInt32) : Made (reference index generation)

theorem ofInt?_eq_some : ofInt? n = some v ↔ InRange n ∧ v = small n := by
  simp only [ofInt?]
  split <;> simp_all [eq_comm]

theorem Made.inRange (h : Made (small n)) : InRange n := by
  generalize hv : small n = v at h
  cases h with
  | ofInt h =>
    obtain ⟨hrange, rfl⟩ := ofInt?_eq_some.1 h
    rwa [small.inj hv]
  | reference index generation => cases hv

/-- A word stores one value only. -/
theorem ofRaw_raw (h : Made v) : ofRaw v.raw = v := by
  cases v with
  | small n =>
    have hbit : (small n).raw.getLsbD 0 = false := by
      simp [BitVec.getLsbD, toNat_raw_small_mod]
    rw [ofRaw, hbit, if_neg Bool.false_ne_true]
    exact congrArg small (readSmall_raw h.inRange)
  | ref index generation =>
    have hbit : (ref index generation).raw.getLsbD 0 = true := by
      simp only [BitVec.getLsbD, Nat.testBit_zero, toNat_raw_ref, decide_eq_true_eq]
      omega
    have hindex : (ref index generation).raw.extractLsb' 2 32 = index.toBitVec := by
      have hlt := index.toNat_lt
      apply BitVec.eq_of_toNat_eq
      rw [BitVec.extractLsb'_toNat, toNat_raw_ref, Nat.shiftRight_eq_div_pow,
        UInt32.toNat_toBitVec]
      omega
    have hgeneration : (ref index generation).raw.extractLsb' 34 30 = generation := by
      have hlt := index.toNat_lt
      apply BitVec.eq_of_toNat_eq
      rw [BitVec.extractLsb'_toNat, toNat_raw_ref, Nat.shiftRight_eq_div_pow]
      omega
    rw [ofRaw, hbit, if_pos rfl, hindex, hgeneration]

theorem raw_inj (hv : Made v) (hw : Made w) : v.raw = w.raw ↔ v = w :=
  ⟨fun h => by rw [← ofRaw_raw hv, ← ofRaw_raw hw, h], congrArg raw⟩

/-- Only the low 30 bits of a generation are part of a reference. -/
theorem toNat_setWidth_generation (generation : UInt32) :
    (generation.toBitVec.setWidth 30).toNat = generation.toNat % 2 ^ 30 := by
  rw [BitVec.toNat_setWidth, UInt32.toNat_toBitVec]

theorem reference_inj : reference index generation = reference index' generation' ↔
    index = index' ∧ generation.toNat % 2 ^ 30 = generation'.toNat % 2 ^ 30 := by
  rw [reference, reference, ref.injEq, ← BitVec.toNat_inj, toNat_setWidth_generation,
    toNat_setWidth_generation]

/-- Integers in range are made and read back, and no others. -/
theorem isSome_ofInt? (n : Int) : (ofInt? n).isSome ↔ -2 ^ 30 ≤ n ∧ n < 2 ^ 30 := by
  have hrange : InRange n ↔ -2 ^ 30 ≤ n ∧ n < 2 ^ 30 := by
    simp only [InRange, smallMin, smallMax]
    omega
  rw [← hrange, ofInt?]
  split <;> simp_all

/-- The tagged word is a faithful encoding. Exactly the integers of 31 bits are immediate, and they
are read back; a reference is no integer, its index is read back and its generation up to a multiple of
`2 ^ 30`; every value is an integer or a reference and not both; different values are stored as
different words. -/
theorem tagging_faithful :
    (∀ n : Int, ((ofInt? n).isSome ↔ -2 ^ 30 ≤ n ∧ n < 2 ^ 30) ∧ ∀ v, ofInt? n = some v →
      v.asSmall? = some n ∧ tagsSmall v.raw = true ∧ readSmall v.raw = n) ∧
    (∀ index generation : UInt32, (reference index generation).isSmall = false ∧
      (reference index generation).asSmall? = none ∧
      tagsSmall (reference index generation).raw = false ∧
      readIndex (reference index generation).raw = index.toNat ∧
      readGeneration (reference index generation).raw = generation.toNat % 2 ^ 30) ∧
    (∀ index generation index' generation' : UInt32,
      (reference index generation = reference index' generation' ↔
        index = index' ∧ generation.toNat % 2 ^ 30 = generation'.toNat % 2 ^ 30)) ∧
    (∀ (n : Int) (v : Value) (index generation : UInt32), ofInt? n = some v →
      v ≠ reference index generation ∧ v.raw ≠ (reference index generation).raw) ∧
    (∀ v, Made v → v.isReference = !v.isSmall ∧ tagsReference v.raw = !tagsSmall v.raw ∧
      tagsSmall v.raw = v.isSmall) ∧
    ∀ v w, Made v → Made w → (v.raw = w.raw ↔ v = w) := by
  refine ⟨fun n => ⟨isSome_ofInt? n, fun v h => ?_⟩, fun index generation => ?_,
    fun _ _ _ _ => reference_inj, fun n v index generation h => ?_, fun v _ => ?_,
    fun v w => raw_inj⟩
  · obtain ⟨hrange, rfl⟩ := ofInt?_eq_some.1 h
    exact ⟨rfl, tagsSmall_raw (small n), readSmall_raw hrange⟩
  · have hgeneration := readGeneration_raw index (generation.toBitVec.setWidth 30)
    rw [toNat_setWidth_generation] at hgeneration
    exact ⟨rfl, rfl, tagsSmall_raw _, readIndex_raw index _, hgeneration⟩
  · have hne : v ≠ reference index generation := by
      obtain ⟨-, rfl⟩ := ofInt?_eq_some.1 h
      exact fun heq => by cases heq
    exact ⟨hne, fun hraw => hne ((raw_inj (.ofInt h) (.reference index generation)).1 hraw)⟩
  · rw [tagsReference_raw, tagsSmall_raw]
    cases v <;> exact ⟨rfl, rfl, rfl⟩

/-- The greatest immediate integer is read back; a slot is taken for itself after `2 ^ 30` uses. -/
theorem tagging_faithful_edges : readSmall (small smallMax).raw = 2 ^ 30 - 1 ∧
    reference 7 0 = reference 7 (2 ^ 30) ∧ (small smallMax).raw ≠ (reference 7 0).raw := by
  obtain ⟨hints, -, hrefs, happart, -⟩ := tagging_faithful
  have hmax : ofInt? (2 ^ 30 - 1) = some (small smallMax) := by decide
  exact ⟨((hints _).2 _ hmax).2.2, (hrefs 7 0 7 (2 ^ 30)).2 ⟨rfl, by decide⟩,
    (happart _ _ 7 0 hmax).2⟩

end Smalltalk.Value
