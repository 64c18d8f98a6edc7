import Smalltalk.Proofs.Allocation
import Smalltalk.Proofs.Exactness

/-!
# Bit operations on natural numbers

A natural number below `2^32` is an immediate integer or a large positive integer of at most four
bytes, and the same number may be both, with zero bytes at its end or without. The bit operations take
any of these: they read the numbers, compute in the naturals, and answer the immediate integer if there
is one. Otherwise the answer is a new object of four bytes, which has to be allocated. Nothing is
changed when an operand is of another kind, or when a number is moved beyond `2^32`.
-/

namespace Smalltalk

open Outcome

variable {settings : TableSettings} {m m' : Machine} {x y v : Value} {j k n r : Nat}
  {count : Int}

/-! ### Numbers as bytes -/

/-- The number of some bytes, the least significant one first. -/
def byteValue (bytes : Array UInt8) : Nat := Nat.ofDigits 256 (bytes.toList.map UInt8.toNat)

theorem byteValue_lt (bytes : Array UInt8) : byteValue bytes < 256 ^ bytes.size := by
  have hlt := Nat.ofDigits_lt_base_pow_length (b := 256) (l := bytes.toList.map UInt8.toNat)
    (by decide) (fun d hd => by
      obtain ⟨b, -, rfl⟩ := List.mem_map.1 hd
      exact b.toNat_lt)
  rwa [List.length_map, Array.length_toList] at hlt

theorem Attempt.ofLittleEndian_eq (bytes : Array UInt8) :
    ofLittleEndian bytes.toList = byteValue bytes := by
  rw [byteValue]
  induction bytes.toList with
  | nil => rfl
  | cons b rest ih =>
    rw [List.map_cons, Nat.ofDigits_cons, ← ih]
    rfl

/-- The four bytes of a word are the digits of its number. -/
theorem Action.byteValue_littleEndian (hr : r < 2 ^ 32) : byteValue (littleEndian r) = r := by
  simp only [byteValue, littleEndian, List.map_cons, List.map_nil, UInt8.toNat_ofNat',
    Nat.ofDigits_cons, Nat.ofDigits_nil, Nat.shiftRight_eq_div_pow]
  omega

example : Action.littleEndian 0x12345678 = #[0x78, 0x56, 0x34, 0x12] := by decide

/-! ### Numbers as values -/

/-- The value stands for the natural number: it is an immediate integer, or a large positive integer
of at most four bytes. -/
inductive Machine.Denotes (m : Machine) : Value → Nat → Prop
  | immediate {k : Nat} (hk : k < 2 ^ 32) : m.Denotes (.small k) k
  | large {v : Value} {o : Object} {bytes : Array UInt8} (ho : m.memory.get? v = some o)
      (hcls : o.cls = m.specials.get m.memory Special.classLargePositiveInteger)
      (hbytes : o.bytes? = some bytes) (hsize : bytes.size ≤ 4) : m.Denotes v (byteValue bytes)

namespace Machine.Denotes

theorem lt (h : m.Denotes x j) : j < 2 ^ 32 := by
  cases h with
  | immediate hk => exact hk
  | @large _ o bytes ho hcls hbytes hsize =>
    calc byteValue bytes < 256 ^ bytes.size := byteValue_lt bytes
      _ ≤ 256 ^ 4 := Nat.pow_le_pow_right (by decide) hsize
      _ = 2 ^ 32 := by decide

/-- A value that is not an immediate integer stands for a number if all checks hold. -/
theorem ref_iff {index : UInt32} {generation : BitVec 30} : m.Denotes (.ref index generation) k ↔
    ∃ o bytes, m.memory.get? (.ref index generation) = some o ∧
      o.cls = m.specials.get m.memory Special.classLargePositiveInteger ∧
      o.bytes? = some bytes ∧ bytes.size ≤ 4 ∧ byteValue bytes = k := by
  constructor
  · intro h
    cases h with
    | large ho hcls hbytes hsize => exact ⟨_, _, ho, hcls, hbytes, hsize, rfl⟩
  · rintro ⟨o, bytes, ho, hcls, hbytes, hsize, rfl⟩
    exact .large ho hcls hbytes hsize

theorem small_iff {a : Int} : m.Denotes (.small a) k ↔ a = k ∧ k < 2 ^ 32 := by
  constructor
  · intro h
    cases h with
    | immediate hk => exact ⟨rfl, hk⟩
    | large ho => exact absurd ho (by simp)
  · rintro ⟨rfl, hk⟩
    exact .immediate hk

/-- A value stands for at most one number. -/
theorem unique (h : m.Denotes v j) (h' : m.Denotes v k) : j = k := by
  cases v with
  | small a =>
    have h := small_iff.1 h
    have h' := small_iff.1 h'
    omega
  | ref index generation =>
    obtain ⟨o, bytes, ho, -, hbytes, -, rfl⟩ := ref_iff.1 h
    obtain ⟨o', bytes', ho', -, hbytes', -, rfl⟩ := ref_iff.1 h'
    obtain rfl := Option.some.inj (ho.symm.trans ho')
    rw [Option.some.inj (hbytes.symm.trans hbytes')]

end Machine.Denotes

namespace Attempt

theorem lift_fault {α : Type} {action : Action α} {fault : Fault} (h : action m = .error fault m') :
    (liftM action : Attempt α) m = .error (.fault fault) m' := by
  change ofAction action m = _
  rw [ofAction, h]

/-- The class of an object is looked at before its bytes are. -/
theorem positive32Value_ref {index : UInt32} {generation : BitVec 30} :
    positive32Value (.ref index generation) m = (do
      require (((m.memory.get? (.ref index generation)).any fun o =>
        o.cls == m.specials.get m.memory Special.classLargePositiveInteger) = true)
      let bytes ← ofOption (← Action.object (.ref index generation)).bytes?
      require (bytes.size ≤ 4)
      return ofLittleEndian bytes.toList : Attempt Nat) m :=
  bind_of_ok (lift_ok.2 Action.isInstanceOf_eq)

theorem positive32Value_ref_of_get? {index : UInt32} {generation : BitVec 30} {o : Object}
    (ho : m.memory.get? (.ref index generation) = some o)
    (hcls : o.cls = m.specials.get m.memory Special.classLargePositiveInteger) :
    positive32Value (.ref index generation) m = (do
      let bytes ← ofOption o.bytes?
      require (bytes.size ≤ 4)
      return ofLittleEndian bytes.toList : Attempt Nat) m := by
  have hclass : ((m.memory.get? (.ref index generation)).any fun o =>
      o.cls == m.specials.get m.memory Special.classLargePositiveInteger) = true := by
    rw [ho]
    exact beq_iff_eq.2 hcls
  rw [positive32Value_ref, bind_of_ok (require_of hclass)]
  exact bind_of_ok (lift_ok.2 (Action.object_ok.2 ⟨ho, rfl⟩))

/-- Reading a number reads the one that the value stands for, and declines if it stands for none. -/
theorem positive32Value_outcome : (∃ k, m.Denotes v k ∧ positive32Value v m = .ok k m) ∨
    (∀ k, ¬ m.Denotes v k) ∧ positive32Value v m = .error .declined m := by
  cases v with
  | small a =>
    by_cases ha : 0 ≤ a ∧ a < 0x100000000
    · refine .inl ⟨a.toNat, Machine.Denotes.small_iff.2 (by omega), ?_⟩
      exact bind_of_ok (require_of ha)
    · refine .inr ⟨fun k hk => ?_, bind_of_error (require_of_not ha)⟩
      have hk := Machine.Denotes.small_iff.1 hk
      omega
  | ref index generation =>
    simp only [Machine.Denotes.ref_iff]
    by_cases hclass : ((m.memory.get? (.ref index generation)).any fun o =>
        o.cls == m.specials.get m.memory Special.classLargePositiveInteger) = true
    swap
    · refine .inr ⟨?_, positive32Value_ref.trans (bind_of_error (require_of_not hclass))⟩
      rintro k ⟨o, bytes, ho, hcls, -⟩
      exact hclass (by rw [ho]; exact beq_iff_eq.2 hcls)
    obtain ⟨o, ho, hcls⟩ := (Option.any_eq_true _ _).1 hclass
    have hcls := beq_iff_eq.1 hcls
    have hread := positive32Value_ref_of_get? ho hcls
    -- the object is the one that was found, so it has no other bytes
    have only : ∀ k, (∃ o' bytes, m.memory.get? (.ref index generation) = some o' ∧
        o'.cls = m.specials.get m.memory Special.classLargePositiveInteger ∧
        o'.bytes? = some bytes ∧ bytes.size ≤ 4 ∧ byteValue bytes = k) →
        ∃ bytes, o.bytes? = some bytes ∧ bytes.size ≤ 4 := by
      rintro k ⟨o', bytes, ho', -, hbytes, hsize, -⟩
      obtain rfl := Option.some.inj (ho.symm.trans ho')
      exact ⟨bytes, hbytes, hsize⟩
    cases hbytes : o.bytes? with
    | none =>
      rw [hbytes] at hread only
      exact .inr ⟨fun k hk => by simpa using only k hk, hread⟩
    | some bytes =>
      rw [hbytes] at hread only
      have hsome : (ofOption (some bytes) : Attempt (Array UInt8)) m = .ok bytes m := rfl
      rw [bind_of_ok hsome] at hread
      by_cases hsize : bytes.size ≤ 4
      · refine .inl ⟨_, ⟨o, bytes, ho, hcls, hbytes, hsize, rfl⟩, hread.trans ?_⟩
        rw [← ofLittleEndian_eq]
        exact bind_of_ok (require_of hsize)
      · refine .inr ⟨fun k hk => ?_, hread.trans (bind_of_error (require_of_not hsize))⟩
        obtain ⟨other, hother, hle⟩ := only k hk
        obtain rfl := Option.some.inj hother
        exact hsize hle

theorem positive32Value_of (h : m.Denotes v k) : positive32Value v m = .ok k m := by
  rcases positive32Value_outcome (m := m) (v := v) with ⟨k', hk', hread⟩ | ⟨hnone, -⟩
  · rw [hread, h.unique hk']
  · exact absurd h (hnone k)

theorem positive32Value_of_not (h : ∀ k, ¬ m.Denotes v k) :
    positive32Value v m = .error .declined m := by
  rcases positive32Value_outcome (m := m) (v := v) with ⟨k, hk, -⟩ | ⟨-, hread⟩
  · exact absurd hk (h k)
  · exact hread

end Attempt

/-! ### Moving bits -/

namespace Arithmetic

/-- Moving a number by a count is multiplying it by a power of two and rounding down, and it is
refused when the product has more than 32 bits. -/
theorem shift32?_eq (hj : j < 2 ^ 32) (hr : (r : ℤ) = ⌊(j : ℚ) * 2 ^ count⌋) :
    shift32? j count = if r < 2 ^ 32 then some r else none := by
  unfold shift32?
  rcases lt_or_ge count 0 with hneg | hpos
  · -- to the right
    obtain ⟨n, rfl⟩ : ∃ n : Nat, count = -n := ⟨(-count).toNat, by omega⟩
    have hdiv : r = j / 2 ^ n := by
      rw [zpow_neg, zpow_natCast, ← div_eq_mul_inv] at hr
      have hfloor := Rat.floor_natCast_div_natCast j (2 ^ n)
      push_cast at hfloor
      rw [hfloor] at hr
      exact_mod_cast hr
    have hlt : r < 2 ^ 32 := (hdiv ▸ Nat.div_le_self _ _).trans_lt hj
    rw [if_pos hneg, if_pos hlt, Nat.shiftRight_eq_div_pow, hdiv, neg_neg]
    rcases Nat.le_total n 63 with hn | hn
    · have hplaces : (min (n : ℤ) 63).toNat = n := by omega
      rw [hplaces]
    · have hplaces : (min (n : ℤ) 63).toNat = 63 := by omega
      have hpow : 2 ^ 63 ≤ 2 ^ n := Nat.pow_le_pow_right (by decide) hn
      rw [hplaces, Nat.div_eq_of_lt (by omega), Nat.div_eq_of_lt (by omega)]
  · -- to the left
    obtain ⟨n, rfl⟩ := Int.eq_ofNat_of_zero_le hpos
    have hproduct : r = j * 2 ^ n := by
      have hcast : (j : ℚ) * 2 ^ (n : ℤ) = (j * 2 ^ n : Nat) := by
        push_cast
        rfl
      rw [hcast, Int.floor_natCast] at hr
      exact_mod_cast hr
    rw [if_neg (by omega)]
    by_cases hmany : (32 : ℤ) ≤ n
    · have hpow : 2 ^ 32 ≤ 2 ^ n := Nat.pow_le_pow_right (by decide) (by omega)
      rw [if_pos hmany]
      rcases Nat.eq_zero_or_pos j with rfl | hj
      · rw [hproduct, if_pos rfl, zero_mul, if_pos (by decide)]
      · have hle : 2 ^ 32 ≤ j * 2 ^ n := hpow.trans (Nat.le_mul_of_pos_left _ hj)
        rw [if_neg hj.ne', if_neg (by omega)]
    · rw [if_neg hmany, hproduct, Int.toNat_natCast]
      simp only [Nat.shiftLeft_eq]
      rfl

end Arithmetic

/-! ### Answers -/

theorem Memory.overrun_modify (memory : Memory) (w : Value) (f : Object → Object) :
    (memory.modify w f).Overrun v ↔ memory.Overrun v := by
  cases v with
  | small a => exact Iff.rfl
  | ref index generation =>
    cases w with
    | small a => exact Iff.rfl
    | ref i g =>
      unfold modify
      split_ifs
      · simp only [Overrun, modifyAt, Array.getElem?_modify]
        split_ifs with hi
        · cases memory.slots[index.toNat]? <;> simp
        · rfl
      · rfl

/-- Two operands on the stack of the active context, which is not the special objects array. -/
structure Machine.Operands (m : Machine) (x y : Value) : Prop where
  deep : 2 ≤ m.registers.sp
  receiver : Action.stackValue 1 m = .ok x m
  argument : Action.stackValue 0 m = .ok y m
  array : m.memory.isLive m.specials.array = true
  other : m.specials.array ≠ m.registers.context

/-- The operands have been replaced by a new large positive integer for `r`, whose bytes read back the
same number. The slot of the new object may be overrun. -/
structure Machine.Boxed (m : Machine) (r : Nat) (v : Value) (m' : Machine) : Prop where
  fresh : m.memory.isLive v = false
  registers : m'.registers = { m.registers with sp := m.registers.sp - 1 }
  top : Action.top m' = .ok v m'
  below : ∀ i, i ≠ m.registers.sp - 1 →
    m'.memory.cell m.registers.context i = m.memory.cell m.registers.context i
  kept : ∀ w, w ≠ m.registers.context → m.memory.Reachable m.lasting w →
    m'.memory.get? w = m.memory.get? w
  bytes : ¬ m'.memory.Overrun v → ∃ o bytes, m'.memory.get? v = some o ∧
    o.cls = m'.specials.get m'.memory Special.classLargePositiveInteger ∧ o.bytes? = some bytes ∧
    bytes.size = 4 ∧ byteValue bytes = r
  readsBack : ¬ m'.memory.Overrun v → Attempt.positive32Value v m' = .ok r m'

/-- The object for a natural number that is no immediate integer. -/
def Machine.largeInteger (m : Machine) (n : Nat) : Object :=
  .ofBytes (m.specials.get m.memory Special.classLargePositiveInteger) (Action.littleEndian n)

/-- The machine after a primitive has been refused. -/
def Machine.refused (m : Machine) : Machine :=
  { m with counters := { m.counters with primitiveFailures := m.counters.primitiveFailures + 1 } }

namespace Action

theorem positive32_immediate (hr : r < 2 ^ 30) : positive32 r m = .ok (.small r) m := by
  have hvalue : Value.ofInt? r = some (.small r) :=
    Value.ofInt?_eq_some.2 ⟨by simp only [Value.InRange, Value.smallMin, Value.smallMax]; omega, rfl⟩
  unfold positive32
  rw [hvalue]
  rfl

theorem positive32_large (hr : 2 ^ 30 ≤ r) : positive32 r m = allocate (m.largeInteger r) m := by
  have hvalue : Value.ofInt? r = none := by
    refine Option.eq_none_iff_forall_ne_some.2 fun v hv => ?_
    have hrange := (Value.ofInt?_eq_some.1 hv).1
    simp only [Value.InRange, Value.smallMin, Value.smallMax] at hrange
    omega
  unfold positive32
  rw [hvalue]
  exact bind_of_ok (special_ok.2 ⟨rfl, rfl⟩)

/-- An answer stands where the receiver stood. -/
theorem pushed_popped (deep : 2 ≤ m.registers.sp) : pushed (popped m 2) v =
    (m.setCell m.registers.context (m.registers.sp - 1) v).withRegisters
      { m.registers with sp := m.registers.sp - 1 } := by
  have hplace : m.registers.sp - 2 + 1 = m.registers.sp - 1 := by omega
  simp only [pushed, popped, Machine.setCell, Machine.withRegisters, hplace]

section
variable (operands : m.Operands x y)
include operands

theorem popThenPush_operands (v : Value) : popThenPush 2 v m = .ok () (pushed (popped m 2) v) := by
  obtain ⟨-, hcell, -⟩ := stackValue_ok.1 operands.receiver
  have hdeep := operands.deep
  have hplace : m.registers.sp - 2 + 1 = m.registers.sp - 1 := by omega
  exact popThenPush_ok.2 ⟨hdeep, ⟨x, hplace ▸ hcell⟩, rfl⟩

/-- The operands are still there after an allocation. -/
theorem operands_of_allocate {o : Object} (hrun : allocate o m = .ok v m') (p : Provided m o v m') :
    m'.Operands x y ∧ m'.registers = m.registers ∧ m'.specials = m.specials ∧
      m'.memory.get? m.registers.context = m.memory.get? m.registers.context ∧
      m'.memory.get? m.specials.array = m.memory.get? m.specials.array := by
  obtain ⟨m₁, hash, t, -, hm'⟩ := allocate_ok hrun
  have hregisters : m'.registers = m.registers := by rw [hm', ← t.registers]; rfl
  have hspecials : m'.specials = m.specials := by rw [hm', ← t.specials]; rfl
  obtain ⟨hreceiver, hx, -⟩ := stackValue_ok.1 operands.receiver
  obtain ⟨hargument, hy, -⟩ := stackValue_ok.1 operands.argument
  -- both the active context and the special objects array are among the roots
  have hcontext := p.kept _ (.root (by simp [Machine.lasting, Machine.roots]) (Memory.isLive_of_cell hx))
  have harray := p.kept _ (.root (by simp [Machine.lasting, Machine.roots]) operands.array)
  refine ⟨⟨hregisters ▸ operands.deep, ?_, ?_, ?_, ?_⟩, hregisters, hspecials, hcontext, harray⟩
  · refine stackValue_ok.2 ⟨hregisters ▸ hreceiver, ?_, rfl⟩
    rw [hregisters, Memory.cell, hcontext]
    exact hx
  · refine stackValue_ok.2 ⟨hregisters ▸ hargument, ?_, rfl⟩
    rw [hregisters, Memory.cell, hcontext]
    exact hy
  · rw [hspecials, Memory.isLive, harray]
    exact operands.array
  · rw [hspecials, hregisters]
    exact operands.other

/-- A new object for the answer is pushed in the place of the operands. -/
theorem boxed_of_allocate (hr : r < 2 ^ 32) (hrun : allocate (m.largeInteger r) m = .ok v m')
    (p : Provided m (m.largeInteger r) v m') :
    popThenPush 2 v m' = .ok () (pushed (popped m' 2) v) ∧ m.Boxed r v (pushed (popped m' 2) v) := by
  obtain ⟨operands', hregisters, hspecials, hcontext, harray⟩ := operands_of_allocate operands hrun p
  obtain ⟨-, hcell, -⟩ := stackValue_ok.1 operands'.receiver
  refine ⟨popThenPush_operands operands' v, ?_⟩
  rw [pushed_popped operands'.deep]
  generalize hm₁ : m'.setCell m'.registers.context (m'.registers.sp - 1) v = m₁
  have hcells : m₁.memory.cell =
      Cells.set m'.memory.cell m.registers.context (m.registers.sp - 1) v := by
    rw [← hm₁, Machine.cell_setCell ⟨_, hcell⟩, hregisters]
  have hget (w : Value) (hw : w ≠ m.registers.context) : m₁.memory.get? w = m'.memory.get? w := by
    rw [← hm₁, Machine.setCell, Memory.get?_setField, hregisters, if_neg hw]
  have hother : v ≠ m.registers.context := by
    rintro rfl
    have hlive := p.fresh
    rw [Memory.isLive_of_cell (stackValue_ok.1 operands.receiver).2.1] at hlive
    cases hlive
  have hspecial : m₁.specials.get m₁.memory Special.classLargePositiveInteger =
      m.specials.get m.memory Special.classLargePositiveInteger := by
    have hsame : m₁.specials = m.specials := by rw [← hm₁, ← hspecials]; rfl
    rw [SpecialObjects.get, SpecialObjects.get, hsame, hget _ operands.other, harray]
  have hover : m₁.memory.Overrun v ↔ m'.memory.Overrun v := by
    rw [← hm₁]
    exact Memory.overrun_modify ..
  have hbox (hlost : ¬ m₁.memory.Overrun v) : ∃ o, m₁.memory.get? v = some o ∧
      o.cls = m₁.specials.get m₁.memory Special.classLargePositiveInteger ∧
      o.bytes? = some (littleEndian r) := by
    refine ⟨_, (hget v hother).trans (p.found (mt hover.2 hlost)), ?_, rfl⟩
    rw [hspecial]
    rfl
  refine ⟨p.fresh, by rw [hregisters]; rfl, ?_, fun i hi => ?_, fun w hw hreach => ?_, fun hlost => ?_,
    fun hlost => ?_⟩
  · refine top_ok.2 ⟨?_, rfl⟩
    rw [hregisters, Machine.withRegisters_registers, Machine.withRegisters_memory, hcells]
    exact Cells.set_same ..
  · rw [Machine.withRegisters_memory, hcells, Cells.set_of_index_ne hi, Memory.cell, hcontext]
    rfl
  · exact (hget w hw).trans (p.kept w hreach)
  · obtain ⟨o, ho, hcls, hbytes⟩ := hbox hlost
    exact ⟨o, _, ho, hcls, hbytes, rfl, byteValue_littleEndian hr⟩
  · obtain ⟨o, ho, hcls, hbytes⟩ := hbox hlost
    have hdenotes : Machine.Denotes (m₁.withRegisters { m'.registers with
        sp := m'.registers.sp - 1 }) v (byteValue (littleEndian r)) :=
      .large ho hcls hbytes (Nat.le_refl 4)
    rw [byteValue_littleEndian hr] at hdenotes
    exact Attempt.positive32Value_of hdenotes

end

/-- How a numbered primitive is tried. -/
theorem tryPrimitive_of_mem {p : Primitive} (hp : p ∈ Primitive.all)
    (hquick : ¬(256 ≤ p.number ∧ p.number < 520)) :
    (∀ m', p.action n m = .ok .done m' → tryPrimitive p.number n m = .ok .handled m') ∧
    (∀ m', p.action n m = .error .declined m' → tryPrimitive p.number n m =
      .ok .unhandled m'.refused) ∧
    ∀ e m', p.action n m = .error (.fault e) m' →
      tryPrimitive p.number n m = .error e m' := by
  unfold tryPrimitive
  rw [if_neg hquick, Primitive.find?_of_mem hp]
  refine ⟨fun m' h => ?_, fun m' h => ?_, fun e m' h => ?_⟩
  · have hended : (p.action n).run? m = .ok (some .done) m' := by rw [Attempt.run?, h]
    exact bind_of_ok hended
  · have hended : (p.action n).run? m = .ok none m' := by rw [Attempt.run?, h]
    exact bind_of_ok hended
  · have hended : (p.action n).run? m = .error e m' := by rw [Attempt.run?, h]
    exact bind_of_error hended

end Action

/-! ### Selectors -/

/-- The selectors of the bit operations: `bitAnd: bitOr: bitXor: bitShift:`. -/
inductive BitSelector where
  | and
  | or
  | xor
  | shift
  deriving DecidableEq, Repr

namespace BitSelector

/-- The number of the primitive for the selector. -/
def primitive : BitSelector → Nat
  | and => 14
  | or => 15
  | xor => 16
  | shift => 17

/-- The work of the primitive for the selector. -/
def action : BitSelector → PrimitiveAction
  | and => Primitive.bitAnd
  | or => Primitive.bitOr
  | xor => Primitive.bitXor
  | shift => Primitive.bitShift

/-- The kinds of operands that suit the selector. -/
def Takes (s : BitSelector) (m : Machine) (x y : Value) : Prop :=
  (∃ j, m.Denotes x j) ∧ if s = shift then ∃ count, y = .small count else ∃ k, m.Denotes y k

/-- That `r` is the answer of the selector in the natural numbers. -/
def Means (s : BitSelector) (m : Machine) (x y : Value) (r : Nat) : Prop :=
  match s with
  | and => ∃ j k, m.Denotes x j ∧ m.Denotes y k ∧ ∀ i, r.testBit i = (j.testBit i && k.testBit i)
  | or => ∃ j k, m.Denotes x j ∧ m.Denotes y k ∧ ∀ i, r.testBit i = (j.testBit i || k.testBit i)
  | xor => ∃ j k, m.Denotes x j ∧ m.Denotes y k ∧ ∀ i, r.testBit i = (j.testBit i ^^ k.testBit i)
  | shift => ∃ j count, m.Denotes x j ∧ y = .small count ∧ (r : ℤ) = ⌊(j : ℚ) * 2 ^ count⌋

variable {s : BitSelector}

theorem exists_primitive (s : BitSelector) :
    ∃ p ∈ Primitive.all, p.number = s.primitive ∧ p.action = s.action := by
  cases s
  case and => exact ⟨⟨14, "bitAnd:", Primitive.bitAnd⟩, by simp [Primitive.all], rfl, rfl⟩
  case or => exact ⟨⟨15, "bitOr:", Primitive.bitOr⟩, by simp [Primitive.all], rfl, rfl⟩
  case xor => exact ⟨⟨16, "bitXor:", Primitive.bitXor⟩, by simp [Primitive.all], rfl, rfl⟩
  case shift => exact ⟨⟨17, "bitShift:", Primitive.bitShift⟩, by simp [Primitive.all], rfl, rfl⟩

/-- Suitable operands have an answer. -/
theorem exists_means (h : s.Takes m x y) : ∃ r, s.Means m x y r := by
  obtain ⟨⟨j, hj⟩, harg⟩ := h
  cases s with
  | and =>
    obtain ⟨k, hk⟩ := harg
    exact ⟨j &&& k, j, k, hj, hk, Nat.testBit_and j k⟩
  | or =>
    obtain ⟨k, hk⟩ := harg
    exact ⟨j ||| k, j, k, hj, hk, Nat.testBit_or j k⟩
  | xor =>
    obtain ⟨k, hk⟩ := harg
    exact ⟨j ^^^ k, j, k, hj, hk, Nat.testBit_xor j k⟩
  | shift =>
    obtain ⟨count, rfl⟩ := harg
    have hpos : (0 : ℤ) ≤ ⌊(j : ℚ) * 2 ^ count⌋ := Int.floor_nonneg.2 (by positivity)
    exact ⟨_, j, count, hj, rfl, Int.toNat_of_nonneg hpos⟩

end BitSelector

namespace Primitive

open Attempt

/-- An answer that has more than 32 bits is refused. -/
def answerPositive32 (r : Nat) : Attempt Completion := do answer 1 (← newPositive32 r)

variable (operands : m.Operands x y)
include operands

theorem stackPositive32_receiver : stackPositive32 1 m = positive32Value x m :=
  bind_of_ok (lift_ok.2 operands.receiver)

theorem stackPositive32_argument : stackPositive32 0 m = positive32Value y m :=
  bind_of_ok (lift_ok.2 operands.argument)

theorem bitOp_eq {op : Nat → Nat → Nat} (hj : m.Denotes x j) (hk : m.Denotes y k) :
    bitOp op n m = answerPositive32 (op j k) m :=
  (bind_of_ok ((stackPositive32_receiver operands).trans (positive32Value_of hj))).trans
    (bind_of_ok ((stackPositive32_argument operands).trans (positive32Value_of hk)))

theorem bitShift_eq (hj : m.Denotes x j) (hy : y = .small count)
    (hr : (r : ℤ) = ⌊(j : ℚ) * 2 ^ count⌋) : bitShift n m = answerPositive32 r m := by
  have hcount : stackInteger 0 m = .ok count m := stackInteger_small (hy ▸ operands.argument)
  have hshift := Arithmetic.shift32?_eq hj.lt hr
  refine (bind_of_ok ((stackPositive32_receiver operands).trans (positive32Value_of hj))).trans
    ((bind_of_ok hcount).trans ?_)
  rw [hshift]
  by_cases hlt : r < 2 ^ 32
  · rw [if_pos hlt]
    rfl
  · rw [if_neg hlt]
    exact (bind_of_error (bind_of_error (require_of_not hlt))).symm

end Primitive

namespace BitSelector

open Attempt Primitive

variable {s : BitSelector}

/-- Only moved bits can reach beyond the 32nd. -/
theorem lt_of_means (h : s.Means m x y r) (hs : s ≠ shift) : r < 2 ^ 32 := by
  cases s with
  | and =>
    obtain ⟨j, k, -, hk, hbits⟩ := h
    rw [Nat.eq_of_testBit_eq fun i => (hbits i).trans (Nat.testBit_and j k i).symm]
    exact Nat.and_lt_two_pow j hk.lt
  | or =>
    obtain ⟨j, k, hj, hk, hbits⟩ := h
    rw [Nat.eq_of_testBit_eq fun i => (hbits i).trans (Nat.testBit_or j k i).symm]
    exact Nat.or_lt_two_pow hj.lt hk.lt
  | xor =>
    obtain ⟨j, k, hj, hk, hbits⟩ := h
    rw [Nat.eq_of_testBit_eq fun i => (hbits i).trans (Nat.testBit_xor j k i).symm]
    exact Nat.xor_lt_two_pow hj.lt hk.lt
  | shift => exact absurd rfl hs

section
variable (operands : m.Operands x y)
include operands

theorem action_of_means (h : s.Means m x y r) : s.action n m = answerPositive32 r m := by
  cases s with
  | and =>
    obtain ⟨j, k, hj, hk, hbits⟩ := h
    rw [Nat.eq_of_testBit_eq fun i => (hbits i).trans (Nat.testBit_and j k i).symm]
    exact bitOp_eq (n := n) operands hj hk
  | or =>
    obtain ⟨j, k, hj, hk, hbits⟩ := h
    rw [Nat.eq_of_testBit_eq fun i => (hbits i).trans (Nat.testBit_or j k i).symm]
    exact bitOp_eq (n := n) operands hj hk
  | xor =>
    obtain ⟨j, k, hj, hk, hbits⟩ := h
    rw [Nat.eq_of_testBit_eq fun i => (hbits i).trans (Nat.testBit_xor j k i).symm]
    exact bitOp_eq (n := n) operands hj hk
  | shift =>
    obtain ⟨j, count, hj, hy, hr⟩ := h
    exact bitShift_eq (n := n) operands hj hy hr

theorem bitOp_of_not {op : Nat → Nat → Nat} (h : ¬((∃ j, m.Denotes x j) ∧ ∃ k, m.Denotes y k)) :
    bitOp op n m = .error .declined m := by
  by_cases hx : ∃ j, m.Denotes x j
  · obtain ⟨j, hj⟩ := hx
    have hy : ∀ k, ¬ m.Denotes y k := fun k hk => h ⟨⟨j, hj⟩, k, hk⟩
    exact (bind_of_ok ((stackPositive32_receiver operands).trans (positive32Value_of hj))).trans
      (bind_of_error ((stackPositive32_argument operands).trans (positive32Value_of_not hy)))
  · exact bind_of_error ((stackPositive32_receiver operands).trans
      (positive32Value_of_not (not_exists.1 hx)))

/-- Operands of another kind are refused before anything is changed. -/
theorem action_of_not_takes (h : ¬ s.Takes m x y) : s.action n m = .error .declined m := by
  cases s with
  | and => exact bitOp_of_not (n := n) operands h
  | or => exact bitOp_of_not (n := n) operands h
  | xor => exact bitOp_of_not (n := n) operands h
  | shift =>
    by_cases hx : ∃ j, m.Denotes x j
    · obtain ⟨j, hj⟩ := hx
      have hinteger : y.asSmall? = none := by
        cases y with
        | small a => exact absurd ⟨⟨j, hj⟩, a, rfl⟩ h
        | ref index generation => rfl
      have hy : stackInteger 0 m = .error .declined m := by
        refine (bind_of_ok (lift_ok.2 operands.argument)).trans ?_
        rw [hinteger]
        rfl
      exact (bind_of_ok ((stackPositive32_receiver operands).trans (positive32Value_of hj))).trans
        (bind_of_error hy)
    · exact bind_of_error ((stackPositive32_receiver operands).trans
        (positive32Value_of_not (not_exists.1 hx)))

end

end BitSelector

/-- How an attempt ends whose answer is `r`. -/
structure Machine.Answers (settings : TableSettings) (m : Machine) (r : Nat)
    (ending : EStateM.Result Fault Machine Action.Trial) : Prop where
  immediate : r < 2 ^ 30 → ending = .ok .handled (Action.pushed (Action.popped m 2) (.small r))
  large : 2 ^ 30 ≤ r → r < 2 ^ 32 → ¬ m.Crowded → ¬ (∃ p m', ending = .error (.panic p) m') →
    ∃ v m', ending = .ok .handled m' ∧ m.Boxed r v m'
  crowded : 2 ^ 30 ≤ r → r < 2 ^ 32 → m.Crowded → ¬ (∃ p m', ending = .error (.panic p) m') →
    ∃ m', ending = .error (.objectTableFull settings.maximum) m'
  calm : m.memory.Ample → ¬ ∃ p m', ending = .error (.panic p) m'
  tooLarge : 2 ^ 32 ≤ r → ending = .ok .unhandled m.refused

namespace Action

open Attempt Primitive

variable {s : BitSelector} {registered : Nat}

/-- The answer of a primitive that has computed `r`. -/
theorem answers_of_action {p : Primitive} (hp : p ∈ Primitive.all)
    (hquick : ¬(256 ≤ p.number ∧ p.number < 520)) (haction : p.action n m = answerPositive32 r m)
    (books : Memory.Books settings registered m.memory) (growth : 1 ≤ settings.growth)
    (room : m.memory.slots.size < 0x100000000) (operands : m.Operands x y) :
    m.Answers settings r (tryPrimitive p.number n m) := by
  obtain ⟨hdone, hdeclined, hfault⟩ := tryPrimitive_of_mem (m := m) (n := n) hp hquick
  rw [haction] at hdone hdeclined hfault
  have hnew (hlt : r < 2 ^ 32) : newPositive32 r m = (liftM (positive32 r) : Attempt Value) m :=
    bind_of_ok (require_of hlt)
  have himmediate (hr : r < 2 ^ 30) : tryPrimitive p.number n m =
      .ok .handled (pushed (popped m 2) (.small r)) := by
    have hvalue := (hnew (by omega)).trans (lift_ok.2 (positive32_immediate (m := m) hr))
    exact hdone _ ((bind_of_ok hvalue).trans
      (bind_of_ok (lift_ok.2 (popThenPush_operands operands _))))
  have htooLarge (hle : 2 ^ 32 ≤ r) : tryPrimitive p.number n m = .ok .unhandled m.refused :=
    hdeclined _ (bind_of_error (bind_of_error (require_of_not (Nat.not_lt.2 hle))))
  -- what the allocation of a large integer comes to, the primitive comes to
  have hfaulted {e m'} (hlarge : 2 ^ 30 ≤ r) (hlt : r < 2 ^ 32)
      (hrun : allocate (m.largeInteger r) m = .error e m') :
      tryPrimitive p.number n m = .error e m' :=
    hfault _ _ (bind_of_error ((hnew hlt).trans (lift_fault ((positive32_large hlarge).trans hrun))))
  have hboxes {v m₁} (hlarge : 2 ^ 30 ≤ r) (hlt : r < 2 ^ 32) 
      (hrun : allocate (m.largeInteger r) m = .ok v m₁) (hprovided : Provided m (m.largeInteger r) v m₁) :
      ∃ m', tryPrimitive p.number n m = .ok .handled m' ∧ m.Boxed r v m' := by
    obtain ⟨hpush, hboxed⟩ := boxed_of_allocate operands hlt hrun hprovided
    have hvalue := (hnew hlt).trans (lift_ok.2 ((positive32_large hlarge).trans hrun))
    exact ⟨_, hdone _ ((bind_of_ok hvalue).trans (bind_of_ok (lift_ok.2 hpush))), hboxed⟩
  refine ⟨himmediate, fun hlarge hlt hspace hcalm => ?_, fun hlarge hlt hcrowded hcalm => ?_,
    fun hample ⟨q, m', hpanic⟩ => ?_, htooLarge⟩
  · rcases allocate_outcome books growth room (m.largeInteger r) with ⟨hcrowded, -⟩ | ⟨v, m₁, hrun, -, hprovided⟩ |
      ⟨⟨q, m', hrun⟩, -⟩
    · exact absurd hcrowded hspace
    · obtain ⟨m', hend, hboxed⟩ := hboxes hlarge hlt hrun hprovided
      exact ⟨v, m', hend, hboxed⟩
    · exact absurd ⟨q, m', hfaulted hlarge hlt hrun⟩ hcalm
  · rcases allocate_outcome books growth room (m.largeInteger r) with ⟨-, m', hrun⟩ | ⟨-, -, -, hspace, -⟩ |
      ⟨⟨q, m', hrun⟩, -⟩
    · exact ⟨m', hfaulted hlarge hlt hrun⟩
    · exact absurd hcrowded hspace
    · exact absurd ⟨q, m', hfaulted hlarge hlt hrun⟩ hcalm
  · rcases Nat.lt_or_ge r (2 ^ 30) with hr | hlarge
    · exact nomatch (himmediate hr).symm.trans hpanic
    rcases Nat.lt_or_ge r (2 ^ 32) with hlt | hle
    · rcases allocate_outcome books growth room (m.largeInteger r) with
        ⟨-, m₁, hrun⟩ | ⟨v, m₁, hrun, -, hprovided⟩ | ⟨-, hnot⟩
      · exact nomatch (hfaulted hlarge hlt hrun).symm.trans hpanic
      · obtain ⟨m₂, hend, -⟩ := hboxes hlarge hlt hrun hprovided
        exact nomatch hend.symm.trans hpanic
      · exact hnot hample
    · exact nomatch (htooLarge hle).symm.trans hpanic

/-- The bit operations on natural numbers below `2^32`, however these are represented. Suitable
operands have an answer in the natural numbers, which exceeds 32 bits only when bits were moved; it
is answered as an immediate integer if it is one, and else as a new large positive integer of four
bytes as long as there is room for it; making room may panic where sizes may leave a word. Operands of
another kind and answers of more than 32 bits are refused with the operands still on the stack. -/
theorem tryPrimitive_bits (books : Memory.Books settings registered m.memory)
    (growth : 1 ≤ settings.growth) (room : m.memory.slots.size < 0x100000000)
    (operands : m.Operands x y) :
    (s.Takes m x y → ∃ r, s.Means m x y r) ∧
    (∀ r, s.Means m x y r → (s ≠ .shift → r < 2 ^ 32) ∧
      m.Answers settings r (tryPrimitive s.primitive n m)) ∧
    (¬ s.Takes m x y → tryPrimitive s.primitive n m = .ok .unhandled m.refused) := by
  obtain ⟨p, hp, hnumber, haction⟩ := s.exists_primitive
  have hquick : ¬(256 ≤ p.number ∧ p.number < 520) := by
    rw [hnumber]
    cases s <;> decide
  rw [← hnumber]
  refine ⟨s.exists_means, fun r hmeans => ⟨s.lt_of_means hmeans, ?_⟩, fun hnot => ?_⟩
  · have hanswer := s.action_of_means (n := n) operands hmeans
    exact answers_of_action hp hquick (haction ▸ hanswer) books growth room operands
  · obtain ⟨-, hdeclined, -⟩ := tryPrimitive_of_mem (m := m) (n := n) hp hquick
    rw [haction] at hdeclined
    exact hdeclined _ (s.action_of_not_takes operands hnot)

/-- A table of six. -/
def six : TableSettings := { initial := 6, growth := 1, maximum := 6 }

/-- A table of six that may have one entry more. -/
def seven : TableSettings := { initial := 6, growth := 1, maximum := 7 }

/-- A large positive integer of two bytes stands for one; it and a count are on the stack. -/
def tally (settings : TableSettings) (count : Int) : Machine :=
  let nil : Value := .ref 0 0
  let pointers fields := Object.ofPointers nil .indexable (List.toArray fields)
  let memory := (Memory.account settings
    [.register (pointers []), .register (pointers (List.replicate 13 nil ++ [.ref 4 0])),
      .register (.ofMethod nil #[.small (MethodHeader.encode 0 0 0 false 0).word] #[]),
      .register (pointers [nil, .small 0, .small 0, .ref 2 0, nil, nil, .ref 5 0, .small count]),
      .register (pointers []), .register (.ofBytes (.ref 4 0) #[1, 0])]).2
  let m := Machine.create memory { array := .ref 1 0, nil, falseObject := nil, trueObject := nil } {}
    default
  { m with registers := { m.registers with
      context := .ref 3 0
      home := .ref 3 0
      method := .ref 2 0
      sp := 7 } }

theorem books_tally (settings : TableSettings) (count : Int) (hgrowth : 1 ≤ settings.growth)
    (room : (tally settings count).memory.Addressable) :
    ∃ n, Memory.Books settings n (tally settings count).memory :=
  ⟨_, (Memory.books_empty _).foldl_perform (s := (0, .empty _)) hgrowth _ room⟩

theorem operands_tally (settings : TableSettings) (count : Int) (h : settings = six ∨ settings = seven)
    (hcount : count = 31 ∨ count = 32) : (tally settings count).Operands (.ref 5 0) (.small count) := by
  have hcells : (tally settings count).memory.cell (.ref 3 0) 6 = some (.ref 5 0) ∧
      (tally settings count).memory.cell (.ref 3 0) 7 = some (.small count) ∧
      (tally settings count).memory.isLive (.ref 1 0) = true := by
    rcases h with rfl | rfl <;> rcases hcount with rfl | rfl <;> decide +kernel
  obtain ⟨hreceiver, hargument, live⟩ := hcells
  have hsp : (tally settings count).registers.sp = 7 := rfl
  have hother : (Value.ref 1 0) ≠ .ref 3 0 := by decide
  exact {
    deep := by omega
    receiver := stackValue_ok.2 ⟨by omega, hreceiver, rfl⟩
    argument := stackValue_ok.2 ⟨by omega, hargument, rfl⟩
    array := live
    other := hother }

theorem denotes_tally {settings : TableSettings} {count : Int} (h : settings = six ∨ settings = seven)
    (hcount : count = 31 ∨ count = 32) : (tally settings count).Denotes (.ref 5 0) 1 := by
  have hobject : ((tally settings count).memory.get? (.ref 5 0)).map (fun o => (o.cls, o.bytes?)) =
      some ((tally settings count).specials.get (tally settings count).memory
        Special.classLargePositiveInteger, some #[1, 0]) := by
    rcases h with rfl | rfl <;> rcases hcount with rfl | rfl <;> decide +kernel
  obtain ⟨o, ho, hparts⟩ := Option.map_eq_some_iff.1 hobject
  obtain ⟨hcls, hbytes⟩ := Prod.mk.inj hparts
  exact Machine.Denotes.large ho hcls hbytes (by decide)

/-- One moved by some places. -/
theorem means_tally (settings : TableSettings) (places : Nat) (h : settings = six ∨ settings = seven)
    (hplaces : (places : ℤ) = 31 ∨ (places : ℤ) = 32) :
    BitSelector.shift.Means (tally settings places) (.ref 5 0) (.small places) (2 ^ places) := by
  refine ⟨1, places, denotes_tally h hplaces, rfl, ?_⟩
  rw [Nat.cast_one, one_mul, zpow_natCast]
  exact_mod_cast (Int.floor_natCast (R := ℚ) (2 ^ places)).symm

/-- The table is full, and the machine holds on to everything in it. -/
theorem crowded_tally : (tally six 31).Crowded := by
  generalize hm : tally six 31 = m
  have htable : m.memory.table = #[.ref 0 0, .ref 1 0, .ref 2 0, .ref 3 0, .ref 4 0, .ref 5 0] := by
    rw [← hm]
    decide +kernel
  have hroots : ∀ v ∈ [Value.ref 0 0, .ref 1 0, .ref 2 0, .ref 3 0],
      v ∈ m.lasting ∧ m.memory.isLive v = true := by
    rw [← hm]
    decide +kernel
  have hfields : m.memory.cell (.ref 1 0) 13 = some (.ref 4 0) ∧
      m.memory.cell (.ref 3 0) 6 = some (.ref 5 0) ∧
      m.memory.isLive (.ref 4 0) = true ∧ m.memory.isLive (.ref 5 0) = true := by
    rw [← hm]
    decide +kernel
  obtain ⟨hclass, hreceiver, live₄, live₅⟩ := hfields
  have reach (v : Value) (hv : v ∈ [Value.ref 0 0, .ref 1 0, .ref 2 0, .ref 3 0]) :
      m.memory.Reachable m.lasting v := .root (hroots v hv).1 (hroots v hv).2
  have follow {v x : Value} {i : Nat} (hv : m.memory.Reachable m.lasting v)
      (hcell : m.memory.cell v i = some x) (live : m.memory.isLive x = true) :
      m.memory.Reachable m.lasting x := by
    obtain ⟨o, ho, hx⟩ := Memory.cell_eq_some.1 hcell
    exact hv.field ho (List.mem_cons_of_mem _ (Array.mem_toList_iff.2 (Array.mem_of_getElem? hx))) live
  refine ⟨by rw [← hm]; decide +kernel, fun v hv => ?_⟩
  rw [htable, List.mem_toArray] at hv
  simp only [List.mem_cons, List.not_mem_nil, or_false] at hv
  rcases hv with rfl | rfl | rfl | rfl | rfl | rfl
  · exact reach _ (by simp)
  · exact reach _ (by simp)
  · exact reach _ (by simp)
  · exact reach _ (by simp)
  · exact follow (reach (.ref 1 0) (by simp)) hclass live₄
  · exact follow (reach (.ref 3 0) (by simp)) hreceiver live₅

/-- One moved by 31 places is answered as a large positive integer, and one moved by 32 places is
refused. -/
theorem tryPrimitive_bits_tally :
    (∃ v m', tryPrimitive 17 1 (tally seven 31) = .ok .handled m' ∧ (tally seven 31).Boxed (2 ^ 31) v m') ∧
    tryPrimitive 17 1 (tally seven 32) = .ok .unhandled (tally seven 32).refused := by
  obtain ⟨_, books⟩ := books_tally seven 31 (by decide) (by decide +kernel)
  obtain ⟨_, books'⟩ := books_tally seven 32 (by decide) (by decide +kernel)
  have hspace : ¬ (tally seven 31).Crowded := fun h => absurd h.1 (by decide +kernel)
  obtain ⟨-, hanswers, -⟩ := tryPrimitive_bits (s := .shift) (n := 1) books (Nat.le_refl 1)
    (by decide +kernel) (operands_tally seven 31 (.inr rfl) (.inl rfl))
  obtain ⟨-, hanswers', -⟩ := tryPrimitive_bits (s := .shift) (n := 1) books' (Nat.le_refl 1)
    (by decide +kernel) (operands_tally seven 32 (.inr rfl) (.inr rfl))
  have hlarge := (hanswers _ (means_tally seven 31 (.inr rfl) (.inl rfl))).2
  have hrefused := (hanswers' _ (means_tally seven 32 (.inr rfl) (.inr rfl))).2
  exact ⟨hlarge.large (by decide) (by decide) hspace (hlarge.calm (by decide +kernel)),
    hrefused.tooLarge (by decide)⟩

/-- In a full table there is no room for the answer, although it has no more than 32 bits. -/
theorem not_answered_tally :
    BitSelector.shift.Means (tally six 31) (.ref 5 0) (.small 31) (2 ^ 31) ∧
    ∃ m', tryPrimitive 17 1 (tally six 31) = .error (.objectTableFull 6) m' := by
  obtain ⟨_, books⟩ := books_tally six 31 (by decide) (by decide +kernel)
  have operands := operands_tally six 31 (.inl rfl) (.inl rfl)
  have hmeans := means_tally six 31 (.inl rfl) (.inl rfl)
  obtain ⟨p, hp, hnumber, haction⟩ := BitSelector.shift.exists_primitive
  have hanswers := answers_of_action (n := 1) hp (by rw [hnumber]; decide)
    (haction ▸ BitSelector.shift.action_of_means operands hmeans) books (Nat.le_refl 1)
    (by decide +kernel) operands
  rw [hnumber] at hanswers
  exact ⟨hmeans, hanswers.crowded (by decide) (by decide) crowded_tally
    (hanswers.calm (by decide +kernel))⟩

end Action

end Smalltalk
