import Smalltalk.Memory.Become
import Smalltalk.Memory.Reclaim

/-!
# Looking an object up after a change

`get?` reads one slot, so every operation of the memory is described by what `get?` answers after
it. A reference names a slot and a generation; a slot has one generation at a time, so of all the
references to one slot at most one is live.
-/

namespace Smalltalk

/-- Sizes with which no step of growth leaves a word. -/
def TableSettings.Fits (s : TableSettings) : Prop := s.maximum + s.growth ≤ 0x10000000000000000

instance (s : TableSettings) : Decidable s.Fits := inferInstanceAs (Decidable (_ ≤ _))

namespace Memory

variable {m m' : Memory} {v w x : Value} {o o' : Object}

theorem get?_eq_some :
    m.get? v = some o ↔ ∃ index generation slot, v = .ref index generation ∧
      m.slots[index.toNat]? = some slot ∧ slot.generation.toNat = generation.toNat ∧
      slot.object = some o := by
  cases v with
  | small n => simp [get?]
  | ref index generation =>
    cases hs : m.slots[index.toNat]? with
    | none => simp [get?, hs]
    | some slot =>
      simp only [get?, hs, Value.ref.injEq]
      constructor
      · intro h
        split at h
        · exact ⟨index, generation, slot, ⟨rfl, rfl⟩, hs, by assumption, h⟩
        · exact absurd h (by simp)
      · rintro ⟨index', generation', slot', ⟨rfl, rfl⟩, hs', hg, ho⟩
        rw [hs] at hs'
        obtain rfl := Option.some.inj hs'
        rw [if_pos hg, ho]

@[simp] theorem get?_small (n : Int) : m.get? (.small n) = none := rfl

theorem isLive_iff : m.isLive v = true ↔ ∃ o, m.get? v = some o := by
  rw [isLive, Option.isSome_iff_exists]

theorem isLive_of_get? (h : m.get? v = some o) : m.isLive v = true := isLive_iff.2 ⟨o, h⟩

theorem get?_eq_none : m.get? v = none ↔ m.isLive v = false := by
  rw [isLive, Option.isSome_eq_false_iff, Option.isNone_iff_eq_none]

theorem isReference_of_isLive (h : m.isLive v = true) : v.isReference = true := by
  cases v with
  | small n => simp [isLive] at h
  | ref index generation => rfl

theorem isSmall_of_isLive (h : m.isLive v = true) : v.isSmall = false := by
  cases v with
  | small n => exact absurd h (by simp [isLive])
  | ref index generation => rfl

/-- Two live references to one slot are the same reference. -/
theorem eq_of_isLive_of_index {index : UInt32} {g g' : BitVec 30}
    (h : m.isLive (.ref index g) = true) (h' : m.isLive (.ref index g') = true) : g = g' := by
  obtain ⟨o, ho⟩ := isLive_iff.1 h
  obtain ⟨o', ho'⟩ := isLive_iff.1 h'
  obtain ⟨i, a, slot, hv, hs, hg, -⟩ := get?_eq_some.1 ho
  obtain ⟨i', a', slot', hv', hs', hg', -⟩ := get?_eq_some.1 ho'
  cases hv
  cases hv'
  rw [hs] at hs'
  obtain rfl := Option.some.inj hs'
  exact BitVec.eq_of_toNat_eq (hg.symm.trans hg')

/-- `get?` depends on the slots only. -/
theorem get?_congr {m' : Memory} (h : m'.slots = m.slots) : m'.get? = m.get? := by
  funext v
  cases v with
  | small n => rfl
  | ref index generation => simp only [get?, h]

theorem isLive_congr {m' : Memory} (h : m'.get? = m.get?) : m'.isLive = m.isLive := by
  funext v
  rw [isLive, isLive, h]

/-! ### Changing one object -/

/-- A change of the slot of a live reference is seen through that reference and no other. -/
theorem get?_modify (m : Memory) (v w : Value) (f : Object → Object) :
    (m.modify v f).get? w = if w = v then (m.get? v).map f else m.get? w := by
  cases v with
  | small n =>
    by_cases hw : w = .small n
    · simp [modify, hw]
    · simp [modify, hw]
  | ref index generation =>
    by_cases live : m.isLive (.ref index generation) = true
    · simp only [modify, live, if_true]
      cases w with
      | small n => simp
      | ref index' generation' =>
        by_cases hi : index' = index
        · -- the same slot, where a live reference has the slot's generation
          subst hi
          obtain ⟨o, ho⟩ := isLive_iff.1 live
          obtain ⟨i, g, slot, hv, hs, hg, hobj⟩ := get?_eq_some.1 ho
          cases hv
          by_cases hgen : generation' = generation
          · subst hgen
            simp [get?, modifyAt, Array.getElem?_modify, hs, hg]
          · have hne : slot.generation.toNat ≠ generation'.toNat := fun e =>
              hgen (BitVec.eq_of_toNat_eq (e.symm.trans hg))
            simp [get?, modifyAt, Array.getElem?_modify, hs, hne, hgen]
        · have hne : index.toNat ≠ index'.toNat := fun e => hi (UInt32.toNat_inj.1 e.symm)
          simp [get?, modifyAt, Array.getElem?_modify, hne, hi]
    · have hnone : m.get? (.ref index generation) = none :=
        get?_eq_none.2 (Bool.eq_false_iff.2 live)
      simp only [modify, if_neg live]
      by_cases hw : w = .ref index generation
      · simp [hw, hnone]
      · simp [hw]

@[simp] theorem isLive_modify (m : Memory) (v w : Value) (f : Object → Object) :
    (m.modify v f).isLive w = m.isLive w := by
  rw [isLive, isLive, get?_modify]
  by_cases h : w = v
  · simp [h]
  · simp [h]

theorem get?_setField (m : Memory) (v w : Value) (i : Nat) (x : Value) :
    (m.setField v i x).get? w =
      if w = v then (m.get? v).map fun o => o.setPointer i x else m.get? w :=
  get?_modify m v w _

@[simp] theorem isLive_setField (m : Memory) (v w : Value) (i : Nat) (x : Value) :
    (m.setField v i x).isLive w = m.isLive w := isLive_modify ..

/-- Nothing but the slots is touched by a change of one object. -/
theorem modify_frame (m : Memory) (v : Value) (f : Object → Object) :
    m.modify v f = { m with slots := (m.modify v f).slots } := by
  cases v with
  | small n => rfl
  | ref index generation =>
    simp only [modify]
    split <;> rfl

/-! ### Adding an object -/

/-- The table lists exactly the live references, each of them once. -/
structure Tabled (m : Memory) : Prop where
  listed : ∀ v, v ∈ m.table ↔ m.isLive v = true
  once : m.table.toList.Nodup

/-- What holds of the objects in the table holds of every object. -/
theorem Tabled.of_table {P : Value → Object → Prop} (h : m.Tabled)
    (hP : ∀ v ∈ m.table.toList, ∀ o ∈ (m.get? v).toList, P v o) (ho : m.get? v = some o) : P v o := by
  refine hP v (Array.mem_toList_iff.2 ((h.listed v).2 (isLive_of_get? ho))) o ?_
  rw [ho]
  exact List.mem_singleton_self o

/-- The free list names vacant slots, each of them once. -/
structure Stocked (m : Memory) : Prop where
  vacant : ∀ i ∈ m.free, ∃ slot, m.slots[i.toNat]? = some slot ∧ slot.object = none
  distinct : m.free.Nodup

/-- A memory as its operations leave it: the table is exact, and so is the free list. -/
structure WellFormed (m : Memory) : Prop extends Tabled m, Stocked m

/-- A reference has room for every slot: it can tell their indices and their generations apart. -/
structure Addressable (m : Memory) : Prop where
  size : m.slots.size ≤ 0x100000000
  generation : ∀ (i : Nat) (slot : Slot), m.slots[i]? = some slot → slot.generation.toNat < 0x40000000

instance (m : Memory) : Decidable m.Addressable :=
  decidable_of_iff (m.slots.size ≤ 0x100000000 ∧ ∀ slot ∈ m.slots, slot.generation.toNat < 0x40000000)
    ⟨fun h => ⟨h.1, fun _ slot hs => h.2 slot (Array.mem_of_getElem? hs)⟩,
      fun h => ⟨h.size, fun slot hs => by
        obtain ⟨i, hi⟩ := Array.mem_iff_getElem?.1 hs
        exact h.generation i slot hi⟩⟩

theorem wellFormed_empty (settings : TableSettings) : (empty settings).WellFormed where
  listed v := by
    cases v with
    | small n => simp [empty, isLive]
    | ref index generation => simp [empty, isLive, get?]
  once := List.nodup_nil
  vacant i hi := absurd hi List.not_mem_nil
  distinct := List.nodup_nil

/-- Whether the slot to use next can be named by a reference. -/
def Placeable (m : Memory) : Prop :=
  match m.free with
  | [] => m.slots.size < 0x100000000
  | i :: _ => ∃ slot, m.slots[i.toNat]? = some slot ∧ slot.object = none ∧
      slot.generation.toNat < 0x40000000

theorem WellFormed.placeable (h : m.WellFormed) (room : (m.place o).2.Addressable) :
    m.Placeable := by
  cases hf : m.free with
  | nil =>
    have hsize := room.size
    simp only [place, hf, Array.size_push] at hsize
    simp only [Placeable, hf]
    omega
  | cons i free =>
    obtain ⟨slot, hs, ho⟩ := h.vacant i (by rw [hf]; exact List.mem_cons_self ..)
    have hg : slot.generation.toNat < 0x40000000 := by
      refine room.generation i.toNat { slot with object := some o } ?_
      simp [place, hf, Array.getElem?_modify, hs]
    simp only [Placeable, hf]
    exact ⟨slot, hs, ho, hg⟩

/-- The reference to a new object did not resolve before. -/
theorem place_fresh (h : m.Placeable) : m.isLive (m.place o).1 = false := by
  cases hf : m.free with
  | nil =>
    simp only [Placeable, hf] at h
    have hindex : (UInt32.ofNat m.slots.size).toNat = m.slots.size := UInt32.toNat_ofNat_of_lt' h
    have hnone : m.get? (.ref (UInt32.ofNat m.slots.size) 0) = none := by
      simp only [get?, hindex, Array.getElem?_size]
    simp only [place, hf]
    exact get?_eq_none.1 hnone
  | cons i free =>
    simp only [Placeable, hf] at h
    obtain ⟨slot, hs, ho, -⟩ := h
    simp [place, hf, isLive, Value.reference, get?, hs, ho]

/-- A new object is seen through its own reference, and every other reference as before. -/
theorem get?_place (h : m.Placeable) (w : Value) :
    (m.place o).2.get? w = if w = (m.place o).1 then some o else m.get? w := by
  cases hf : m.free with
  | nil =>
    simp only [Placeable, hf] at h
    have hindex : (UInt32.ofNat m.slots.size).toNat = m.slots.size := UInt32.toNat_ofNat_of_lt' h
    cases w with
    | small n => simp [place, hf, Value.reference]
    | ref index generation =>
      simp only [place, hf, Value.reference, get?, Array.getElem?_push]
      by_cases hi : index.toNat = m.slots.size
      · -- the new slot, which is in its first generation
        have hidx : index = UInt32.ofNat m.slots.size := by
          rw [← UInt32.toNat_inj, hindex, hi]
        have hnone : m.slots[index.toNat]? = none := by rw [hi]; exact Array.getElem?_size
        by_cases hg : generation = 0#30
        · simp [hidx, hg, hindex]
        · have hne : ¬ 0 = generation.toNat := fun e => hg (BitVec.eq_of_toNat_eq e.symm)
          simp [hidx, hg, hindex, hne]
      · have hidx : index ≠ UInt32.ofNat m.slots.size := fun e => hi (by rw [e, hindex])
        simp [hi, hidx]
  | cons i free =>
    simp only [Placeable, hf] at h
    obtain ⟨slot, hs, ho, hg⟩ := h
    have hwidth : (slot.generation.toBitVec.setWidth 30).toNat = slot.generation.toNat := by
      rw [BitVec.toNat_setWidth, UInt32.toNat_toBitVec, Nat.mod_eq_of_lt hg]
    cases w with
    | small n => simp [place, hf, Value.reference]
    | ref index generation =>
      simp only [place, hf, Value.reference, get?, Array.getElem?_modify, hs]
      by_cases hi : index = i
      · subst hi
        by_cases hgen : generation = slot.generation.toBitVec.setWidth 30
        · simp [hgen, hwidth, hs]
        · have hne : slot.generation.toNat ≠ generation.toNat := fun e =>
            hgen (BitVec.eq_of_toNat_eq (by rw [hwidth, e]))
          simp [hgen, hs, hne]
      · have hne : i.toNat ≠ index.toNat := fun e => hi (UInt32.toNat_inj.1 e.symm)
        simp [hi, hne]

theorem place_table (m : Memory) (o : Object) :
    (m.place o).2.table = m.table.push (m.place o).1 := by
  cases hf : m.free with
  | nil => simp [place, hf]
  | cons i free => simp [place, hf]

/-- The slot of a new object leaves the free list. -/
theorem Stocked.place (h : m.Stocked) : (m.place o).2.Stocked := by
  cases hf : m.free with
  | nil => exact ⟨by simp [Memory.place, hf], by simp [Memory.place, hf]⟩
  | cons j free =>
    have hd := h.distinct
    rw [hf] at hd
    obtain ⟨hnotin, hd⟩ := List.nodup_cons.1 hd
    refine ⟨fun i hi => ?_, by simpa [Memory.place, hf] using hd⟩
    simp only [Memory.place, hf] at hi ⊢
    have hne : j ≠ i := fun e => hnotin (e ▸ hi)
    obtain ⟨slot, hs, ho⟩ := h.vacant i (by rw [hf]; exact List.mem_cons_of_mem _ hi)
    refine ⟨slot, ?_, ho⟩
    rw [Array.getElem?_modify, if_neg fun e => hne (UInt32.toNat_inj.1 e), hs]

/-- Adding an object keeps the memory well formed. -/
theorem WellFormed.place (h : m.WellFormed) (room : (m.place o).2.Addressable) :
    (m.place o).2.WellFormed := by
  have hp := h.placeable room
  have hlive : ∀ w, (m.place o).2.isLive w = true ↔ w = (m.place o).1 ∨ m.isLive w = true := by
    intro w
    rw [isLive, get?_place hp]
    by_cases hw : w = (m.place o).1
    · simp [hw]
    · simp [hw, isLive]
  refine ⟨⟨fun w => ?_, ?_⟩, h.toStocked.place⟩
  · rw [place_table, Array.mem_push, h.listed, hlive, or_comm]
  · rw [place_table, Array.toList_push, List.nodup_append]
    refine ⟨h.once, by simp, ?_⟩
    rintro a ha b hb rfl
    rw [List.mem_singleton] at hb
    have hin := (h.listed a).1 (Array.mem_toList_iff.1 ha)
    rw [hb, place_fresh hp] at hin
    exact absurd hin (by simp)

/-! ### Registration -/

/-- Whether the capacity can be raised by one step within a word. -/
def GrowthFits (m : Memory) : Prop := m.capacity + m.settings.growth < 0x10000000000000000

instance (m : Memory) : Decidable m.GrowthFits := inferInstanceAs (Decidable (_ < _))

theorem growthFits_of_canGrow (h : m.settings.Fits) (hgrow : m.canGrow = true) : m.GrowthFits := by
  simp only [TableSettings.Fits] at h
  simp only [canGrow, decide_eq_true_eq] at hgrow
  simp only [GrowthFits]
  omega

/-- The panic of a growth that does not fit. -/
def growthPanic (m : Memory) : Fault :=
  .panic (.overflow .natural64 (m.capacity + m.settings.growth))

theorem grow_eq (m : Memory) : grow m =
    if m.GrowthFits then .ok () m.grown else .error m.growthPanic m := by
  have hholds : Width.natural64.Holds (m.capacity + m.settings.growth) ↔ m.GrowthFits := by
    simp only [Width.Holds, Width.least, Width.greatest, GrowthFits]
    omega
  by_cases h : m.GrowthFits
  · simp [grow, Width.check, hholds, h]
  · simp [grow, Width.check, hholds, h, growthPanic]

/-- The memory that a new object is placed in. -/
def readied (m : Memory) : Memory := if m.isFull then m.grown else m

theorem ensureRoom_eq (m : Memory) : ensureRoom m =
    if m.isFull && !m.canGrow then .error (.objectTableFull m.table.size) m
    else if m.isFull ∧ ¬ m.GrowthFits then .error m.growthPanic m
    else .ok () m.readied := by
  have heq : ensureRoom m = if m.isFull then
      if m.canGrow then grow m else .error (.objectTableFull m.table.size) m
      else .ok () m := by
    have hget : (get : Change Memory) m = .ok m m := rfl
    simp only [ensureRoom, bind, EStateM.bind, hget]
    cases hfull : m.isFull
    · rfl
    · cases hgrow : m.canGrow
      · simp only [EStateM.bind, hget, hgrow, if_true, Bool.false_eq_true, if_false]
        rfl
      · simp only [EStateM.bind, hget, hgrow, if_true]
  rw [heq, grow_eq, readied]
  cases m.isFull <;> cases m.canGrow <;> by_cases hfits : m.GrowthFits <;> simp [hfits]

theorem registerHashed_eq (o : Object) (m : Memory) : registerHashed o m =
    if m.isFull && !m.canGrow then .error (.objectTableFull m.table.size) m
    else if m.isFull ∧ ¬ m.GrowthFits then .error m.growthPanic m
    else .ok (m.readied.place o).1 (m.readied.place o).2 := by
  change EStateM.bind ensureRoom (fun _ => modifyGet fun m => m.place o) m = _
  rw [EStateM.bind, ensureRoom_eq]
  by_cases hrefused : (m.isFull && !m.canGrow) = true
  · simp only [hrefused, if_true]
  · by_cases hpanic : m.isFull = true ∧ ¬ m.GrowthFits
    · rw [if_neg hrefused, if_neg hrefused, if_pos hpanic, if_pos hpanic]
    · rw [if_neg hrefused, if_neg hrefused, if_neg hpanic, if_neg hpanic]
      rfl

/-- A registration that succeeds places the object, after the table has grown if it was full. -/
theorem registerHashed_ok (h : registerHashed o m = .ok v m') :
    v = (m.readied.place o).1 ∧ m' = (m.readied.place o).2 := by
  rw [registerHashed_eq] at h
  split at h
  · cases h
  · split at h
    · cases h
    · obtain ⟨rfl, rfl⟩ := EStateM.Result.ok.inj h
      exact ⟨rfl, rfl⟩

/-- A registration that fails leaves the memory as it was. -/
theorem registerHashed_error {e : Fault} (h : registerHashed o m = .error e m') : m' = m := by
  rw [registerHashed_eq] at h
  split at h
  · exact (EStateM.Result.error.inj h).2.symm
  · split at h
    · exact (EStateM.Result.error.inj h).2.symm
    · cases h

/-- Readying a memory for a new object leaves the objects alone. -/
theorem readied_frame (m : Memory) :
    m.readied = { m with capacity := m.readied.capacity, growths := m.readied.growths } := by
  rw [readied]
  split <;> rfl

@[simp] theorem readied_slots (m : Memory) : m.readied.slots = m.slots := by rw [readied_frame]

@[simp] theorem readied_free (m : Memory) : m.readied.free = m.free := by rw [readied_frame]

@[simp] theorem readied_table (m : Memory) : m.readied.table = m.table := by rw [readied_frame]

/-! ### Space -/

/-- Whether the room that is left fits a word. -/
def SpaceFits (m : Memory) : Prop := m.bytesLeft < 0x10000000000000000

instance (m : Memory) : Decidable m.SpaceFits := inferInstanceAs (Decidable (_ < _))

/-- The panic of a room that does not fit. -/
def spacePanic (m : Memory) : Fault := .panic (.overflow .natural64 m.bytesLeft)

theorem spaceLeft_eq (m : Memory) : m.spaceLeft =
    if m.SpaceFits then .ok (min (signedWord m.bytesLeft) Value.smallMax)
    else .error m.spacePanic := by
  have hholds : Width.natural64.Holds m.bytesLeft ↔ m.SpaceFits := by
    simp only [Width.Holds, Width.least, Width.greatest, SpaceFits]
    omega
  rw [spaceLeft, Width.check]
  by_cases h : m.SpaceFits
  · rw [if_pos h, if_pos (hholds.2 h)]
    rfl
  · rw [if_neg h, if_neg (mt hholds.1 h)]
    rfl

/-- Not even a table full of its greatest objects would fill more bytes than fit a word. -/
def Spacious (m : Memory) : Prop :=
  m.settings.maximum * 64 < 0x10000000000000000 ∧
    ∀ v ∈ m.table, ∀ o ∈ m.get? v, m.settings.maximum * o.byteSize < 0x10000000000000000

instance (m : Memory) : Decidable m.Spacious := inferInstanceAs (Decidable (_ ∧ _))

theorem spaceFits_of_spacious (h : m.Spacious) : m.SpaceFits := by
  have hsum : ∀ (vs : List Value) (sum : Nat), (∀ v ∈ vs, v ∈ m.table) →
      m.settings.maximum * vs.foldl
          (fun sum v => sum + ((m.get? v).map Object.byteSize).getD 0) sum ≤
        m.settings.maximum * sum + vs.length * 0xFFFFFFFFFFFFFFFF := by
    intro vs
    induction vs with
    | nil => exact fun sum _ => Nat.le_of_eq (by simp)
    | cons v vs ih =>
      intro sum hvs
      have hsize : m.settings.maximum * ((m.get? v).map Object.byteSize).getD 0 ≤
          0xFFFFFFFFFFFFFFFF := by
        cases ho : m.get? v with
        | none => simp
        | some o =>
          have := h.2 v (hvs v List.mem_cons_self) o ho
          simp only [Option.map_some, Option.getD_some]
          omega
      have hrest := ih (sum + ((m.get? v).map Object.byteSize).getD 0)
        fun w hw => hvs w (List.mem_cons_of_mem v hw)
      rw [Nat.mul_add] at hrest
      rw [List.foldl_cons, List.length_cons]
      omega
  have htotal := hsum m.table.toList 0 fun v hv => Array.mem_toList_iff.1 hv
  rw [Array.foldl_toList, Array.length_toList, Nat.mul_zero, Nat.zero_add] at htotal
  simp only [SpaceFits, bytesLeft]
  by_cases hlive : m.table.size = 0
  · rw [if_pos hlive]
    have := Nat.mul_le_mul_right 64 (Nat.sub_le m.settings.maximum m.table.size)
    have := h.1
    omega
  · rw [if_neg hlive]
    refine Nat.lt_of_le_of_lt (Nat.mul_le_mul_right _ (Nat.sub_le ..)) ?_
    refine Nat.lt_of_le_of_lt (Nat.mul_div_le_mul_div_assoc ..) ?_
    rw [Nat.div_lt_iff_lt_mul (Nat.pos_of_ne_zero hlive)]
    omega

/-- What a memory panics about: a capacity or a room that does not fit a word. -/
inductive Bursts (m : Memory) : Panic → Prop
  | growth (h : ¬ m.GrowthFits) : Bursts m (.overflow .natural64 (m.capacity + m.settings.growth))
  | space (h : ¬ m.SpaceFits) : Bursts m (.overflow .natural64 m.bytesLeft)

/-- Sizes that leave no word, however the table is filled and grows. -/
structure Ample (m : Memory) : Prop where
  settings : m.settings.Fits
  spacious : m.Spacious

instance (m : Memory) : Decidable m.Ample :=
  decidable_of_iff (m.settings.Fits ∧ m.Spacious) ⟨fun h => ⟨h.1, h.2⟩, fun h => ⟨h.1, h.2⟩⟩

end Memory

end Smalltalk
