import Mathlib
import Smalltalk.Memory.Enumeration
import Smalltalk.Proofs.Upkeep

/-!
# Keeping the books

The slots, the free list, the table, the old boundary and the capacity of a memory are changed by
separate operations, and each relies on the others: a slot that is free twice, or listed twice, would
be given to two objects. The books say what holds between them. Every operation keeps the books, so
they are right after every run from the empty memory, as long as references can tell the slots and
their generations apart. A slot is vacated in a generation that a reference has room for, so it is
enough to look at the memory at the end of the run.
-/

namespace Smalltalk.Memory

variable {m m' : Memory} {v x : Value} {o : Object} {settings : TableSettings} {n : Nat}

/-! ### Vacant slots -/

/-- Every vacant slot is on the free list. -/
def Offered (m : Memory) : Prop :=
  ∀ (i : Nat) (slot : Slot), m.slots[i]? = some slot → slot.object = none →
    ∃ index ∈ m.free, index.toNat = i

theorem offered_empty (settings : TableSettings) : (empty settings).Offered := by
  intro i slot hs
  simp [empty] at hs

theorem Offered.of_slots (h : m.Offered) (hslots : m'.slots = m.slots) (hfree : m'.free = m.free) :
    m'.Offered := by
  intro i slot hs ho
  rw [hslots] at hs
  rw [hfree]
  exact h i slot hs ho

/-- The slot that a new object takes is the only one that is not vacant any more. -/
theorem Offered.place (h : m.Offered) : (m.place o).2.Offered := by
  intro i slot hs ho
  cases hf : m.free with
  | nil =>
    simp only [Memory.place, hf, Array.getElem?_push] at hs
    split at hs
    · obtain rfl := Option.some.inj hs
      simp at ho
    · obtain ⟨index, hindex, -⟩ := h i slot hs ho
      rw [hf] at hindex
      exact absurd hindex List.not_mem_nil
  | cons j free =>
    simp only [Memory.place, hf, Array.getElem?_modify] at hs ⊢
    split at hs
    · obtain ⟨old, -, rfl⟩ := Option.map_eq_some_iff.1 hs
      simp at ho
    · rename_i hne
      obtain ⟨index, hindex, rfl⟩ := h i slot hs ho
      rw [hf] at hindex
      rcases List.mem_cons.1 hindex with rfl | hindex
      · exact absurd rfl hne
      · exact ⟨index, hindex, rfl⟩

theorem Offered.vacate (h : m.Offered) (v : Value) : (m.vacate v).Offered := by
  by_cases live : m.isLive v = true
  · obtain ⟨index, generation, old, rfl, hold, -, -, hv⟩ := vacate_of_isLive live
    rw [hv]
    intro i slot hs ho
    by_cases hi : index.toNat = i
    · exact ⟨index, List.mem_cons_self, hi⟩
    · rw [Array.getElem?_setIfInBounds_ne hi] at hs
      obtain ⟨j, hj, hji⟩ := h i slot hs ho
      exact ⟨j, List.mem_cons_of_mem index hj, hji⟩
  · rw [vacate_of_not_isLive live]
    exact h

theorem Offered.foldl_vacate (dead : List Value) (h : m.Offered) :
    (dead.foldl Memory.vacate m).Offered := by
  induction dead generalizing m with
  | nil => exact h
  | cons v dead ih => exact ih (h.vacate v)

theorem Offered.reclaim (h : m.Offered) (roots : List Value) (scope : Scope) :
    (m.reclaim roots scope).2.Offered := by
  have htrimmed : (m.trimmed roots scope).Offered := h.of_slots rfl rfl
  exact (htrimmed.foldl_vacate (m.doomed roots scope)).of_slots rfl rfl

theorem Offered.modify (h : m.Offered) (v : Value) (f : Object → Object) :
    (m.modify v f).Offered := by
  cases v with
  | small k => exact h
  | ref index generation =>
    simp only [Memory.modify]
    split
    · intro i slot hs ho
      simp only [modifyAt, Array.getElem?_modify] at hs
      split at hs
      · obtain ⟨old, hold, rfl⟩ := Option.map_eq_some_iff.1 hs
        exact h i old hold (Option.map_eq_none_iff.1 ho)
      · exact h i slot hs ho
    · exact h

theorem Offered.rename (h : m.Offered) (r : Renaming) : (m.rename r).Offered := by
  intro i slot hs ho
  simp only [Memory.rename, Array.getElem?_map] at hs
  obtain ⟨old, hold, rfl⟩ := Option.map_eq_some_iff.1 hs
  exact h i old hold (Option.map_eq_none_iff.1 ho)

/-! ### Counting what is freed -/

theorem le_reclaimed_vacate (m : Memory) (v : Value) : m.reclaimed ≤ (m.vacate v).reclaimed := by
  by_cases live : m.isLive v = true
  · exact vacate_reclaimed live ▸ Nat.le_succ _
  · exact Nat.le_of_eq (by rw [vacate_of_not_isLive live])

theorem le_reclaimed_foldl_vacate (dead : List Value) (m : Memory) :
    m.reclaimed ≤ (dead.foldl vacate m).reclaimed := by
  induction dead generalizing m with
  | nil => exact Nat.le_refl _
  | cons v dead ih => exact Nat.le_trans (le_reclaimed_vacate m v) (ih _)

theorem reclaim_reclaimed (m : Memory) (roots : List Value) (scope : Scope) :
    (m.reclaim roots scope).2.reclaimed = m.reclaimed + (m.reclaim roots scope).1 := by
  have hle := le_reclaimed_foldl_vacate (m.doomed roots scope) (m.trimmed roots scope)
  exact (Nat.add_sub_cancel' hle).symm

theorem oldBoundary_reclaim_le {roots : List Value} {scope : Scope}
    (h : m.oldBoundary ≤ m.table.size) :
    (m.reclaim roots scope).2.oldBoundary ≤ (m.reclaim roots scope).2.table.size := by
  have htable := congrArg List.length (reclaim_table m roots scope)
  rw [Array.length_toList] at htable
  cases scope with
  | young =>
    have hboundary : (m.reclaim roots .young).2.oldBoundary = m.oldBoundary := by
      rw [reclaim_frame]
      rfl
    rw [hboundary, htable, List.length_append, List.length_take, Array.length_toList, sweepStart]
    omega
  | full =>
    have hboundary : (m.reclaim roots .full).2.oldBoundary =
        ((m.table.toList.take m.oldBoundary).filter
          (markOf (m.reclaimMarks roots .full))).length := rfl
    have hle := ((List.take_sublist m.oldBoundary m.table.toList).filter
      (markOf (m.reclaimMarks roots .full))).length_le
    simp only [sweepStart, List.take_zero, List.drop_zero, List.nil_append] at htable
    rw [hboundary, htable]
    exact hle

/-! ### The books -/

/-- What holds between the parts of a memory after `registered` objects have been registered. -/
structure Books (settings : TableSettings) (registered : Nat) (m : Memory) : Prop
    extends WellFormed m where
  offered : m.Offered
  sizes : m.settings = settings
  boundary : m.oldBoundary ≤ m.table.size
  within : m.table.size ≤ m.capacity
  capped : m.capacity ≤ settings.maximum
  balance : m.table.size + m.reclaimed = registered

theorem books_empty (settings : TableSettings) : Books settings 0 (empty settings) where
  toWellFormed := wellFormed_empty settings
  offered := offered_empty settings
  sizes := rfl
  boundary := Nat.le_refl 0
  within := Nat.zero_le _
  capped := Nat.min_le_right ..
  balance := rfl

namespace Books

/-- Whatever leaves the slots, the free list, the table and its sizes alone keeps the books. -/
theorem alike (h : Books settings n m) (hslots : m'.slots = m.slots) (hfree : m'.free = m.free)
    (htable : m'.table = m.table) (hsizes : m'.settings = m.settings)
    (hboundary : m'.oldBoundary = m.oldBoundary) (hcapacity : m'.capacity = m.capacity)
    (hreclaimed : m'.reclaimed = m.reclaimed) : Books settings n m' where
  listed v := by rw [htable, isLive_congr (get?_congr hslots)]; exact h.listed v
  once := by rw [htable]; exact h.once
  toStocked := h.toStocked.of_slots hslots hfree
  offered := h.offered.of_slots hslots hfree
  sizes := by rw [hsizes]; exact h.sizes
  boundary := by rw [hboundary, htable]; exact h.boundary
  within := by rw [htable, hcapacity]; exact h.within
  capped := by rw [hcapacity]; exact h.capped
  balance := by rw [htable, hreclaimed]; exact h.balance

theorem modify (h : Books settings n m) (v : Value) (f : Object → Object) :
    Books settings n (m.modify v f) := by
  have hwell := Machine.wellFormed_modify h.toWellFormed v f
  have hoffered := h.offered.modify v f
  rw [modify_frame] at hwell hoffered ⊢
  exact ⟨hwell, hoffered, h.sizes, h.boundary, h.within, h.capped, h.balance⟩

theorem rename (h : Books settings n m) (r : Renaming) : Books settings n (m.rename r) where
  listed v := by
    rw [isLive, Machine.get?_rename, Option.isSome_map]
    exact h.listed v
  once := h.once
  toStocked := h.toStocked.rename r
  offered := h.offered.rename r
  sizes := h.sizes
  boundary := h.boundary
  within := h.within
  capped := h.capped
  balance := h.balance

theorem grown (h : Books settings n m) : Books settings n m.grown where
  toWellFormed := ⟨⟨h.listed, h.once⟩, ⟨h.vacant, h.distinct⟩⟩
  offered := h.offered
  sizes := h.sizes
  boundary := h.boundary
  within := by
    have hwithin := h.within
    have hcapped := h.capped
    simp only [Memory.grown, h.sizes]
    omega
  capped := by
    simp only [Memory.grown, h.sizes]
    exact Nat.min_le_right ..
  balance := h.balance

theorem readied (h : Books settings n m) : Books settings n m.readied := by
  rw [Memory.readied]
  split
  · exact h.grown
  · exact h

theorem markOldBoundary (h : Books settings n m) : Books settings n m.markOldBoundary where
  toWellFormed := ⟨⟨h.listed, h.once⟩, ⟨h.vacant, h.distinct⟩⟩
  offered := h.offered
  sizes := h.sizes
  boundary := Nat.le_refl _
  within := h.within
  capped := h.capped
  balance := h.balance

/-- A new object is entered if the table has room for it. -/
theorem place (h : Books settings n m) (hroom : m.table.size < m.capacity)
    (room : (m.place o).2.Addressable) : Books settings (n + 1) (m.place o).2 := by
  have hsize : (m.place o).2.table.size = m.table.size + 1 := by
    rw [place_table, Array.size_push]
  have hframe : (m.place o).2.settings = m.settings ∧ (m.place o).2.oldBoundary = m.oldBoundary ∧
      (m.place o).2.capacity = m.capacity ∧ (m.place o).2.reclaimed = m.reclaimed := by
    cases hf : m.free with
    | nil => simp [Memory.place, hf]
    | cons j free => simp [Memory.place, hf]
  obtain ⟨hsizes, hboundary, hcapacity, hreclaimed⟩ := hframe
  refine ⟨h.toWellFormed.place room, h.offered.place, hsizes.trans h.sizes, ?_, ?_, ?_, ?_⟩
  · rw [hboundary, hsize]
    exact Nat.le_succ_of_le h.boundary
  · rw [hcapacity, hsize]
    exact hroom
  · rw [hcapacity]
    exact h.capped
  · rw [hsize, hreclaimed, ← h.balance]
    omega

/-- A reclamation takes as many entries out of the table as it counts, and none of those that stay
old. -/
theorem reclaim (h : Books settings n m) (roots : List Value) (scope : Scope) :
    Books settings n (m.reclaim roots scope).2 := by
  have hcount : (m.reclaim roots scope).2.reclaimed = m.reclaimed + (m.reclaim roots scope).1 :=
    reclaim_reclaimed ..
  have hsplit := m.table.toList.length_eq_length_filter_add (m.reclaim roots scope).2.isLive
  rw [← reclaim_order h.toTabled, ← reclaim_count h.toTabled, Array.length_toList,
    Array.length_toList] at hsplit
  have hcapacity : (m.reclaim roots scope).2.capacity = m.capacity := by
    rw [reclaim_frame]
    rfl
  have hsizes : (m.reclaim roots scope).2.settings = m.settings := by
    rw [reclaim_frame]
    rfl
  refine ⟨h.toWellFormed.reclaim roots scope, h.offered.reclaim roots scope, hsizes.trans h.sizes,
    oldBoundary_reclaim_le h.boundary, ?_, hcapacity ▸ h.capped, ?_⟩
  · have hwithin := h.within
    omega
  · have hbalance := h.balance
    omega

/-- How a registration ends. -/
inductive Registration (settings : TableSettings) (m : Memory) (o : Object) : Prop
  /-- The table has reached its maximum. -/
  | refused (hsize : m.table.size = settings.maximum)
      (hrun : Memory.registerHashed o m = .error (.objectTableFull settings.maximum) m)
  /-- The table would have to grow by more than a word holds. -/
  | panicked (hsize : m.table.size ≠ settings.maximum) (hfits : ¬ settings.Fits)
      (hrun : Memory.registerHashed o m = .error m.growthPanic m)
  /-- The object is placed, after the table has grown if need be. -/
  | placed (hsize : m.table.size ≠ settings.maximum) (hroom : m.readied.table.size < m.readied.capacity)
      (hrun : Memory.registerHashed o m = .ok (m.readied.place o).1 (m.readied.place o).2)

theorem registerHashed (h : Books settings n m) (hgrowth : 1 ≤ settings.growth) (o : Object) :
    Registration settings m o := by
  have hwithin := h.within
  have hcapped := h.capped
  have hsizes := h.sizes
  have hrun := registerHashed_eq o m
  by_cases hfull : m.isFull = true
  · have hsize : m.capacity ≤ m.table.size := of_decide_eq_true hfull
    cases hgrow : m.canGrow with
    | false =>
      have hmaximum : ¬ m.capacity < m.settings.maximum := of_decide_eq_false hgrow
      have hall : m.table.size = settings.maximum := by rw [hsizes] at hmaximum; omega
      rw [hfull, hgrow, if_pos (by rfl), hall] at hrun
      exact .refused hall hrun
    | true =>
      have hmaximum : m.capacity < m.settings.maximum := of_decide_eq_true hgrow
      rw [hfull, hgrow, if_neg (by simp)] at hrun
      by_cases hfits : m.GrowthFits
      · rw [if_neg fun e => e.2 hfits] at hrun
        refine .placed (by rw [hsizes] at hmaximum; omega) ?_ hrun
        simp only [Memory.readied, hfull, if_true, Memory.grown, hsizes]
        rw [hsizes] at hmaximum
        omega
      · rw [if_pos ⟨rfl, hfits⟩] at hrun
        refine .panicked (by rw [hsizes] at hmaximum; omega) (fun e => ?_) hrun
        exact hfits (growthFits_of_canGrow (hsizes ▸ e) hgrow)
  · have hsize : ¬ m.capacity ≤ m.table.size := fun e => hfull (decide_eq_true e)
    have hready : m.readied = m := if_neg hfull
    rw [if_neg (by simp [hfull]), if_neg fun e => hfull e.1] at hrun
    exact .placed (by omega) (by rw [hready]; omega) hrun

end Books

/-! ### Runs -/

/-- What can be done to a memory. -/
inductive Operation where
  | register (o : Object)
  | registerHashed (o : Object)
  | write (v : Value) (i : Nat) (x : Value)
  | become (source target : List Value) (twoWay : Bool)
  | pin (v : Value)
  | releasePins (count : Nat)
  | reclaim (roots : List Value) (scope : Scope)
  | grow
  | markOldBoundary
  | setHashSeed (seed : UInt32)
  | indexOf (v : Value)
  | enumerate (start : Nat) (cls : Option Value)

/-- A memory together with the number of objects that have been registered in it. -/
abbrev Account := Nat × Memory

/-- A registration, which counts if it succeeds. -/
def Account.register (attempt : Change Value) (s : Account) : Account :=
  match attempt s.2 with
  | .ok _ m => (s.1 + 1, m)
  | .error _ m => (s.1, m)

/-- The memory after an attempt, whether it succeeds or not. -/
def attempted {α : Type} (attempt : Change α) (m : Memory) : Memory :=
  match attempt m with
  | .ok _ m => m
  | .error _ m => m

theorem attempted_grow (m : Memory) :
    attempted Memory.grow m = if m.GrowthFits then m.grown else m := by
  rw [attempted, grow_eq]
  by_cases hfits : m.GrowthFits
  · rw [if_pos hfits, if_pos hfits]
  · rw [if_neg hfits, if_neg hfits]

/-- A registration that fails leaves the account as it was. -/
theorem Account.register_cases (o : Object) (s : Account) :
    s.register (Memory.registerHashed o) = s ∨
      s.register (Memory.registerHashed o) = (s.1 + 1, (s.2.readied.place o).2) := by
  rw [Account.register]
  cases hrun : Memory.registerHashed o s.2 with
  | ok v m =>
    obtain ⟨-, rfl⟩ := registerHashed_ok hrun
    exact .inr rfl
  | error e m =>
    obtain rfl := registerHashed_error hrun
    exact .inl rfl

/-- Carries out one operation. What is refused changes nothing but the identity hash sequence. -/
def Operation.perform : Operation → Account → Account
  | register o, s => s.register (Memory.register o)
  | registerHashed o, s => s.register (Memory.registerHashed o)
  | write v i x, (n, m) => (n, m.setField v i x)
  | become source target twoWay, (n, m) =>
    match m.become source target twoWay with
    | .ok (_, m) => (n, m)
    | .error _ => (n, m)
  | pin v, (n, m) => (n, m.pin v)
  | releasePins count, (n, m) => (n, m.releasePins count)
  | reclaim roots scope, (n, m) => (n, (m.reclaim roots scope).2)
  | grow, (n, m) => (n, if m.canGrow then attempted Memory.grow m else m)
  | markOldBoundary, (n, m) => (n, m.markOldBoundary)
  | setHashSeed seed, (n, m) => (n, m.setHashSeed seed)
  | indexOf v, (n, m) => (n, (m.indexOf v).2)
  | enumerate start cls, (n, m) => (n, (m.enumerate start cls).2)

/-- Carries out operations on an empty memory, one after the other. -/
def account (settings : TableSettings) (ops : List Operation) : Account :=
  ops.foldl (fun s op => op.perform s) (0, empty settings)

theorem later_register (o : Object) (s : Account) :
    Later s.2 (s.register (Memory.registerHashed o)).2 := by
  rcases s.register_cases o with hrun | hrun
  · rw [hrun]
    exact .refl s.2
  · rw [hrun]
    have hready : Later s.2 s.2.readied := by
      rw [readied_frame]
      exact .of_slots rfl
    exact hready.trans (later_place s.2.readied o)

/-- Slots only get older in an operation. -/
theorem Operation.later_perform (op : Operation) (s : Account) : Later s.2 (op.perform s).2 := by
  cases op with
  | register o =>
    have hseed : Later s.2 (s.2.setHashSeed (nextSeed s.2.hashSeed)) := .of_slots rfl
    exact hseed.trans (later_register _ (s.1, s.2.setHashSeed (nextSeed s.2.hashSeed)))
  | registerHashed o => exact later_register o s
  | write v i x => exact later_modify ..
  | become source target twoWay =>
    simp only [perform, Memory.become]
    cases Renaming.ofLists source target twoWay with
    | error refusal => exact .refl s.2
    | ok r => exact later_rename ..
  | pin v => exact .of_slots rfl
  | releasePins count => exact .of_slots rfl
  | reclaim roots scope => exact later_reclaim ..
  | grow =>
    simp only [perform, attempted_grow]
    split
    · split
      · exact .of_slots rfl
      · exact .refl s.2
    · exact .refl s.2
  | markOldBoundary => exact .of_slots rfl
  | setHashSeed seed => exact .of_slots rfl
  | indexOf v =>
    simp only [perform, Memory.indexOf]
    split
    · exact .refl s.2
    · split
      · exact .of_slots rfl
      · exact .refl s.2
  | enumerate start cls =>
    simp only [perform, Memory.enumerate]
    split
    · exact .of_slots rfl
    · exact .refl s.2

theorem later_foldl_perform (ops : List Operation) (s : Account) :
    Later s.2 (ops.foldl (fun s op => op.perform s) s).2 := by
  induction ops generalizing s with
  | nil => exact .refl s.2
  | cons op ops ih => exact (op.later_perform s).trans (ih (op.perform s))

theorem Books.account_register {s : Account} (h : Books settings s.1 s.2)
    (hgrowth : 1 ≤ settings.growth) (o : Object)
    (room : (s.register (Memory.registerHashed o)).2.Addressable) :
    Books settings (s.register (Memory.registerHashed o)).1
      (s.register (Memory.registerHashed o)).2 := by
  cases h.registerHashed hgrowth o with
  | refused _ hrun =>
    simp only [Account.register, hrun]
    exact h
  | panicked _ _ hrun =>
    simp only [Account.register, hrun]
    exact h
  | placed _ hroom hrun =>
    simp only [Account.register, hrun] at room ⊢
    exact h.readied.place hroom room

/-- Every operation keeps the books. -/
theorem Books.perform {s : Account} (h : Books settings s.1 s.2) (hgrowth : 1 ≤ settings.growth)
    (op : Operation) (room : (op.perform s).2.Addressable) :
    Books settings (op.perform s).1 (op.perform s).2 := by
  cases op with
  | register o =>
    have hseed : Books settings s.1 (s.2.setHashSeed (nextSeed s.2.hashSeed)) :=
      h.alike rfl rfl rfl rfl rfl rfl rfl
    exact account_register (s := (s.1, s.2.setHashSeed (nextSeed s.2.hashSeed))) hseed hgrowth _ room
  | registerHashed o => exact h.account_register hgrowth o room
  | write v i x => exact h.modify v _
  | become source target twoWay =>
    simp only [Operation.perform, Memory.become]
    cases Renaming.ofLists source target twoWay with
    | error refusal => exact h
    | ok r => exact h.rename r
  | pin v => exact h.alike rfl rfl rfl rfl rfl rfl rfl
  | releasePins count => exact h.alike rfl rfl rfl rfl rfl rfl rfl
  | reclaim roots scope => exact h.reclaim roots scope
  | grow =>
    simp only [Operation.perform, attempted_grow]
    split
    · split
      · exact h.grown
      · exact h
    · exact h
  | markOldBoundary => exact h.markOldBoundary
  | setHashSeed seed => exact h.alike rfl rfl rfl rfl rfl rfl rfl
  | indexOf v =>
    simp only [Operation.perform, Memory.indexOf]
    split
    · exact h
    · split
      · exact h.alike rfl rfl rfl rfl rfl rfl rfl
      · exact h
  | enumerate start cls =>
    simp only [Operation.perform, Memory.enumerate]
    split
    · exact h.alike rfl rfl rfl rfl rfl rfl rfl
    · exact h

/-- So does every run. -/
theorem Books.foldl_perform {s : Account} (h : Books settings s.1 s.2)
    (hgrowth : 1 ≤ settings.growth) (ops : List Operation)
    (room : (ops.foldl (fun s op => op.perform s) s).2.Addressable) :
    Books settings (ops.foldl (fun s op => op.perform s) s).1
      (ops.foldl (fun s op => op.perform s) s).2 := by
  induction ops generalizing s with
  | nil => exact h
  | cons op ops ih =>
    -- the generations of a memory that can be addressed at the end never were greater
    have hmid := (later_foldl_perform ops (op.perform s)).addressable room
    exact ih (h.perform hgrowth op hmid) room

/-- A registration that is refused exactly if the table holds as many objects as it may. With sizes
whose sum leaves a word it may also panic. -/
structure RefusedWhenFull (settings : TableSettings) (m : Memory) (attempt : Change Value) :
    Prop where
  full : m.table.size = settings.maximum →
    ∃ m', attempt m = .error (.objectTableFull settings.maximum) m'
  room : m.table.size ≠ settings.maximum → (∃ v m', attempt m = .ok v m') ∨
    ¬ settings.Fits ∧ ∃ m', attempt m = .error m.growthPanic m'

theorem Books.refusedWhenFull (h : Books settings n m) (hgrowth : 1 ≤ settings.growth)
    (o : Object) : RefusedWhenFull settings m (Memory.registerHashed o) := by
  cases h.registerHashed hgrowth o with
  | refused hsize hrun => exact ⟨fun _ => ⟨m, hrun⟩, fun hne => absurd hsize hne⟩
  | panicked hsize hfits hrun =>
    exact ⟨fun he => absurd he hsize, fun _ => .inr ⟨hfits, m, hrun⟩⟩
  | placed hsize _ hrun => exact ⟨fun he => absurd he hsize, fun _ => .inl ⟨_, _, hrun⟩⟩

/-- After every run the books are right, and registration is refused exactly if the table is full. (Sizes
below `2^32` always fit a word together.) -/
theorem account_books (hgrowth : 1 ≤ settings.growth) (ops : List Operation)
    (room : (account settings ops).2.Addressable) :
    Books settings (account settings ops).1 (account settings ops).2 ∧
      ∀ o, RefusedWhenFull settings (account settings ops).2 (Memory.register o) ∧
        RefusedWhenFull settings (account settings ops).2 (Memory.registerHashed o) := by
  have h : Books settings (account settings ops).1 (account settings ops).2 :=
    Books.foldl_perform (books_empty settings) hgrowth ops room
  refine ⟨h, fun o => ⟨?_, h.refusedWhenFull hgrowth o⟩⟩
  have hseed : Books settings (account settings ops).1 ((account settings ops).2.setHashSeed
      (nextSeed (account settings ops).2.hashSeed)) := h.alike rfl rfl rfl rfl rfl rfl rfl
  have hrefused := hseed.refusedWhenFull hgrowth
    { o with hash := seedHash (nextSeed (account settings ops).2.hashSeed) }
  exact ⟨hrefused.full, hrefused.room⟩

/-- A table that starts with one place and may have two. -/
def narrow : TableSettings := { initial := 1, growth := 1, maximum := 2 }

/-- A third object is refused; after the first is freed its slot is used again. -/
def reuse : List Operation :=
  let object := Object.ofBytes (.small 0) #[]
  [.register object, .register object, .markOldBoundary, .register object,
    .reclaim [.ref 1 0] .full, .registerHashed object]

theorem addressable_reuse : (account narrow reuse).2.Addressable := by
  have hgenerations : (account narrow reuse).2.slots.map Slot.generation = #[1, 0] := by cbv
  have hsize := congrArg Array.size hgenerations
  simp only [Array.size_map, List.size_toArray, List.length_cons, List.length_nil] at hsize
  refine ⟨by omega, fun i slot hs => ?_⟩
  have hslot := congrArg (fun generations => generations[i]?) hgenerations
  simp only [Array.getElem?_map, hs, Option.map_some] at hslot
  have hmem : slot.generation ∈ #[(1 : UInt32), 0] := Array.mem_of_getElem? hslot.symm
  simp only [List.mem_toArray, List.mem_cons, List.not_mem_nil, or_false] at hmem
  rcases hmem with hg | hg
  · rw [hg]
    decide
  · rw [hg]
    decide

/-- Three of four registrations succeed, two objects are left, one of them in its slot's second
generation. -/
theorem account_books_reuse : (account narrow reuse).2.Addressable ∧
    ((account narrow reuse).1 = 3 ∧ (account narrow reuse).2.table.size = 2) ∧
    Books narrow (account narrow reuse).1 (account narrow reuse).2 ∧
      ∀ o, RefusedWhenFull narrow (account narrow reuse).2 (Memory.register o) ∧
        RefusedWhenFull narrow (account narrow reuse).2 (Memory.registerHashed o) :=
  ⟨addressable_reuse, by cbv,
    account_books (by decide) reuse addressable_reuse⟩

end Smalltalk.Memory
