import Smalltalk.Proofs.Bookkeeping

/-!
# How large the table gets

A table that is full grows by one step before the next object is entered, and a registration is
refused only if the capacity has reached the maximum. Nothing looks whether the step has made room.
So the capacity bounds the number of objects if a step is at least one place, or if there is nothing
to grow because the table starts at its maximum. With steps of no places a table that starts below
its maximum takes every object, and neither bound holds. A step that takes the capacity out of a word
panics, and then nothing is entered.
-/

namespace Smalltalk

/-- Whether a table of these sizes has room after it has grown, or never grows. -/
def TableSettings.Bounds (settings : TableSettings) : Prop :=
  1 ≤ settings.growth ∨ settings.maximum ≤ settings.initial

instance (settings : TableSettings) : Decidable settings.Bounds := inferInstanceAs (Decidable (_ ∨ _))

namespace Memory

variable {m m' : Memory} {o : Object} {settings : TableSettings}

/-! ### What each operation keeps -/

/-- The sizes of a table, however it was set up. -/
structure Sized (settings : TableSettings) (m : Memory) : Prop where
  sizes : m.settings = settings
  least : min settings.initial settings.maximum ≤ m.capacity
  capped : m.capacity ≤ settings.maximum
  within : settings.Bounds → m.table.size ≤ m.capacity
  still : settings.growth = 0 → m.capacity = min settings.initial settings.maximum

theorem sized_empty (settings : TableSettings) : Sized settings (empty settings) where
  sizes := rfl
  least := Nat.le_refl _
  capped := Nat.min_le_right ..
  within _ := Nat.zero_le _
  still _ := rfl

namespace Sized

/-- What leaves the capacity alone and adds nothing to the table keeps the sizes. -/
theorem alike (h : Sized settings m) (hsizes : m'.settings = m.settings)
    (hcapacity : m'.capacity = m.capacity) (htable : m'.table.size ≤ m.table.size) :
    Sized settings m' where
  sizes := hsizes.trans h.sizes
  least := hcapacity ▸ h.least
  capped := hcapacity ▸ h.capped
  within hb := hcapacity ▸ htable.trans (h.within hb)
  still hg := hcapacity.trans (h.still hg)

theorem grown (h : Sized settings m) : Sized settings m.grown := by
  have hcapped := h.capped
  have hleast := h.least
  have hcapacity : m.grown.capacity = min (m.capacity + settings.growth) settings.maximum := by
    simp only [Memory.grown, h.sizes]
  refine ⟨h.sizes, ?_, ?_, fun hb => ?_, fun hg => ?_⟩
  · omega
  · omega
  · exact (h.within hb).trans (by omega)
  · have hstill := h.still hg
    omega

theorem readied (h : Sized settings m) : Sized settings m.readied := by
  rw [Memory.readied]
  split
  · exact h.grown
  · exact h

/-- A table that is not full, or can grow, has room afterwards or never will. -/
theorem readied_room (h : Sized settings m) (hfree : (m.isFull && !m.canGrow) = false)
    (hb : settings.Bounds) : m.readied.table.size < m.readied.capacity := by
  have hleast := h.least
  have hwithin := h.within hb
  rw [Memory.readied]
  cases hfull : m.isFull with
  | false =>
    have hroom : m.table.size < m.capacity := by simpa [isFull] using hfull
    simpa using hroom
  | true =>
    rw [hfull, Bool.true_and, Bool.not_eq_false'] at hfree
    have hlt : m.capacity < settings.maximum := by simpa [canGrow, h.sizes] using hfree
    have hcapacity : m.grown.capacity = min (m.capacity + settings.growth) settings.maximum := by
      simp only [Memory.grown, h.sizes]
    rw [if_pos rfl]
    change m.table.size < m.grown.capacity
    rcases hb with hgrowth | hmaximum
    · omega
    · omega

theorem place (h : Sized settings m) (hroom : settings.Bounds → m.table.size < m.capacity) :
    Sized settings (m.place o).2 := by
  have hframe : (m.place o).2.settings = m.settings ∧ (m.place o).2.capacity = m.capacity := by
    cases hf : m.free with
    | nil => simp [Memory.place, hf]
    | cons j free => simp [Memory.place, hf]
  obtain ⟨hsizes, hcapacity⟩ := hframe
  refine ⟨hsizes.trans h.sizes, hcapacity ▸ h.least, hcapacity ▸ h.capped, fun hb => ?_,
    fun hg => hcapacity.trans (h.still hg)⟩
  rw [place_table, Array.size_push, hcapacity]
  exact hroom hb

/-- A registration that enters an object keeps the sizes. -/
theorem registered {v : Value} (h : Sized settings m) (hrun : Memory.registerHashed o m = .ok v m') :
    Sized settings m' := by
  obtain ⟨-, rfl⟩ := registerHashed_ok hrun
  rw [registerHashed_eq] at hrun
  cases hfree : m.isFull && !m.canGrow with
  | false => exact h.readied.place (h.readied_room hfree)
  | true =>
    rw [hfree, if_pos rfl] at hrun
    cases hrun

theorem account_register {s : Account} (h : Sized settings s.2) (o : Object) :
    Sized settings (s.register (Memory.registerHashed o)).2 := by
  rw [Account.register]
  cases hrun : Memory.registerHashed o s.2 with
  | ok v m => exact h.registered hrun
  | error e m =>
    obtain rfl := registerHashed_error hrun
    exact h

theorem modify (h : Sized settings m) (v : Value) (f : Object → Object) :
    Sized settings (m.modify v f) := by
  rw [modify_frame]
  exact h.alike rfl rfl (Nat.le_refl _)

theorem reclaim (h : Sized settings m) (roots : List Value) (scope : Scope) :
    Sized settings (m.reclaim roots scope).2 := by
  refine h.alike (by rw [reclaim_frame]; rfl) (by rw [reclaim_frame]; rfl) ?_
  -- the entries that are left are some of those there were
  have hlength := congrArg List.length (reclaim_table m roots scope)
  have hfilter := List.length_filter_le (markOf (m.reclaimMarks roots scope))
    (m.table.toList.drop (m.sweepStart scope))
  simp only [Array.length_toList, List.length_append, List.length_take, List.length_drop] at hlength hfilter
  omega

theorem perform {s : Account} (h : Sized settings s.2) (op : Operation) :
    Sized settings (op.perform s).2 := by
  cases op with
  | register o =>
    exact account_register (s := (s.1, s.2.setHashSeed (nextSeed s.2.hashSeed)))
      (h.alike rfl rfl (Nat.le_refl _)) _
  | registerHashed o => exact h.account_register o
  | write v i x => exact h.modify v _
  | become source target twoWay =>
    simp only [Operation.perform, Memory.become]
    cases Renaming.ofLists source target twoWay with
    | error refusal => exact h
    | ok r => exact h.alike rfl rfl (Nat.le_refl _)
  | pin v => exact h.alike rfl rfl (Nat.le_refl _)
  | releasePins count => exact h.alike rfl rfl (Nat.le_refl _)
  | reclaim roots scope => exact h.reclaim roots scope
  | grow =>
    simp only [Operation.perform, attempted_grow]
    split
    · split
      · exact h.grown
      · exact h
    · exact h
  | markOldBoundary => exact h.alike rfl rfl (Nat.le_refl _)
  | setHashSeed seed => exact h.alike rfl rfl (Nat.le_refl _)
  | indexOf v =>
    simp only [Operation.perform, Memory.indexOf]
    split
    · exact h
    · split
      · exact h.alike rfl rfl (Nat.le_refl _)
      · exact h
  | enumerate start cls =>
    simp only [Operation.perform, Memory.enumerate]
    split
    · exact h.alike rfl rfl (Nat.le_refl _)
    · exact h

theorem foldl_perform {s : Account} (h : Sized settings s.2) (ops : List Operation) :
    Sized settings (ops.foldl (fun s op => op.perform s) s).2 := by
  induction ops generalizing s with
  | nil => exact h
  | cons op ops ih => exact ih (h.perform op)

end Sized

/-! ### Every run -/

theorem sized_account (settings : TableSettings) (ops : List Operation) :
    Sized settings (account settings ops).2 :=
  Sized.foldl_perform (s := (0, empty settings)) (sized_empty settings) ops

/-- A registration panics if the table has to grow and the step takes the capacity out of a word. -/
def Overgrown (m : Memory) : Prop := m.isFull = true ∧ m.canGrow = true ∧ ¬ m.GrowthFits

/-- Only a step of growth makes a registration panic. -/
theorem registerHashed_panics (o : Object) (m : Memory) :
    (∃ p m', registerHashed o m = .error (.panic p) m') ↔ m.Overgrown := by
  rw [registerHashed_eq, Overgrown]
  cases m.isFull <;> cases m.canGrow <;> by_cases h : m.GrowthFits <;> simp [h, growthPanic]

/-- A table that never has room takes every object. -/
theorem Sized.register_unbounded (h : Sized settings m) (hb : ¬ settings.Bounds) (o : Object) :
    ∃ v m', register o m = .ok v m' ∧ m'.table.size = m.table.size + 1 := by
  obtain ⟨hgrowth, hmaximum⟩ := not_or.1 hb
  have hstill := h.still (by omega)
  have hwords := settings.words
  have hsame : (m.setHashSeed (nextSeed m.hashSeed)).capacity = m.capacity := rfl
  have hsizes : (m.setHashSeed (nextSeed m.hashSeed)).settings = settings := h.sizes
  have hgrow : (m.setHashSeed (nextSeed m.hashSeed)).canGrow = true := by
    simp only [canGrow, hsame, hsizes, decide_eq_true_eq]
    omega
  have hfits : (m.setHashSeed (nextSeed m.hashSeed)).GrowthFits := by
    simp only [GrowthFits, hsame, hsizes]
    omega
  have hrun := registerHashed_eq { o with hash := seedHash (nextSeed m.hashSeed) }
    (m.setHashSeed (nextSeed m.hashSeed))
  rw [hgrow, if_neg (by simp), if_neg fun e => e.2 hfits] at hrun
  refine ⟨_, _, hrun, ?_⟩
  rw [place_table, Array.size_push, readied_frame]
  rfl

/-- Registering one object more often than there are places. -/
theorem exists_overfull (hb : ¬ settings.Bounds) (k : Nat) :
    ∃ ops, (account settings ops).2.table.size = k := by
  induction k with
  | zero => exact ⟨[], rfl⟩
  | succ k ih =>
    obtain ⟨ops, hops⟩ := ih
    obtain ⟨v, m', hrun, hsize⟩ :=
      (sized_account settings ops).register_unbounded hb (.ofBytes (.small 0) #[])
    refine ⟨ops ++ [.register (.ofBytes (.small 0) #[])], ?_⟩
    rw [account, List.foldl_append, List.foldl_cons, List.foldl_nil]
    change ((account settings ops).register (Memory.register _)).2.table.size = k + 1
    rw [Account.register, hrun, hsize, hops]

/-- The capacity never exceeds the maximum. It bounds the number of objects in every run exactly if a
step of growth makes room or the table never grows; else every registration succeeds, and the
capacity stays what it was. A registration panics exactly if it needs a step that does not fit a
word. -/
theorem capacity_bounds (settings : TableSettings) :
    (∀ ops, (account settings ops).2.capacity ≤ settings.maximum) ∧
    ((∀ ops, (account settings ops).2.table.size ≤ (account settings ops).2.capacity) ↔
      settings.Bounds) ∧
    (¬ settings.Bounds → ∀ ops, (account settings ops).2.capacity = settings.initial ∧
      ∀ o, ∃ v m', register o (account settings ops).2 = .ok v m' ∧
        m'.table.size = (account settings ops).2.table.size + 1) ∧
    ∀ ops o, (∃ p m', register o (account settings ops).2 = .error (.panic p) m') ↔
      (account settings ops).2.Overgrown := by
  refine ⟨fun ops => (sized_account settings ops).capped, ⟨fun hall => ?_, fun hb ops =>
    (sized_account settings ops).within hb⟩, fun hb ops => ⟨?_, fun o => ?_⟩,
    fun ops o => registerHashed_panics { o with hash := _ } ((account settings ops).2.setHashSeed _)⟩
  · by_contra hb
    obtain ⟨ops, hsize⟩ := exists_overfull hb (settings.maximum + 1)
    have hwithin := hall ops
    have hcapped := (sized_account settings ops).capped
    omega
  · obtain ⟨hgrowth, hmaximum⟩ := not_or.1 hb
    have hstill := (sized_account settings ops).still (by omega)
    omega
  · exact (sized_account settings ops).register_unbounded hb o

/-- A table with one place, at most two, and steps of none holds three objects. -/
example : (account { initial := 1, growth := 0, maximum := 2 } (List.replicate 3
    (.register (.ofBytes (.small 0) #[])))).2.table.size = 3 := by cbv

end Memory

end Smalltalk
