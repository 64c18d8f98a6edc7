import Smalltalk.Proofs.Bookkeeping
import Smalltalk.Proofs.Registration

/-!
# When there is no room

An allocation that finds the table full reclaims young objects several times, gives up caches and
pooled contexts on the way, lets the table grow, and as a last resort reclaims all objects. It counts
what it frees. As the table is exact, the count tells how many entries are gone, so anything freed at
all is room for one more object; and if nothing was freed, no object was ever touched, and the last
reclamation has looked at all of them without the pooled contexts for roots. So an allocation fails
exactly when the table has as many entries as it may have and each of them can be reached from what
the machine cannot give up. Before it comes to that it may panic, if the table or its objects may
become so large that their sizes leave a word.

What is answered otherwise is a reference of its own, and it resolves to the new object, with one
exception: the slot that the object gets may have been vacated, by the very reclamation that made the
room, from the last generation that a reference can name.
-/

namespace Smalltalk

open Outcome

/-- What the machine holds on to and cannot give up: its roots without the pooled contexts, and the
pins. -/
def Machine.lasting (m : Machine) : List Value :=
  { m with pool := m.pool.clear }.roots ++ m.memory.pins.toList

theorem Machine.lasting_subset (m : Machine) (scope : Scope) :
    m.lasting ⊆ m.roots ++ m.memory.heldRoots scope := by
  have hpins : m.memory.pins.toList ⊆ m.memory.heldRoots scope := by
    cases scope with
    | young => exact List.subset_append_left _ _
    | full => exact List.Subset.refl _
  have hroots : { m with pool := m.pool.clear }.roots ⊆ m.roots := by
    intro v hv
    simp only [roots, ContextPool.clear, ContextPool.roots, List.mem_append] at hv ⊢
    rcases hv with (hv | hv) | hv
    · exact .inl (.inl hv)
    · simp at hv
    · exact .inr hv
  exact List.append_subset.2 ⟨List.subset_append_of_subset_left _ hroots,
    List.subset_append_of_subset_right _ hpins⟩

/-- The table has as many entries as it may have, and none of them can be freed. -/
def Machine.Crowded (m : Machine) : Prop :=
  m.memory.table.size = m.memory.settings.maximum ∧
    ∀ v ∈ m.memory.table, m.memory.Reachable m.lasting v

/-- An action ends as `Q` says, or else it panics, which it does not while `safe` holds. -/
def Action.Fares {α : Type} (safe : Prop) (x : Action α) (m : Machine) (Q : α → Machine → Prop) :
    Prop :=
  (∃ a m', x m = .ok a m' ∧ Q a m') ∨ x.Panics m ∧ ¬ safe

namespace Action.Fares

variable {α β : Type} {safe safe' : Prop} {x : Action α} {m m' : Machine} {P Q : α → Machine → Prop}

theorem of_ok {a : α} (hrun : x m = .ok a m') (hQ : Q a m') : Fares safe x m Q :=
  .inl ⟨a, m', hrun, hQ⟩

theorem bind {f : α → Action β} {Q : β → Machine → Prop} (hx : Fares safe x m P)
    (hf : ∀ a m', P a m' → Fares safe (f a) m' Q) : Fares safe (x >>= f) m Q := by
  rcases hx with ⟨a, m₁, hrun, hP⟩ | ⟨hpanics, hsafe⟩
  · rcases hf a m₁ hP with ⟨b, m₂, hrest, hQ⟩ | ⟨hpanics, hsafe⟩
    · exact .inl ⟨b, m₂, (bind_of_ok hrun).trans hrest, hQ⟩
    · exact .inr ⟨.of_ok hrun hpanics, hsafe⟩
  · exact .inr ⟨hpanics.bind, hsafe⟩

theorem mono (h : Fares safe x m P) (hQ : ∀ a m', P a m' → Q a m') : Fares safe x m Q :=
  h.imp_left fun ⟨a, m', hrun, hP⟩ => ⟨a, m', hrun, hQ a m' hP⟩

theorem imp (h : Fares safe x m Q) (hsafe : safe' → safe) : Fares safe' x m Q :=
  h.imp_right fun ⟨hpanics, hnot⟩ => ⟨hpanics, fun hs => hnot (hsafe hs)⟩

end Action.Fares

/-! ### Freeing objects -/

/-- `m'` is `m` with `freed` objects fewer, none of which can be reached from what lasts. -/
structure Frees (settings : TableSettings) (n : Nat) (m : Machine) (freed : Nat) (m' : Machine) :
    Prop where
  books : Memory.Books settings n m'.memory
  lasting : m'.lasting = m.lasting
  kept : ∀ v, m.memory.Reachable m.lasting v → m'.memory.get? v = m.memory.get? v
  same : ∀ v, m'.memory.isLive v = true → m'.memory.get? v = m.memory.get? v
  order : m'.memory.table.toList.Sublist m.memory.table.toList
  count : m'.memory.table.size + freed = m.memory.table.size
  capacity : m'.memory.capacity = m.memory.capacity
  hashSeed : m'.memory.hashSeed = m.memory.hashSeed
  vacates : m.memory.Vacates m'.memory

namespace Frees

variable {settings : TableSettings} {n freed freed' : Nat} {m m₁ m' : Machine} {v : Value}

theorem trans (h : Frees settings n m freed m₁) (h' : Frees settings n m₁ freed' m') :
    Frees settings n m (freed + freed') m' where
  books := h'.books
  lasting := h'.lasting.trans h.lasting
  kept v hv := by
    have hreach := hv.of_get? h.kept
    rw [← h.lasting] at hreach
    rw [h'.kept v hreach, h.kept v hv]
  same v hv := by
    have hsame := h'.same v hv
    rw [hsame, h.same v (by rwa [Memory.isLive, hsame] at hv)]
  order := h'.order.trans h.order
  count := by rw [← h.count, ← h'.count]; omega
  capacity := h'.capacity.trans h.capacity
  hashSeed := h'.hashSeed.trans h.hashSeed
  vacates := h.vacates.trans h'.vacates

/-- What the memory does not know may change. -/
theorem alike (h : Memory.Books settings n m.memory) (hmemory : m'.memory = m.memory)
    (hlasting : m'.lasting = m.lasting) : Frees settings n m 0 m' where
  books := by rw [hmemory]; exact h
  lasting := hlasting
  kept v _ := by rw [hmemory]
  same v _ := by rw [hmemory]
  order := by rw [hmemory]
  count := by rw [hmemory, Nat.add_zero]
  capacity := by rw [hmemory]
  hashSeed := by rw [hmemory]
  vacates := .of_slots (by rw [hmemory])

/-- What can be reached from what lasts stays in the table. -/
theorem mem_table (h : Frees settings n m freed m') (hv : m.memory.Reachable m.lasting v) :
    v ∈ m'.memory.table := by
  rw [h.books.listed, Memory.isLive, h.kept v hv]
  exact hv.live

/-- From a crowded machine nothing is freed. -/
theorem eq_zero_of_crowded (h : Frees settings n m freed m') (hm : Memory.Books settings n m.memory)
    (hcrowded : m.Crowded) : freed = 0 := by
  have hsub : m.memory.table.toList ⊆ m'.memory.table.toList := fun v hv =>
    Array.mem_toList_iff.2 (h.mem_table (hcrowded.2 v (Array.mem_toList_iff.1 hv)))
  have hle := (hm.once.subperm hsub).length_le
  have hcount := h.count
  rw [Array.length_toList, Array.length_toList] at hle
  omega

/-- What is left is no larger than it was. -/
theorem roomy (h : Frees settings n m freed m') (hm : Memory.Books settings n m.memory)
    (hample : m.memory.Ample) : m'.memory.Ample := by
  have hsizes : m'.memory.settings = m.memory.settings := h.books.sizes.trans hm.sizes.symm
  refine ⟨hsizes ▸ hample.settings, hsizes ▸ hample.spacious.1, fun v hv o ho => ?_⟩
  have hlive := (h.books.listed v).1 hv
  rw [h.same v hlive] at ho
  rw [hsizes]
  exact hample.spacious.2 v ((hm.listed v).2 (Memory.isLive_of_get? ho)) o ho

/-- Anything freed is room, and nothing is freed of a crowded machine. -/
theorem room (h : Frees settings n m freed m') (hm : Memory.Books settings n m.memory)
    (hpos : 0 < freed) : ¬ m.Crowded ∧ m'.memory.isFull = false := by
  refine ⟨fun hcrowded => absurd (h.eq_zero_of_crowded hm hcrowded) (Nat.ne_of_gt hpos), ?_⟩
  have hcount := h.count
  have hcapacity := h.capacity
  have hwithin := hm.within
  simp only [Memory.isFull, decide_eq_false_iff_not]
  omega

/-- Where nothing was freed, all is as before. -/
theorem get?_of_zero (h : Frees settings n m 0 m') (hm : Memory.Books settings n m.memory) :
    m'.memory.table = m.memory.table ∧ m'.memory.get? = m.memory.get? := by
  have htable : m'.memory.table.toList = m.memory.table.toList :=
    h.order.eq_of_length (by simpa using h.count)
  have htable : m'.memory.table = m.memory.table := Array.toList_inj.1 htable
  refine ⟨htable, funext fun v => ?_⟩
  by_cases live : m'.memory.isLive v = true
  · exact h.same v live
  · have dead : ¬ m.memory.isLive v = true := fun hv =>
      live ((h.books.listed v).1 (htable ▸ (hm.listed v).2 hv))
    rw [Memory.get?_eq_none.2 (Bool.eq_false_iff.2 live),
      Memory.get?_eq_none.2 (Bool.eq_false_iff.2 dead)]

end Frees

namespace Action

variable {settings : TableSettings} {n freed wanted count : Nat} {m m' : Machine} {v : Value}
  {o o' : Object}

theorem swept_frees (h : Memory.Books settings n m.memory) (scope : Scope) :
    Frees settings n m (m.memory.reclaim m.roots scope).1 (swept m scope) := by
  have hframe := Memory.reclaim_frame m.memory m.roots scope
  exact {
    books := h.reclaim m.roots scope
    lasting := by
      have hpins : (m.memory.reclaim m.roots scope).2.pins = m.memory.pins := by
        rw [hframe]
        rfl
      exact congrArg (_ ++ Array.toList ·) hpins
    kept := fun v hv => Memory.reclaim_spared (hv.mono (m.lasting_subset scope))
    same := fun v hv => Memory.reclaim_spared ((Memory.isLive_reclaim h.toTabled).1 hv)
    order := by
      have horder : (m.memory.reclaim m.roots scope).2.table.toList = _ :=
        Memory.reclaim_order h.toTabled
      exact horder ▸ List.filter_sublist
    count := by
      have hsplit := m.memory.table.toList.length_eq_length_filter_add
        (m.memory.reclaim m.roots scope).2.isLive
      rw [← Memory.reclaim_order h.toTabled, ← Memory.reclaim_count h.toTabled,
        Array.length_toList, Array.length_toList] at hsplit
      exact hsplit.symm
    capacity := by
      have hcapacity : (m.memory.reclaim m.roots scope).2.capacity = m.memory.capacity := by
        rw [hframe]
        rfl
      exact hcapacity
    hashSeed := by
      have hseed : (m.memory.reclaim m.roots scope).2.hashSeed = m.memory.hashSeed := by
        rw [hframe]
        rfl
      exact hseed
    vacates := .reclaim m.memory m.roots scope }

theorem noted_frees (h : Memory.Books settings n m.memory) (left : Int) :
    Frees settings n m 0 (noted m left) := by
  rw [noted_frame]
  exact .alike h rfl rfl

/-- A reclamation frees what it counts, and leaves what it has to spare. -/
structure Reclaims (settings : TableSettings) (n : Nat) (scope : Scope) (m : Machine) (freed : Nat)
    (m' : Machine) : Prop extends Frees settings n m freed m' where
  pool : m'.pool = m.pool
  spared : ∀ v, m'.memory.isLive v = true → m.memory.Spared m.roots scope v

theorem reclaim_fares (h : Memory.Books settings n m.memory) (scope : Scope) :
    Fares m.memory.Ample (reclaim scope) m (Reclaims settings n scope m) := by
  have hfrees := swept_frees h scope
  rw [Fares, Panics, reclaim_eq, Memory.spaceLeft_eq]
  by_cases hfits : (swept m scope).memory.SpaceFits
  · rw [if_pos hfits]
    exact .inl ⟨_, _, rfl, {
      toFrees := hfrees.trans (noted_frees hfrees.books _)
      pool := by rw [noted_frame]; rfl
      spared := fun v hv => by
        rw [noted_frame] at hv
        exact (Memory.isLive_reclaim h.toTabled).1 hv }⟩
  · rw [if_neg hfits]
    exact .inr ⟨⟨_, _, rfl⟩, fun hample =>
      hfits (Memory.spaceFits_of_spacious (hfrees.roomy h hample).spacious)⟩

/-- Young reclamations free what they count. If they have not freed enough, the pooled contexts have
been given up as soon as one turn says so. -/
theorem reclaimYoung_fares (h : Memory.Books settings n m.memory) (turns : List Bool)
    (hfreed : freed < wanted) :
    Fares m.memory.Ample (reclaimYoung wanted turns freed) m fun total m' =>
      ∃ count, total = freed + count ∧ Frees settings n m count m' ∧
        (freed + count < wanted → true ∈ turns ∨ m.pool.roots = [] → m'.pool.roots = []) := by
  induction turns generalizing m freed with
  | nil =>
    exact .of_ok rfl ⟨0, rfl, .alike h rfl rfl, fun _ hpool => hpool.resolve_left List.not_mem_nil⟩
  | cons giveUp turns ih =>
    -- a turn reclaims and may be the last one
    have turn : ∀ {m : Machine}, Memory.Books settings n m.memory → Fares m.memory.Ample (do
          let freed := freed + (← reclaim .young)
          if wanted ≤ freed then return freed else reclaimYoung wanted turns freed) m
        fun total m' => ∃ count, total = freed + count ∧ Frees settings n m count m' ∧
          (freed + count < wanted → true ∈ turns ∨ m.pool.roots = [] → m'.pool.roots = []) := by
      intro m h
      refine (reclaim_fares h .young).bind fun k m₁ hreclaims => ?_
      have hfrees := hreclaims.toFrees
      by_cases henough : wanted ≤ freed + k
      · refine .of_ok (if_pos henough ▸ rfl) ⟨k, rfl, hfrees, fun hlt => ?_⟩
        exact absurd henough (Nat.not_le.2 hlt)
      · dsimp only
        rw [if_neg henough]
        refine ((ih hfrees.books (Nat.not_le.1 henough)).imp (hfrees.roomy h)).mono ?_
        rintro _ m' ⟨count, rfl, hrest, hcleared⟩
        refine ⟨k + count, Nat.add_assoc .., hfrees.trans hrest, fun hlt hturns => ?_⟩
        exact hcleared (by omega) (hreclaims.pool.symm ▸ hturns)
    cases giveUp with
    | false =>
      refine (turn h).mono fun total m' ⟨count, htotal, hfrees, hcleared⟩ => ?_
      refine ⟨count, htotal, hfrees, fun hlt hturns => hcleared hlt ?_⟩
      exact hturns.imp_left fun hmem => by simpa using hmem
    | true =>
      have hgive : Frees settings n m 0 { m.flushCaches with pool := m.pool.clear } :=
        .alike h rfl rfl
      refine Fares.bind (P := fun _ m₁ => m₁ = { m.flushCaches with pool := m.pool.clear })
        (.of_ok (a := ()) (modify_ok.2 rfl) rfl) ?_
      rintro _ _ rfl
      refine (turn hgive.books).mono fun total m' ⟨count, htotal, hfrees, hcleared⟩ => ?_
      refine ⟨count, htotal, Nat.zero_add count ▸ hgive.trans hfrees, fun hlt _ => ?_⟩
      exact hcleared hlt (.inr rfl)

/-- When the last resort has freed nothing, the machine is crowded. -/
theorem crowded_of_full {m₁ m₂ : Machine} (h : Memory.Books settings n m.memory)
    (hfrees : Frees settings n m 0 m₁) (hlast : Frees settings n m₁ 0 m₂)
    (hcleared : m₁.pool.roots = [])
    (hspared : ∀ v, m₂.memory.isLive v = true → m₁.memory.Spared m₁.roots .full v)
    (hsize : m.memory.table.size = settings.maximum) : m.Crowded := by
  refine ⟨by rw [hsize, h.sizes], fun v hv => ?_⟩
  have hget := (hfrees.get?_of_zero h).2
  have hlive : m₂.memory.isLive v = true := by
    rw [Memory.isLive_congr (hlast.get?_of_zero hfrees.books).2, Memory.isLive_congr hget]
    exact (h.listed v).1 hv
  have hroots : m₁.roots ++ m₁.memory.heldRoots .full = m.lasting := by
    have hpool : m₁.pool.clear.roots = m₁.pool.roots := hcleared.symm
    rw [← hfrees.lasting, Machine.lasting, Machine.roots, Machine.roots, hpool]
    rfl
  have hreach := hspared v hlive
  rw [Memory.Spared, hroots] at hreach
  exact hreach.of_get? fun w _ => by rw [hget]

/-- What making room comes to once the young reclamations have freed `count` objects. -/
theorem makeRoom_eq {m₁ : Machine}
    (hyoung : reclaimYoung m.memory.settings.growth [false, false, true, true, true] 0 m =
      .ok count m₁) : makeRoom m =
      if m.memory.settings.growth ≤ count then .ok () m₁
      else if m₁.memory.canGrow then onMemory Memory.grow m₁
      else (do
        let last ← reclaim .full
        let memory := (← get).memory
        if count + last = 0 || memory.isFull then
          throw (.objectTableFull memory.size) : Action Unit) m₁ := by
  refine (bind_of_ok (get_ok.2 ⟨rfl, rfl⟩)).trans ((bind_of_ok hyoung).trans ?_)
  by_cases henough : m.memory.settings.growth ≤ count
  · rw [if_pos henough, if_pos henough]
    rfl
  rw [if_neg henough, if_neg henough]
  refine (bind_of_ok (get_ok.2 ⟨rfl, rfl⟩)).trans ?_
  by_cases hgrow : m₁.memory.canGrow = true
  · rw [if_pos hgrow, if_pos hgrow]
  · rw [if_neg hgrow, if_neg hgrow]

/-- Objects were freed or the table has grown, so that there is room. -/
def Cleared (settings : TableSettings) (n : Nat) (m m' : Machine) : Prop :=
  ¬ m.Crowded ∧ m'.memory.isFull = false ∧ ∃ freed m₁, Frees settings n m freed m₁ ∧
    (m' = m₁ ∨ m' = { m₁ with memory := m₁.memory.grown })

theorem cleared_of_frees {m₁ : Machine} (h : Frees settings n m freed m₁)
    (hm : Memory.Books settings n m.memory) (hpos : 0 < freed) : Cleared settings n m m₁ :=
  ⟨(h.room hm hpos).1, (h.room hm hpos).2, freed, m₁, h, .inl rfl⟩

/-- What making room comes to where there was none: it fails and the machine is crowded, or objects
were freed or the table has grown. -/
theorem makeRoom_outcome (h : Memory.Books settings n m.memory) (hgrowth : 1 ≤ settings.growth)
    (hfull : m.memory.isFull = true) :
    (m.Crowded ∧ ∃ m', makeRoom m = .error (.objectTableFull settings.maximum) m') ∨
      Fares m.memory.Ample makeRoom m fun _ => Cleared settings n m := by
  have hsize : m.memory.table.size = m.memory.capacity :=
    Nat.le_antisymm h.within (by simpa [Memory.isFull] using hfull)
  rcases reclaimYoung_fares h [false, false, true, true, true] (show 0 < settings.growth from hgrowth)
    with ⟨_, m₁, hyoung, count, rfl, hfrees, hcleared⟩ | ⟨hpanics, hample⟩
  swap
  · exact .inr (.inr ⟨.of_ok (get_ok.2 ⟨rfl, rfl⟩) (.bind (h.sizes ▸ hpanics)), hample⟩)
  rw [Nat.zero_add] at hyoung hcleared
  have hroom := makeRoom_eq (h.sizes ▸ hyoung)
  rw [h.sizes] at hroom
  by_cases henough : settings.growth ≤ count
  · rw [if_pos henough] at hroom
    exact .inr (.of_ok hroom (cleared_of_frees hfrees h (Nat.lt_of_lt_of_le hgrowth henough)))
  rw [if_neg henough] at hroom
  have hcapacity := hfrees.capacity
  have hcapped := h.capped
  by_cases hgrow : m₁.memory.canGrow = true
  · rw [if_pos hgrow] at hroom
    refine .inr ?_
    rw [Fares, Panics, hroom]
    by_cases hfits : m₁.memory.GrowthFits
    · refine .inl ⟨(), _, onMemory_grow_ok.2 ⟨hfits, rfl⟩, fun hcrowded => ?_, ?_, _, m₁, hfrees,
        .inr rfl⟩
      · have hmaximum := hcrowded.1
        rw [h.sizes] at hmaximum
        simp only [Memory.canGrow, hfrees.books.sizes, decide_eq_true_eq] at hgrow
        omega
      · have hwithin := hfrees.books.within
        simp only [Memory.canGrow, hfrees.books.sizes, decide_eq_true_eq] at hgrow
        simp only [Memory.isFull, Memory.grown, hfrees.books.sizes, decide_eq_false_iff_not]
        omega
    · refine .inr ⟨⟨_, _, onMemory_grow_of_not hfits⟩, fun hample => hfits ?_⟩
      exact Memory.growthFits_of_canGrow (hfrees.roomy h hample).settings hgrow
  rw [if_neg hgrow] at hroom
  simp only [Memory.canGrow, hfrees.books.sizes, decide_eq_true_eq] at hgrow
  have hmaximum : m.memory.table.size = settings.maximum := by omega
  rcases reclaim_fares hfrees.books .full with ⟨last, m₂, hlast, hreclaims⟩ | ⟨hpanics, hample⟩
  swap
  · refine .inr (.inr ⟨?_, fun hm => hample (hfrees.roomy h hm)⟩)
    obtain ⟨p, m', hpanic⟩ := hpanics
    exact ⟨p, m', hroom.trans (bind_of_error hpanic)⟩
  have hall := hfrees.trans hreclaims.toFrees
  rw [bind_of_ok hlast, bind_of_ok (get_ok.2 ⟨rfl, rfl⟩)] at hroom
  by_cases hnone : count + last = 0
  · obtain ⟨rfl, rfl⟩ := Nat.add_eq_zero_iff.1 hnone
    refine .inl ⟨crowded_of_full h hfrees hreclaims.toFrees (hcleared hgrowth (.inl (by simp)))
      hreclaims.spared hmaximum, m₂, ?_⟩
    have hcount : m₂.memory.size = settings.maximum := hall.count.trans hmaximum
    rw [hroom, if_pos (by simp), hcount]
    rfl
  · have hcleared := cleared_of_frees hall h (Nat.pos_of_ne_zero hnone)
    refine .inr (.of_ok (a := ()) ?_ hcleared)
    rw [hroom, if_neg (by rw [hcleared.2.1, decide_eq_false hnone]; simp)]
    rfl

/-! ### Allocations -/

/-- What is to be seen of an allocation that answered `v` for the object `o`. What can be reached from
what lasts is as it was, in the same order and before the new object; `v` did not resolve before, and
now it resolves to the new object unless its slot is overrun. -/
structure Provided (m : Machine) (o : Object) (v : Value) (m' : Machine) : Prop where
  kept : ∀ w, m.memory.Reachable m.lasting w → m'.memory.get? w = m.memory.get? w
  order : ∃ survivors : List Value, survivors.Sublist m.memory.table.toList ∧
    m'.memory.table.toList = survivors ++ [v] ∧ ∀ w, m.memory.Reachable m.lasting w → w ∈ survivors
  fresh : m.memory.isLive v = false
  found : ¬ m'.memory.Overrun v → m'.memory.get? v =
    some { o with hash := Memory.seedHash (Memory.nextSeed m.memory.hashSeed) }
  lost : m'.memory.Overrun v → m'.memory.get? v = none

/-- After objects have been freed a new one is placed, whatever else has changed. -/
theorem provided_of_frees {m₁ : Machine} (m₂ : Machine) (hfrees : Frees settings n m freed m₁)
    (room : m.memory.slots.size < 0x100000000)
    (hslots : m₂.memory.slots = m₁.memory.slots) (hfree : m₂.memory.free = m₁.memory.free)
    (htable : m₂.memory.table = m₁.memory.table)
    (ho : o' = { o with hash := Memory.seedHash (Memory.nextSeed m.memory.hashSeed) }) :
    Provided m o (m₂.memory.place o').1 { m₂ with memory := (m₂.memory.place o').2 } := by
  have hstocked : m₂.memory.Stocked := hfrees.books.toStocked.of_slots hslots hfree
  have hvacates : m.memory.Vacates m₂.memory := hfrees.vacates.trans (.of_slots hslots)
  have hself := Memory.get?_place_self hstocked (hvacates.size.symm ▸ room) o'
  refine ⟨fun w hw => ?_, ⟨m₁.memory.table.toList, hfrees.order, ?_, fun w hw => ?_⟩,
    hvacates.place_dead hstocked room o', ho ▸ hself.1, hself.2⟩
  · have hkept : m₂.memory.get? w = m.memory.get? w := by
      rw [Memory.get?_congr hslots, hfrees.kept w hw]
    rcases hstocked.get?_place o' w with hsame | ⟨-, hnone, -⟩
    · exact hsame.trans hkept
    · have hlive := hw.live
      rw [Memory.isLive, ← hkept, hnone] at hlive
      exact absurd hlive (by simp)
  · rw [Memory.place_table, Array.toList_push, htable]
  · exact Array.mem_toList_iff.2 (hfrees.mem_table hw)

/-- Where there is room, an object is placed under its new identity hash. -/
theorem register_of_room (hspace : m.memory.isFull = false) :
    onMemory (Memory.register o) m =
      let memory := m.memory.setHashSeed (Memory.nextSeed m.memory.hashSeed)
      let o := { o with hash := Memory.seedHash (Memory.nextSeed m.memory.hashSeed) }
      .ok (memory.place o).1 { m with memory := (memory.place o).2 } := by
  have hregister : Memory.register o m.memory =
      let memory := m.memory.setHashSeed (Memory.nextSeed m.memory.hashSeed)
      let o := { o with hash := Memory.seedHash (Memory.nextSeed m.memory.hashSeed) }
      .ok (memory.place o).1 (memory.place o).2 := by
    have hspace : (m.memory.setHashSeed (Memory.nextSeed m.memory.hashSeed)).isFull = false := hspace
    simp only [Memory.setHashSeed] at hspace
    rw [Memory.register, Memory.registerHashed_eq, Memory.readied]
    simp only [hspace]
    rfl
  simp only [onMemory, hregister]

/-- After objects have been freed, and perhaps the table has grown, an object is entered. -/
theorem provided_of_room {m₁ : Machine} (memory : Memory) (hfrees : Frees settings n m freed m₁)
    (room : m.memory.slots.size < 0x100000000)
    (hslots : memory.slots = m₁.memory.slots) (hfree : memory.free = m₁.memory.free)
    (htable : memory.table = m₁.memory.table) (hseed : memory.hashSeed = m₁.memory.hashSeed)
    (hspace : memory.isFull = false) (o : Object) :
    ∃ v m', onMemory (Memory.register o) { m₁ with memory } = .ok v m' ∧ Provided m o v m' := by
  have hobject : { o with hash := Memory.seedHash (Memory.nextSeed memory.hashSeed) } =
      { o with hash := Memory.seedHash (Memory.nextSeed m.memory.hashSeed) } := by
    rw [hseed, hfrees.hashSeed]
  have hprovided := provided_of_frees { m₁ with
    memory := memory.setHashSeed (Memory.nextSeed memory.hashSeed) }
    hfrees room hslots hfree htable hobject
  exact ⟨_, _, register_of_room (m := { m₁ with memory }) hspace, hprovided⟩

theorem allocate_eq (o : Object) (m : Machine) : allocate o m = (do
    if m.memory.isFull then
      makeRoom
    onMemory (Memory.register o) : Action Value) m := bind_of_ok (get_ok.2 ⟨rfl, rfl⟩)

/-- An allocation fails and the machine is crowded, or it provides a new object. -/
theorem allocate_outcome (h : Memory.Books settings n m.memory) (hgrowth : 1 ≤ settings.growth)
    (room : m.memory.slots.size < 0x100000000) (o : Object) :
    (m.Crowded ∧ ∃ m', allocate o m = .error (.objectTableFull settings.maximum) m') ∨
      Fares m.memory.Ample (allocate o) m fun v m' => ¬ m.Crowded ∧ Provided m o v m' := by
  rw [Fares, Panics, allocate_eq]
  by_cases hfull : m.memory.isFull = true
  · rw [if_pos hfull]
    rcases makeRoom_outcome h hgrowth hfull with ⟨hcrowded, m', hroom⟩ | hfares
    · exact .inl ⟨hcrowded, m', bind_of_error hroom⟩
    · refine .inr (hfares.bind fun _ m₁ hmade => ?_)
      obtain ⟨hcrowded, hspace, freed, m₂, hfrees, hm⟩ := hmade
      rcases hm with rfl | rfl
      · obtain ⟨v, m', hrun, hprovided⟩ := provided_of_room _ hfrees room rfl rfl rfl rfl hspace o
        exact .of_ok hrun ⟨hcrowded, hprovided⟩
      · obtain ⟨v, m', hrun, hprovided⟩ :=
          provided_of_room m₂.memory.grown hfrees room rfl rfl rfl rfl hspace o
        exact .of_ok hrun ⟨hcrowded, hprovided⟩
  · rw [if_neg hfull]
    have hspace : m.memory.isFull = false := Bool.eq_false_iff.2 hfull
    obtain ⟨v, m', hrun, hprovided⟩ :=
      provided_of_room _ (Frees.alike h rfl rfl) room rfl rfl rfl rfl hspace o
    refine .inr (.inl ⟨v, m', hrun, fun hcrowded => ?_, hprovided⟩)
    have hsize := hcrowded.1
    have hcapped := h.capped
    rw [h.sizes] at hsize
    simp only [Memory.isFull, decide_eq_false_iff_not] at hspace
    omega

/-- An allocation fails exactly if the table has reached its maximum and everything in it can be
reached from what the machine cannot give up. Otherwise it answers a new reference to the object, and
what can be reached stays as it was. Only where sizes may leave a word it can panic instead. -/
theorem allocate_complete (h : Memory.Books settings n m.memory) (hgrowth : 1 ≤ settings.growth)
    (room : m.memory.slots.size < 0x100000000) (o : Object) :
    ((∃ k m', allocate o m = .error (.objectTableFull k) m') ↔
      m.Crowded ∧ ¬ (allocate o).Panics m) ∧
    (¬ m.Crowded → (∃ v m', allocate o m = .ok v m') ∨ (allocate o).Panics m) ∧
    (∀ v m', allocate o m = .ok v m' → Provided m o v m') ∧
    (m.memory.Ample → ¬ (allocate o).Panics m) := by
  rcases allocate_outcome h hgrowth room o with ⟨hcrowded, m', hrun⟩ |
    ⟨v, m', hrun, hcrowded, hprovided⟩ | ⟨hpanics, hample⟩
  · have hcalm : ¬ (allocate o).Panics m := fun ⟨p, m₁, hpanic⟩ => by
      rw [hrun] at hpanic
      cases hpanic
    refine ⟨⟨fun _ => ⟨hcrowded, hcalm⟩, fun _ => ⟨_, m', hrun⟩⟩, absurd hcrowded,
      fun v m' hok => ?_, fun _ => hcalm⟩
    rw [hrun] at hok
    cases hok
  · refine ⟨⟨fun ⟨k, m₁, herror⟩ => ?_, fun hc => absurd hc.1 hcrowded⟩, fun _ => .inl ⟨v, m', hrun⟩,
      fun w m₁ hok => ?_, fun _ ⟨p, m₁, hpanic⟩ => ?_⟩
    · rw [hrun] at herror
      cases herror
    · obtain ⟨rfl, rfl⟩ := EStateM.Result.ok.inj (hrun.symm.trans hok)
      exact hprovided
    · rw [hrun] at hpanic
      cases hpanic
  · refine ⟨⟨fun ⟨k, m₁, herror⟩ => ?_, fun hc => absurd hpanics hc.2⟩, fun _ => .inr hpanics,
      fun v m₁ hok => ?_, fun hm => absurd hm hample⟩
    · obtain ⟨p, m', hrun⟩ := hpanics
      rw [hrun] at herror
      cases herror
    · obtain ⟨p, m', hrun⟩ := hpanics
      rw [hrun] at hok
      cases hok

/-- A table of two. -/
def two : TableSettings := { initial := 2, growth := 1, maximum := 2 }

/-- A table of two that may have one entry more. -/
def three : TableSettings := { initial := 2, growth := 1, maximum := 3 }

/-- Two objects in a table: nil and the special objects array. -/
def pair (settings : TableSettings) : Machine :=
  let nil : Value := .ref 0 0
  let memory := (Memory.account settings
    [.register (.ofPointers nil .empty #[]),
      .register (.ofPointers nil .indexable #[nil, nil, nil])]).2
  Machine.create memory { array := .ref 1 0, nil, falseObject := nil, trueObject := nil } {} default

theorem books_pair (settings : TableSettings) (hgrowth : 1 ≤ settings.growth)
    (room : (pair settings).memory.Addressable) :
    ∃ n, Memory.Books settings n (pair settings).memory :=
  ⟨_, (Memory.books_empty _).foldl_perform (s := (0, .empty _)) hgrowth _ room⟩

theorem crowded_pair : (pair two).Crowded := by
  have harray : (pair two).memory.Reachable (pair two).lasting (.ref 1 0) :=
    .root (by decide +kernel) (by decide +kernel)
  have hcls : ((pair two).memory.get? (.ref 1 0)).any (·.cls = .ref 0 0) = true := by decide +kernel
  obtain ⟨o, ho, hnil⟩ := (Option.any_eq_true _ _).1 hcls
  have htable : (pair two).memory.table = #[.ref 0 0, .ref 1 0] := by decide +kernel
  refine ⟨by decide +kernel, fun v hv => ?_⟩
  rw [htable, List.mem_toArray] at hv
  rcases List.mem_pair.1 hv with rfl | rfl
  · rw [← of_decide_eq_true hnil]
    exact harray.field ho List.mem_cons_self (by rw [of_decide_eq_true hnil]; decide +kernel)
  · exact harray

/-- A full table of three: nil, the special objects array, and an object that nothing refers to, in
the last generation that a reference can name. -/
def brink : Machine :=
  let nil : Value := .ref 0 0
  let memory : Memory := { Memory.empty { initial := 3, growth := 1, maximum := 3 } with
    slots := #[⟨0, some (.ofPointers nil .empty #[])⟩,
      ⟨0, some (.ofPointers nil .indexable #[nil, nil, nil])⟩,
      ⟨0x3FFFFFFF, some (.ofBytes (.small 0) #[])⟩]
    table := #[nil, .ref 1 0, .ref 2 0x3FFFFFFF] }
  Machine.create memory { array := .ref 1 0, nil, falseObject := nil, trueObject := nil } {} default

theorem tabled_brink : brink.memory.Tabled where
  listed v := by
    have htable : brink.memory.table = #[.ref 0 0, .ref 1 0, .ref 2 0x3FFFFFFF] := rfl
    rw [htable]
    refine ⟨fun hv => ?_, fun live => ?_⟩
    · simp only [List.mem_toArray, List.mem_cons, List.not_mem_nil, or_false] at hv
      rcases hv with rfl | rfl | rfl <;> decide +kernel
    · obtain ⟨o, ho⟩ := Memory.isLive_iff.1 live
      obtain ⟨index, generation, s, rfl, hs, hg, -⟩ := Memory.get?_eq_some.1 ho
      have hlt : index.toNat < 3 := (Array.getElem?_eq_some_iff.1 hs).1
      -- each slot has an object in one generation only
      have only : ∀ (i : UInt32) (g : BitVec 30), index.toNat = i.toNat →
          brink.memory.slots[i.toNat]?.map (·.generation.toNat) = some g.toNat →
          (.ref index generation : Value) = .ref i g := fun i g hi hslot => by
        rw [← hi, hs, Option.map_some, hg, Option.some.injEq] at hslot
        rw [UInt32.toNat_inj.1 hi, BitVec.eq_of_toNat_eq hslot]
      obtain hi | hi | hi : index.toNat = 0 ∨ index.toNat = 1 ∨ index.toNat = 2 := by omega
      · simp [only 0 0 hi (by decide +kernel)]
      · simp [only 1 0 hi (by decide +kernel)]
      · simp [only 2 0x3FFFFFFF hi (by decide +kernel)]
  once := by decide +kernel

theorem books_brink :
    Memory.Books { initial := 3, growth := 1, maximum := 3 } 3 brink.memory where
  toTabled := tabled_brink
  vacant i hi := absurd hi List.not_mem_nil
  distinct := List.nodup_nil
  offered i slot hs ho := by
    have hall : ∀ slot ∈ brink.memory.slots, slot.object.isSome = true := by decide +kernel
    have hsome := hall slot (Array.mem_of_getElem? hs)
    rw [ho] at hsome
    exact absurd hsome (by simp)
  sizes := rfl
  boundary := by decide +kernel
  within := by decide +kernel
  capped := by decide +kernel
  balance := by decide +kernel

theorem reclaim_brink : brink.memory.reclaim brink.roots .young = (1, { brink.memory with
    slots := #[⟨0, some (.ofPointers (.ref 0 0) .empty #[])⟩,
      ⟨0, some (.ofPointers (.ref 0 0) .indexable #[.ref 0 0, .ref 0 0, .ref 0 0])⟩,
      ⟨0x40000000, none⟩]
    free := [2]
    table := #[.ref 0 0, .ref 1 0]
    reclamations := 1
    reclaimed := 1 }) := by
  have hmarks : brink.memory.reach (brink.roots ++ brink.memory.pins.toList ++
      brink.memory.table.toList.take 0) = #[true, true, false] := by
    simp [Memory.reach, Memory.mark, brink, Machine.create, Machine.roots, ContextPool.roots,
      ContextPool.empty, Memory.empty, Memory.get?, Object.references, Object.ofPointers,
      Value.isReference, List.filter_cons]
    rfl
  have hstart : brink.memory.sweepStart .young = 0 := rfl
  simp only [Memory.reclaim, hstart, hmarks]
  decide +kernel

/-- Its last object is freed to make room, and the slot is used again. -/
theorem allocate_brink (o : Object) :
    ∃ v m', allocate o brink = .ok v m' ∧ m'.memory.Overrun v := by
  have hturn : reclaim .young brink = .ok 1
      { brink.flushCaches with memory := (brink.memory.reclaim brink.roots .young).2 } := by
    have hspace : (swept brink .young).memory.spaceLeft = .ok 10 := by
      simp only [swept, reclaim_brink]
      decide +kernel
    refine reclaim_ok.2 ⟨10, hspace, by rw [reclaim_brink], ?_⟩
    rw [noted, if_neg (by decide)]
    rfl
  have hyoung : reclaimYoung brink.memory.settings.growth [false, false, true, true, true] 0 brink =
      .ok 1 { brink.flushCaches with memory := (brink.memory.reclaim brink.roots .young).2 } :=
    bind_of_ok hturn
  have hroom := (makeRoom_eq hyoung).trans (if_pos (by decide))
  have hfull : brink.memory.isFull = true := by decide +kernel
  rw [allocate_eq, if_pos hfull, bind_of_ok hroom, reclaim_brink]
  exact ⟨_, _, rfl, ⟨0x40000000, some _⟩, rfl, Nat.le_refl _⟩

/-- In a table for two there is no room for a third object, in a table for three there is; and an
object gets lost when its slot is vacated from the last generation that a reference can name. -/
theorem allocate_complete_brink :
    ((pair two).Crowded ∧
      ∃ k m', allocate (.ofBytes (.small 0) #[]) (pair two) = .error (.objectTableFull k) m') ∧
    (¬ (pair three).Crowded ∧ ∃ v m', allocate (.ofBytes (.small 0) #[]) (pair three) = .ok v m' ∧
      Provided (pair three) (.ofBytes (.small 0) #[]) v m') ∧
    (brink.memory.Addressable ∧ ∃ v m', allocate (.ofBytes (.small 0) #[]) brink = .ok v m' ∧
      m'.memory.get? v = none) := by
  obtain ⟨n, htwo⟩ := books_pair two (by decide) (by decide +kernel)
  obtain ⟨k, hthree⟩ := books_pair three (by decide) (by decide +kernel)
  have hspace : ¬ (pair three).Crowded := fun h => absurd h.1 (by decide +kernel)
  obtain ⟨hfails, -, -, hcalm⟩ :=
    allocate_complete htwo (Nat.le_refl 1) (by decide +kernel) (.ofBytes (.small 0) #[])
  obtain ⟨-, hends, hprovides, hsound⟩ :=
    allocate_complete hthree (Nat.le_refl 1) (by decide +kernel) (.ofBytes (.small 0) #[])
  obtain ⟨v, m', hrun⟩ := (hends hspace).resolve_right (hsound (by decide +kernel))
  obtain ⟨w, m₁, hbrink, hover⟩ := allocate_brink (.ofBytes (.small 0) #[])
  obtain ⟨-, -, hloses, -⟩ :=
    allocate_complete books_brink (Nat.le_refl 1) (by decide +kernel) (.ofBytes (.small 0) #[])
  exact ⟨⟨crowded_pair, hfails.2 ⟨crowded_pair, hcalm (by decide +kernel)⟩⟩, ⟨hspace, v, m', hrun, hprovides v m' hrun⟩,
    by decide +kernel, w, m₁, hbrink, (hloses w m₁ hbrink).lost hover⟩

end Action

end Smalltalk
