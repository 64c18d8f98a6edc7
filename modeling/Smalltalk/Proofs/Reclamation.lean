import Mathlib.Tactic.Common
import Smalltalk.Proofs.Memory

/-!
# What a reclamation keeps

An object is reachable from a list of values if following class and pointer fields from them leads
to it. Marking marks the slots of exactly the reachable objects: what it has marked is reachable at
every moment, and when its list has run empty the marked slots are closed under fields. Sweeping
then takes exactly the others out of the table, so a reclamation keeps what is reachable, as it
was, and frees the rest.
-/

namespace Smalltalk.Memory

/-- The objects that class and pointer fields lead to from `roots`. Values that refer to no object
lead nowhere. -/
inductive Reachable (m : Memory) (roots : List Value) : Value → Prop where
  | root {v} (h : v ∈ roots) (live : m.isLive v = true) : Reachable m roots v
  | field {v o x} (h : Reachable m roots v) (ho : m.get? v = some o)
      (hx : x ∈ o.cls :: o.pointers.toList) (live : m.isLive x = true) : Reachable m roots x

variable {m : Memory} {v w x : Value} {o : Object}

theorem Reachable.live {roots : List Value} (h : m.Reachable roots v) : m.isLive v = true := by
  cases h with
  | root _ live => exact live
  | field _ _ _ live => exact live

/-- What is reachable from values that are themselves reachable is reachable. -/
theorem Reachable.trans {roots roots' : List Value} (h : m.Reachable roots' v)
    (sub : ∀ x ∈ roots', m.isLive x = true → m.Reachable roots x) : m.Reachable roots v := by
  induction h with
  | root hv live => exact sub _ hv live
  | field _ ho hx live ih => exact ih.field ho hx live

theorem Reachable.mono {roots roots' : List Value} (h : m.Reachable roots v)
    (sub : roots ⊆ roots') : m.Reachable roots' v :=
  h.trans fun _ hx live => .root (sub hx) live

/-- Marking goes on with the references among the fields, and no other field leads anywhere. -/
theorem mem_references_of_isLive (hx : x ∈ o.cls :: o.pointers.toList)
    (live : m.isLive x = true) : x ∈ o.references := by
  rcases List.mem_cons.1 hx with rfl | hp
  · exact List.mem_cons_self ..
  · exact List.mem_cons_of_mem _ (List.mem_filter.2 ⟨hp, isReference_of_isLive live⟩)

theorem mem_fields_of_mem_references (hx : x ∈ o.references) :
    x ∈ o.cls :: o.pointers.toList := by
  rcases List.mem_cons.1 hx with rfl | hp
  · exact List.mem_cons_self ..
  · exact List.mem_cons_of_mem _ (List.mem_filter.1 hp).1

/-! ### Marking -/

/-- A mark is never taken back. -/
theorem mark_mono (m : Memory) (marks : Array Bool) (work : List Value) {i : Nat}
    (h : marks[i]? = some true) : (m.mark marks work)[i]? = some true := by
  fun_induction mark m marks work with
  | case1 marks => exact h
  | case2 marks work n ih => exact ih h
  | case3 marks index generation work _ ih => exact ih h
  | case4 marks index generation work o _ unmarked ih =>
    apply ih
    rw [Array.getElem?_setIfInBounds]
    split
    · have hlt := (Array.getElem?_eq_some_iff.1 unmarked).1
      rw [if_pos hlt]
    · exact h
  | case5 marks index generation work o _ _ ih => exact ih h

/-- Soundness: a slot that marking adds holds an object that its list leads to. -/
theorem mark_sound (m : Memory) (marks : Array Bool) (work : List Value) {i : Nat}
    (h : (m.mark marks work)[i]? = some true) :
    marks[i]? = some true ∨
      ∃ index generation, index.toNat = i ∧ m.Reachable work (.ref index generation) := by
  fun_induction mark m marks work with
  | case1 marks => exact .inl h
  | case2 marks work n ih =>
    rcases ih h with old | ⟨index, generation, hi, hr⟩
    · exact .inl old
    · exact .inr ⟨index, generation, hi, hr.mono (List.subset_cons_self ..)⟩
  | case3 marks index generation work _ ih =>
    rcases ih h with old | ⟨index', generation', hi, hr⟩
    · exact .inl old
    · exact .inr ⟨index', generation', hi, hr.mono (List.subset_cons_self ..)⟩
  | case4 marks index generation work o ho unmarked ih =>
    have here : m.Reachable (.ref index generation :: work) (.ref index generation) :=
      .root (List.mem_cons_self ..) (isLive_of_get? ho)
    rcases ih h with old | ⟨index', generation', hi, hr⟩
    · rw [Array.getElem?_setIfInBounds] at old
      split at old
      · exact .inr ⟨index, generation, by assumption, here⟩
      · exact .inl old
    · refine .inr ⟨index', generation', hi, hr.trans fun x hx live => ?_⟩
      rcases List.mem_append.1 hx with hf | hw
      · exact here.field ho (mem_fields_of_mem_references hf) live
      · exact .root (List.mem_cons_of_mem _ hw) live
  | case5 marks index generation work o _ _ ih =>
    rcases ih h with old | ⟨index', generation', hi, hr⟩
    · exact .inl old
    · exact .inr ⟨index', generation', hi, hr.mono (List.subset_cons_self ..)⟩

/-- Whether a live reference points at a slot of the marks. -/
theorem index_lt_of_get? {index : UInt32} {generation : BitVec 30}
    (h : m.get? (.ref index generation) = some o) : index.toNat < m.slots.size := by
  obtain ⟨i, g, slot, hv, hs, -, -⟩ := get?_eq_some.1 h
  cases hv
  exact (Array.getElem?_eq_some_iff.1 hs).1

/-- Every live value on the list ends up marked. -/
theorem mark_covers (m : Memory) (marks : Array Bool) (work : List Value)
    (hsize : marks.size = m.slots.size) {v : Value} (hv : v ∈ work) (live : m.isLive v = true) :
    markOf (m.mark marks work) v = true := by
  fun_induction mark m marks work with
  | case1 marks => exact absurd hv List.not_mem_nil
  | case2 marks work n ih =>
    rcases List.mem_cons.1 hv with rfl | hw
    · exact absurd (isReference_of_isLive live) (by simp [Value.isReference])
    · exact ih hsize hw
  | case3 marks index generation work hnone ih =>
    rcases List.mem_cons.1 hv with rfl | hw
    · rw [get?_eq_none.1 hnone] at live
      exact absurd live (by simp)
    · exact ih hsize hw
  | case4 marks index generation work o ho unmarked ih =>
    rcases List.mem_cons.1 hv with rfl | hw
    · have hset : (marks.setIfInBounds index.toNat true)[index.toNat]? = some true := by
        rw [Array.getElem?_setIfInBounds_self_of_lt (Array.getElem?_eq_some_iff.1 unmarked).1]
      simp only [markOf, mark_mono m _ _ hset, Option.getD_some]
    · exact ih (by rw [Array.size_setIfInBounds, hsize]) (List.mem_append_right _ hw)
  | case5 marks index generation work o ho marked ih =>
    rcases List.mem_cons.1 hv with rfl | hw
    · have hlt : index.toNat < marks.size := hsize ▸ index_lt_of_get? ho
      have htrue : marks[index.toNat]? = some true := by
        rw [Array.getElem?_eq_getElem hlt] at marked ⊢
        simpa using marked
      simp only [markOf, mark_mono m _ _ htrue, Option.getD_some]
    · exact ih hsize hw

/-- Completeness: what a slot that marking adds refers to is marked as well. -/
theorem mark_closed (m : Memory) (marks : Array Bool) (work : List Value)
    (hsize : marks.size = m.slots.size) {v x : Value} {o : Object} (ho : m.get? v = some o)
    (new : markOf marks v = false) (hv : markOf (m.mark marks work) v = true)
    (hx : x ∈ o.references) (live : m.isLive x = true) :
    markOf (m.mark marks work) x = true := by
  fun_induction mark m marks work with
  | case1 marks => rw [new] at hv; exact absurd hv (by simp)
  | case2 marks work n ih => exact ih hsize new hv
  | case3 marks index generation work _ ih => exact ih hsize new hv
  | case4 marks index generation work o' ho' unmarked ih =>
    have hsize' : (marks.setIfInBounds index.toNat true).size = m.slots.size := by
      rw [Array.size_setIfInBounds, hsize]
    by_cases hsame : v = .ref index generation
    · -- the slot being marked: its fields are on the list
      subst hsame
      rw [ho'] at ho
      obtain rfl := Option.some.inj ho
      exact mark_covers m _ _ hsize' (List.mem_append_left _ hx) live
    · apply ih hsize' _ hv
      cases v with
      | small n => rfl
      | ref index' generation' =>
        have hi : index.toNat ≠ index'.toNat := by
          intro e
          obtain rfl := UInt32.toNat_inj.1 e
          have := eq_of_isLive_of_index (isLive_of_get? ho) (isLive_of_get? ho')
          exact hsame (by rw [this])
        simpa only [markOf, Array.getElem?_setIfInBounds_ne hi] using new
  | case5 marks index generation work o' _ _ ih => exact ih hsize new hv

/-- Marking from `roots` marks exactly the slots of the objects that are reachable from them. -/
theorem markOf_reach {roots : List Value} (live : m.isLive v = true) :
    markOf (m.reach roots) v = true ↔ m.Reachable roots v := by
  have hsize : (Array.replicate m.slots.size false).size = m.slots.size := Array.size_replicate
  have unmarked : ∀ w, markOf (Array.replicate m.slots.size false) w = false := by
    intro w
    cases w with
    | small n => rfl
    | ref index generation =>
      simp only [markOf, Array.getElem?_replicate]
      split <;> rfl
  constructor
  · intro h
    cases v with
    | small n => simp [markOf] at h
    | ref index generation =>
      have htrue : (m.reach roots)[index.toNat]? = some true := by
        cases hm : (m.reach roots)[index.toNat]? with
        | none => simp [markOf, hm] at h
        | some b => simpa [markOf, hm] using h
      rcases mark_sound m _ _ htrue with old | ⟨index', generation', hi, hr⟩
      · rw [Array.getElem?_replicate] at old
        split at old
        · exact absurd old (by simp)
        · exact absurd old (by simp)
      · obtain rfl := UInt32.toNat_inj.1 hi
        obtain rfl := eq_of_isLive_of_index live hr.live
        exact hr
  · intro h
    induction h with
    | root hv live => exact mark_covers m _ _ hsize hv live
    | field hr ho hx live' ih =>
      exact mark_closed m _ _ hsize ho (unmarked _) (ih hr.live)
        (mem_references_of_isLive hx live') live'

/-! ### Sweeping -/

/-- Vacating a slot ends the reference to it and no other. -/
theorem get?_vacate (m : Memory) (v w : Value) :
    (m.vacate v).get? w = if w = v then none else m.get? w := by
  cases v with
  | small n =>
    by_cases hw : w = .small n
    · simp [vacate, hw]
    · simp [vacate, hw]
  | ref index generation =>
    simp only [vacate]
    cases hs : m.slots[index.toNat]? with
    | none =>
      by_cases hw : w = .ref index generation
      · simp [hw, get?, hs]
      · simp [hw]
    | some slot =>
      by_cases hlive : slot.generation.toNat = generation.toNat ∧ slot.object.isSome = true
      · simp only [if_pos hlive]
        cases w with
        | small n => simp
        | ref index' generation' =>
          have hlt : index.toNat < m.slots.size := (Array.getElem?_eq_some_iff.1 hs).1
          by_cases hi : index' = index
          · subst hi
            by_cases hg : generation' = generation
            · simp [get?, hg, Array.getElem?_setIfInBounds_self_of_lt hlt]
            · have hne : slot.generation.toNat ≠ generation'.toNat := fun e =>
                hg (BitVec.eq_of_toNat_eq (e.symm.trans hlive.1))
              simp [get?, hg, hs, hne, Array.getElem?_setIfInBounds_self_of_lt hlt]
          · have hne : index.toNat ≠ index'.toNat := fun e => hi (UInt32.toNat_inj.1 e.symm)
            simp [get?, hi, Array.getElem?_setIfInBounds_ne hne]
      · simp only [if_neg hlive]
        by_cases hw : w = .ref index generation
        · simp only [hw, get?, hs, if_pos]
          split
          · cases ho : slot.object with
            | none => rfl
            | some o => exact absurd ⟨by assumption, by simp [ho]⟩ hlive
          · rfl
        · simp [hw]

theorem vacate_reclaimed (live : m.isLive v = true) :
    (m.vacate v).reclaimed = m.reclaimed + 1 := by
  obtain ⟨o, ho⟩ := isLive_iff.1 live
  obtain ⟨index, generation, slot, rfl, hs, hg, hobj⟩ := get?_eq_some.1 ho
  simp [vacate, hs, hg, hobj]

/-- Vacating leaves the table, the pins and the counters of the table alone. -/
theorem vacate_frame (m : Memory) (v : Value) :
    m.vacate v = { m with
      slots := (m.vacate v).slots, free := (m.vacate v).free
      reclaimed := (m.vacate v).reclaimed } := by
  cases v with
  | small n => rfl
  | ref index generation =>
    simp only [vacate]
    split
    · split <;> rfl
    · rfl

theorem get?_foldl_vacate (dead : List Value) (m : Memory) (w : Value) :
    (dead.foldl vacate m).get? w = if w ∈ dead then none else m.get? w := by
  induction dead generalizing m with
  | nil => simp
  | cons v dead ih =>
    rw [List.foldl_cons, ih, get?_vacate]
    by_cases hd : w ∈ dead
    · simp [hd]
    · by_cases hw : w = v
      · simp [hw]
      · simp [hd, hw]

theorem foldl_vacate_reclaimed {dead : List Value} (nodup : dead.Nodup)
    (live : ∀ v ∈ dead, m.isLive v = true) :
    (dead.foldl vacate m).reclaimed = m.reclaimed + dead.length := by
  induction dead generalizing m with
  | nil => rfl
  | cons v dead ih =>
    obtain ⟨hv, nodup⟩ := List.nodup_cons.1 nodup
    rw [List.foldl_cons, ih nodup, vacate_reclaimed (live v (List.mem_cons_self ..)),
      List.length_cons]
    · omega
    · intro w hw
      have hne : w ≠ v := fun e => hv (e ▸ hw)
      rw [isLive, get?_vacate, if_neg hne]
      exact live w (List.mem_cons_of_mem _ hw)

theorem foldl_vacate_frame (dead : List Value) (m : Memory) :
    dead.foldl vacate m = { m with
      slots := (dead.foldl vacate m).slots, free := (dead.foldl vacate m).free
      reclaimed := (dead.foldl vacate m).reclaimed } := by
  induction dead generalizing m with
  | nil => rfl
  | cons v dead ih =>
    rw [List.foldl_cons, ih, vacate_frame m v]

/-! ### The whole reclamation -/

/-- What a reclamation counts as roots besides those it is given: the pins, and for a young one all
old objects. -/
def heldRoots (m : Memory) : Scope → List Value
  | .young => m.pins.toList ++ m.table.toList.take m.oldBoundary
  | .full => m.pins.toList

/-- The objects that a reclamation must not free. -/
def Spared (m : Memory) (roots : List Value) (scope : Scope) (v : Value) : Prop :=
  m.Reachable (roots ++ m.heldRoots scope) v

/-- The marks a reclamation works with. -/
def reclaimMarks (m : Memory) (roots : List Value) (scope : Scope) : Array Bool :=
  m.reach (roots ++ m.pins.toList ++ m.table.toList.take (m.sweepStart scope))

theorem roots_eq (m : Memory) (roots : List Value) (scope : Scope) :
    roots ++ m.pins.toList ++ m.table.toList.take (m.sweepStart scope) =
      roots ++ m.heldRoots scope := by
  cases scope with
  | young =>
    have htake : m.table.toList.take (min m.oldBoundary m.table.size) =
        m.table.toList.take m.oldBoundary := by
      rw [← Array.length_toList, ← List.take_eq_take_min]
    rw [sweepStart, htake, heldRoots, List.append_assoc]
  | full => simp [sweepStart, heldRoots]

theorem markOf_reclaimMarks {roots : List Value} {scope : Scope} (live : m.isLive v = true) :
    markOf (m.reclaimMarks roots scope) v = true ↔ m.Spared roots scope v := by
  rw [reclaimMarks, roots_eq, markOf_reach live, Spared]

/-- The table entries that a reclamation takes out, in table order. -/
def doomed (m : Memory) (roots : List Value) (scope : Scope) : List Value :=
  (m.table.toList.drop (m.sweepStart scope)).filter fun v =>
    !markOf (m.reclaimMarks roots scope) v

/-- The memory with the doomed entries out of the table, before their slots are vacated. -/
def trimmed (m : Memory) (roots : List Value) (scope : Scope) : Memory :=
  { m with table := m.table.take (m.sweepStart scope) ++
    ((m.table.toList.drop (m.sweepStart scope)).filter
      (markOf (m.reclaimMarks roots scope))).toArray }

theorem get?_trimmed (m : Memory) (roots : List Value) (scope : Scope) :
    (m.trimmed roots scope).get? = m.get? := get?_congr rfl

/-- A reclamation trims the table and vacates the slots of the doomed entries. -/
theorem reclaim_slots (m : Memory) (roots : List Value) (scope : Scope) :
    (m.reclaim roots scope).2.slots =
      ((m.doomed roots scope).foldl vacate (m.trimmed roots scope)).slots := rfl

theorem reclaim_freed (m : Memory) (roots : List Value) (scope : Scope) :
    (m.reclaim roots scope).1 =
      ((m.doomed roots scope).foldl vacate (m.trimmed roots scope)).reclaimed - m.reclaimed := rfl

/-- The fields that a reclamation leaves as they were, and those it sets. -/
theorem reclaim_frame (m : Memory) (roots : List Value) (scope : Scope) :
    (m.reclaim roots scope).2 = { m.trimmed roots scope with
      slots := (m.reclaim roots scope).2.slots
      free := (m.reclaim roots scope).2.free
      oldBoundary := if scope = .full then ((m.table.toList.take m.oldBoundary).filter
          (markOf (m.reclaimMarks roots scope))).length else m.oldBoundary
      hint := 0
      reclamations := m.reclamations + 1
      reclaimed := (m.reclaim roots scope).2.reclaimed } := by
  have hframe : (m.reclaim roots scope).2 =
      { (m.doomed roots scope).foldl vacate (m.trimmed roots scope) with
        oldBoundary := if scope = .full then ((m.table.toList.take m.oldBoundary).filter
            (markOf (m.reclaimMarks roots scope))).length
          else ((m.doomed roots scope).foldl vacate (m.trimmed roots scope)).oldBoundary
        hint := 0
        reclamations :=
          ((m.doomed roots scope).foldl vacate (m.trimmed roots scope)).reclamations + 1 } := rfl
  rw [hframe, foldl_vacate_frame]
  rfl

theorem reclaim_get? (m : Memory) (roots : List Value) (scope : Scope) (w : Value) :
    (m.reclaim roots scope).2.get? w =
      if w ∈ m.doomed roots scope then none else m.get? w := by
  rw [get?_congr (reclaim_slots m roots scope), get?_foldl_vacate, get?_trimmed]

theorem reclaim_table (m : Memory) (roots : List Value) (scope : Scope) :
    (m.reclaim roots scope).2.table.toList = m.table.toList.take (m.sweepStart scope) ++
      (m.table.toList.drop (m.sweepStart scope)).filter
        (markOf (m.reclaimMarks roots scope)) := by
  rw [reclaim_frame]
  simp [trimmed]

/-- What a reclamation does not sweep it counts as roots. -/
theorem spared_of_mem_take {roots : List Value} {scope : Scope} (h : m.Tabled)
    (hv : v ∈ m.table.toList.take (m.sweepStart scope)) : m.Spared roots scope v := by
  have live : m.isLive v = true := (h.listed v).1 (Array.mem_toList_iff.1 (List.mem_of_mem_take hv))
  rw [Spared, ← roots_eq]
  exact .root (List.mem_append_right _ hv) live

theorem mem_doomed {roots : List Value} {scope : Scope} (h : m.Tabled) :
    v ∈ m.doomed roots scope ↔ m.isLive v = true ∧ ¬ m.Spared roots scope v := by
  rw [doomed, List.mem_filter]
  constructor
  · rintro ⟨hv, hmark⟩
    have live : m.isLive v = true :=
      (h.listed v).1 (Array.mem_toList_iff.1 (List.mem_of_mem_drop hv))
    refine ⟨live, fun spared => ?_⟩
    rw [(markOf_reclaimMarks live).2 spared] at hmark
    exact absurd hmark (by simp)
  · rintro ⟨live, hns⟩
    have hmem : v ∈ m.table.toList := Array.mem_toList_iff.2 ((h.listed v).2 live)
    rw [← List.take_append_drop (m.sweepStart scope) m.table.toList, List.mem_append] at hmem
    refine ⟨hmem.resolve_left fun ht => hns (spared_of_mem_take h ht), ?_⟩
    rw [Bool.not_eq_true', Bool.eq_false_iff]
    exact fun hm => hns ((markOf_reclaimMarks live).1 hm)

theorem reclaim_spared {roots : List Value} {scope : Scope} (hv : m.Spared roots scope v) :
    (m.reclaim roots scope).2.get? v = m.get? v := by
  rw [reclaim_get?, if_neg fun hd => ?_]
  have hmark := (List.mem_filter.1 hd).2
  rw [(markOf_reclaimMarks hv.live).2 hv] at hmark
  exact absurd hmark (by simp)

theorem isLive_reclaim {roots : List Value} {scope : Scope} (h : m.Tabled) :
    (m.reclaim roots scope).2.isLive v = true ↔ m.Spared roots scope v := by
  constructor
  · intro live
    by_contra hns
    rw [isLive, reclaim_get?] at live
    split at live
    · exact absurd live (by simp)
    · rename_i hd
      exact hd ((mem_doomed h).2 ⟨live, hns⟩)
  · intro hs
    rw [isLive, reclaim_spared hs]
    exact hs.live

/-- Survivors stay in table order. -/
theorem reclaim_order {roots : List Value} {scope : Scope} (h : m.Tabled) :
    (m.reclaim roots scope).2.table.toList =
      m.table.toList.filter (m.reclaim roots scope).2.isLive := by
  rw [reclaim_table]
  conv_rhs => rw [← List.take_append_drop (m.sweepStart scope) m.table.toList, List.filter_append]
  congr 1
  · symm
    rw [List.filter_eq_self]
    exact fun v hv => (isLive_reclaim h).2 (spared_of_mem_take h hv)
  · apply List.filter_congr
    intro v hv
    have live : m.isLive v = true :=
      (h.listed v).1 (Array.mem_toList_iff.1 (List.mem_of_mem_drop hv))
    rw [Bool.eq_iff_iff, markOf_reclaimMarks live, isLive_reclaim h]

/-- The number that is answered is the number of objects that are gone. -/
theorem reclaim_count {roots : List Value} {scope : Scope} (h : m.Tabled) :
    (m.reclaim roots scope).1 =
      (m.table.toList.filter fun v => !(m.reclaim roots scope).2.isLive v).length := by
  have hdoomed : m.doomed roots scope =
      m.table.toList.filter fun v => !(m.reclaim roots scope).2.isLive v := by
    conv_rhs =>
      rw [← List.take_append_drop (m.sweepStart scope) m.table.toList, List.filter_append]
    have hnil : ((m.table.toList.take (m.sweepStart scope)).filter fun v =>
        !(m.reclaim roots scope).2.isLive v) = [] := by
      rw [List.filter_eq_nil_iff]
      intro v hv
      have spared : m.Spared roots scope v := spared_of_mem_take h hv
      simp [(isLive_reclaim h).2 spared]
    rw [hnil, List.nil_append, doomed]
    apply List.filter_congr
    intro v hv
    have live : m.isLive v = true :=
      (h.listed v).1 (Array.mem_toList_iff.1 (List.mem_of_mem_drop hv))
    congr 1
    rw [Bool.eq_iff_iff, markOf_reclaimMarks live, isLive_reclaim h]
  have hnodup : (m.doomed roots scope).Nodup :=
    (List.Sublist.nodup (List.drop_sublist ..) h.once).filter _
  have hlive : ∀ v ∈ m.doomed roots scope, m.isLive v = true := fun v hv =>
    ((mem_doomed h).1 hv).1
  rw [← hdoomed, reclaim_freed, foldl_vacate_reclaimed hnodup]
  · exact Nat.add_sub_cancel_left ..
  · intro v hv
    rw [isLive, get?_trimmed]
    exact hlive v hv

/-- The old part of the table afterwards is what survived of the old part. -/
theorem reclaim_old {roots : List Value} {scope : Scope} (h : m.Tabled) :
    (m.reclaim roots scope).2.table.toList.take (m.reclaim roots scope).2.oldBoundary =
      (m.table.toList.take m.oldBoundary).filter (m.reclaim roots scope).2.isLive := by
  rw [reclaim_order h]
  conv_lhs => rw [← List.take_append_drop m.oldBoundary m.table.toList, List.filter_append]
  cases scope with
  | full =>
    have hmarks : (m.table.toList.take m.oldBoundary).filter
        (markOf (m.reclaimMarks roots .full)) =
        (m.table.toList.take m.oldBoundary).filter (m.reclaim roots .full).2.isLive := by
      apply List.filter_congr
      intro v hv
      have live : m.isLive v = true :=
        (h.listed v).1 (Array.mem_toList_iff.1 (List.mem_of_mem_take hv))
      rw [Bool.eq_iff_iff, markOf_reclaimMarks live, isLive_reclaim h]
    have hbound : (m.reclaim roots .full).2.oldBoundary = ((m.table.toList.take m.oldBoundary).filter
        (markOf (m.reclaimMarks roots .full))).length := rfl
    rw [hbound, hmarks]
    exact List.take_left
  | young =>
    -- no old object is swept
    have hall : (m.table.toList.take m.oldBoundary).filter (m.reclaim roots .young).2.isLive =
        m.table.toList.take m.oldBoundary := by
      rw [List.filter_eq_self]
      intro v hv
      have live : m.isLive v = true :=
        (h.listed v).1 (Array.mem_toList_iff.1 (List.mem_of_mem_take hv))
      exact (isLive_reclaim h).2 (.root (List.mem_append_right _ (List.mem_append_right _ hv)) live)
    have hbound : (m.reclaim roots .young).2.oldBoundary = m.oldBoundary := by
      rw [reclaim_frame]
      rfl
    rw [hbound, hall]
    by_cases hle : m.oldBoundary ≤ m.table.toList.length
    · have hlen : (m.table.toList.take m.oldBoundary).length = m.oldBoundary := by
        rw [List.length_take, Nat.min_eq_left hle]
      exact List.take_left' hlen
    · have hdrop : m.table.toList.drop m.oldBoundary = [] :=
        List.drop_eq_nil_of_le (by omega)
      rw [hdrop, List.filter_nil, List.append_nil, List.take_take, Nat.min_self]

/-- What a survivor refers to survives with it. -/
theorem reclaim_fields {roots : List Value} {scope : Scope} (h : m.Tabled)
    (ho : (m.reclaim roots scope).2.get? v = some o) (hx : x ∈ o.cls :: o.pointers.toList)
    (live : m.isLive x = true) : (m.reclaim roots scope).2.isLive x = true := by
  have hv : m.Spared roots scope v := (isLive_reclaim h).1 (isLive_of_get? ho)
  rw [reclaim_spared hv] at ho
  exact (isLive_reclaim h).2 (hv.field ho hx live)

/-- What vacating a live reference does. -/
theorem vacate_of_isLive (live : m.isLive v = true) :
    ∃ index generation slot, v = .ref index generation ∧ m.slots[index.toNat]? = some slot ∧
      slot.generation.toNat = generation.toNat ∧ slot.object.isSome = true ∧
      m.vacate v = { m with
        slots := m.slots.setIfInBounds index.toNat
          { generation := slot.generation + 1, object := none }
        free := index :: m.free
        reclaimed := m.reclaimed + 1 } := by
  obtain ⟨o, ho⟩ := isLive_iff.1 live
  obtain ⟨index, generation, slot, rfl, hs, hg, hobj⟩ := get?_eq_some.1 ho
  refine ⟨index, generation, slot, rfl, hs, hg, by rw [hobj]; rfl, ?_⟩
  simp [vacate, hs, hg, hobj]

/-- A stale reference is left alone. -/
theorem vacate_of_not_isLive (dead : ¬ m.isLive v = true) : m.vacate v = m := by
  cases v with
  | small n => rfl
  | ref index generation =>
    simp only [vacate]
    split
    · rename_i slot hs
      rw [if_neg]
      rintro ⟨hg, hobj⟩
      obtain ⟨o, ho⟩ := Option.isSome_iff_exists.1 hobj
      exact dead (isLive_iff.2 ⟨o, get?_eq_some.2 ⟨index, generation, slot, rfl, hs, hg, ho⟩⟩)
    · rfl

/-- The vacated slot joins the free list. -/
theorem Stocked.vacate (h : m.Stocked) (v : Value) : (m.vacate v).Stocked := by
  by_cases live : m.isLive v = true
  · obtain ⟨index, generation, slot, rfl, hs, -, hobj, hv⟩ := vacate_of_isLive live
    -- an occupied slot is not on the free list
    have hnot : ∀ i ∈ m.free, index.toNat ≠ i.toNat := by
      intro i hi hne
      obtain ⟨slot', hs', ho'⟩ := h.vacant i hi
      rw [← hne, hs] at hs'
      obtain rfl := Option.some.inj hs'
      rw [ho'] at hobj
      exact absurd hobj (by simp)
    rw [hv]
    refine ⟨fun i hi => ?_, List.nodup_cons.2 ⟨fun hin => hnot index hin rfl, h.distinct⟩⟩
    rcases List.mem_cons.1 hi with rfl | hi
    · exact ⟨_, Array.getElem?_setIfInBounds_self_of_lt (Array.getElem?_eq_some_iff.1 hs).1, rfl⟩
    · obtain ⟨slot', hs', ho'⟩ := h.vacant i hi
      exact ⟨slot', by rw [Array.getElem?_setIfInBounds_ne (hnot i hi), hs'], ho'⟩
  · rw [vacate_of_not_isLive live]
    exact h

theorem Stocked.foldl_vacate (dead : List Value) (h : m.Stocked) :
    (dead.foldl Memory.vacate m).Stocked := by
  induction dead generalizing m with
  | nil => exact h
  | cons v dead ih => exact ih (h.vacate v)

theorem Stocked.reclaim (h : m.Stocked) (roots : List Value) (scope : Scope) :
    (m.reclaim roots scope).2.Stocked := by
  have htrimmed : (m.trimmed roots scope).Stocked := ⟨h.vacant, h.distinct⟩
  exact ⟨(htrimmed.foldl_vacate (m.doomed roots scope)).vacant,
    (htrimmed.foldl_vacate (m.doomed roots scope)).distinct⟩

/-- A reclamation leaves a well-formed memory well formed. -/
theorem WellFormed.reclaim (h : m.WellFormed) (roots : List Value) (scope : Scope) :
    (m.reclaim roots scope).2.WellFormed := by
  refine ⟨⟨fun v => ?_, ?_⟩, h.toStocked.reclaim roots scope⟩
  · rw [← Array.mem_toList_iff, reclaim_order h.toTabled, List.mem_filter, Array.mem_toList_iff,
      h.listed]
    exact ⟨fun hv => hv.2, fun hv => ⟨((isLive_reclaim h.toTabled).1 hv).live, hv⟩⟩
  · rw [reclaim_order h.toTabled]
    exact h.once.filter _

/-- What it means for `m'` to be exactly what a reclamation should leave of `m` after freeing
`freed` objects. -/
structure Reclaimed (m : Memory) (roots : List Value) (scope : Scope) (freed : Nat)
    (m' : Memory) : Prop where
  /-- The objects that are left are those that must not be freed. -/
  kept : ∀ v, m'.isLive v = true ↔ m.Spared roots scope v
  /-- They are as they were, under the same reference. -/
  same : ∀ v, m'.isLive v = true → m'.get? v = m.get? v
  /-- They stand in the table as before, without the others. -/
  order : m'.table.toList = m.table.toList.filter m'.isLive
  /-- The others are counted. -/
  count : freed = (m.table.toList.filter fun v => !m'.isLive v).length
  /-- No reference of a survivor has come to dangle. -/
  closed : ∀ v o x, m'.get? v = some o → x ∈ o.cls :: o.pointers.toList → m.isLive x = true →
    m'.isLive x = true
  /-- Old objects are those that were old. -/
  old : m'.table.toList.take m'.oldBoundary = (m.table.toList.take m.oldBoundary).filter m'.isLive
  /-- Young objects are those that were young. -/
  young : m'.table.toList.drop m'.oldBoundary = (m.table.toList.drop m.oldBoundary).filter m'.isLive

/-- A reclamation of a memory with an exact table keeps exactly what can be reached, in its old
order and place, and frees and counts the rest. -/
theorem reclaim_exact (h : m.Tabled) (roots : List Value) (scope : Scope) :
    m.Reclaimed roots scope (m.reclaim roots scope).1 (m.reclaim roots scope).2 where
  kept v := isLive_reclaim h
  same v hv := reclaim_spared ((isLive_reclaim h).1 hv)
  order := reclaim_order h
  count := reclaim_count h
  closed v o x := reclaim_fields h
  old := reclaim_old h
  young := by
    -- what is left of the whole table is what is left of its two parts
    have hparts : m.table.toList.filter (m.reclaim roots scope).2.isLive =
        (m.table.toList.take m.oldBoundary).filter (m.reclaim roots scope).2.isLive ++
          (m.table.toList.drop m.oldBoundary).filter (m.reclaim roots scope).2.isLive := by
      rw [← List.filter_append, List.take_append_drop]
    have hall : (m.reclaim roots scope).2.table.toList =
        m.table.toList.filter (m.reclaim roots scope).2.isLive := reclaim_order h
    rw [← List.take_append_drop (m.reclaim roots scope).2.oldBoundary
      (m.reclaim roots scope).2.table.toList, reclaim_old h, hparts] at hall
    exact List.append_cancel_left hall

/-- Three objects: the first two refer to one another, the third to the first. -/
def knot : Memory :=
  let object (cls field : Value) := Object.ofPointers cls .fixed #[field]
  let m := ((empty .standard).place (object (.small 0) (.ref 1 0))).2
  let m := (m.place (object (.small 0) (.ref 0 0))).2
  (m.place (object (.ref 0 0) (.small 5))).2

theorem tabled_knot : knot.Tabled := by
  refine (WellFormed.place (WellFormed.place (WellFormed.place (wellFormed_empty _) ?_) ?_)
    ?_).toTabled
  · decide
  · decide
  · decide

/-- A root that dangles keeps nothing alive; one into the knot keeps both of its objects. -/
theorem reclaim_exact_knot :
    knot.Tabled ∧ knot.Reclaimed [.small 3, .ref 1 0, .ref 2 7] .full
      (knot.reclaim [.small 3, .ref 1 0, .ref 2 7] .full).1
      (knot.reclaim [.small 3, .ref 1 0, .ref 2 7] .full).2 :=
  ⟨tabled_knot, reclaim_exact tabled_knot _ _⟩

end Smalltalk.Memory
