import Smalltalk.Proofs.Bookkeeping

/-!
# Stale references

A slot counts its generations in 32 bits and the count would start again after the last one, while a
reference has room for 30 bits of it. Neither width lets a stale reference come back to life. A slot
is vacated only through a reference that resolves, so its count is below `2^30` then and goes up by
one; and once it has reached `2^30` no reference resolves in the slot any more, so that it is never
vacated again. Hence the count never starts again, and a reference that the count has passed stays
behind for ever.
-/

namespace Smalltalk.Memory

variable {m m' : Memory} {v : Value} {settings : TableSettings}

/-! ### References that were passed -/

/-- Whether the slot of a reference is in a later generation. -/
def Outlived (m : Memory) : Value → Prop
  | .small _ => False
  | .ref index generation => ∃ slot, m.slots[index.toNat]? = some slot ∧
      generation.toNat < slot.generation.toNat

/-- What was passed does not resolve. -/
theorem Outlived.get?_eq_none (h : m.Outlived v) : m.get? v = none := by
  cases v with
  | small n => exact h.elim
  | ref index generation =>
    obtain ⟨slot, hs, hlt⟩ := h
    simp only [get?, hs]
    exact if_neg (Nat.ne_of_gt hlt)

/-- A reference that resolved and does so no more was passed. -/
theorem Later.outlived (h : Later m m') (live : m.isLive v = true) (dead : m'.isLive v = false) :
    m'.Outlived v := by
  obtain ⟨o, ho⟩ := isLive_iff.1 live
  obtain ⟨index, generation, slot, rfl, hs, hg, hobject⟩ := get?_eq_some.1 ho
  obtain ⟨slot', hs', hlater⟩ := h.slot _ slot hs
  refine ⟨slot', hs', ?_⟩
  rcases hlater with hlt | ⟨hsame, hkept⟩
  · rwa [← hg]
  · -- in the same generation the object would still be there
    obtain ⟨o', ho'⟩ := Option.isSome_iff_exists.1 (hkept (by rw [hobject]; rfl))
    have hlive : m'.get? (.ref index generation) = some o' := by
      refine get?_eq_some.2 ⟨index, generation, slot', rfl, hs', ?_, ho'⟩
      rw [hsame, hg]
    rw [isLive, hlive] at dead
    exact absurd dead (by simp)

/-- What was passed stays behind. -/
theorem Outlived.later (hv : m.Outlived v) (h : Later m m') : m'.Outlived v := by
  cases v with
  | small n => exact hv.elim
  | ref index generation =>
    obtain ⟨slot, hs, hlt⟩ := hv
    obtain ⟨slot', hs', hlater⟩ := h.slot _ slot hs
    refine ⟨slot', hs', ?_⟩
    rcases hlater with hlt' | ⟨hsame, -⟩
    · exact Nat.lt_trans hlt hlt'
    · rwa [hsame]

/-! ### How far slots count -/

/-- No slot has counted beyond the first generation that references have no room for. -/
def Countable (m : Memory) : Prop :=
  ∀ (i : Nat) (slot : Slot), m.slots[i]? = some slot → slot.generation.toNat ≤ 0x40000000

namespace Countable

theorem of_slots (h : m.Countable) (hslots : m'.slots = m.slots) : m'.Countable := by
  intro i slot hs
  rw [hslots] at hs
  exact h i slot hs

theorem modify (h : m.Countable) (v : Value) (f : Object → Object) : (m.modify v f).Countable := by
  cases v with
  | small n => exact h
  | ref index generation =>
    simp only [Memory.modify]
    split
    · intro i slot hs
      simp only [modifyAt, Array.getElem?_modify] at hs
      split at hs
      · obtain ⟨old, hold, rfl⟩ := Option.map_eq_some_iff.1 hs
        exact h i old hold
      · exact h i slot hs
    · exact h

theorem rename (h : m.Countable) (r : Renaming) : (m.rename r).Countable := by
  intro i slot hs
  simp only [Memory.rename, Array.getElem?_map] at hs
  obtain ⟨old, hold, rfl⟩ := Option.map_eq_some_iff.1 hs
  exact h i old hold

/-- A slot that is used for the first time has counted nothing, and the others are not touched. -/
theorem place (h : m.Countable) (o : Object) : (m.place o).2.Countable := by
  intro i slot hs
  cases hf : m.free with
  | nil =>
    simp only [Memory.place, hf, Array.getElem?_push] at hs
    split at hs
    · obtain rfl := Option.some.inj hs
      exact Nat.zero_le _
    · exact h i slot hs
  | cons j free =>
    simp only [Memory.place, hf, Array.getElem?_modify] at hs
    split at hs
    · obtain ⟨old, hold, rfl⟩ := Option.map_eq_some_iff.1 hs
      exact h i old hold
    · exact h i slot hs

/-- The reference through which a slot is vacated has room for the count. -/
theorem vacate (h : m.Countable) (v : Value) : (m.vacate v).Countable := by
  by_cases live : m.isLive v = true
  · obtain ⟨index, generation, slot, rfl, hs, hg, -, hv⟩ := vacate_of_isLive live
    rw [hv]
    intro i next hi
    by_cases hne : index.toNat = i
    · subst hne
      rw [Array.getElem?_setIfInBounds_self_of_lt (Array.getElem?_eq_some_iff.1 hs).1] at hi
      obtain rfl := Option.some.inj hi
      have hlt := generation.isLt
      have hone : (1 : UInt32).toNat = 1 := rfl
      simp only [UInt32.toNat_add, hone]
      omega
    · rw [Array.getElem?_setIfInBounds_ne hne] at hi
      exact h i next hi
  · rw [vacate_of_not_isLive live]
    exact h

theorem foldl_vacate (dead : List Value) (h : m.Countable) : (dead.foldl Memory.vacate m).Countable := by
  induction dead generalizing m with
  | nil => exact h
  | cons v dead ih => exact ih (h.vacate v)

theorem reclaim (h : m.Countable) (roots : List Value) (scope : Scope) :
    (m.reclaim roots scope).2.Countable := by
  have htrimmed : (m.trimmed roots scope).Countable := h.of_slots rfl
  exact (htrimmed.foldl_vacate _).of_slots (reclaim_slots m roots scope)

theorem register {s : Account} (h : s.2.Countable) (o : Object) :
    (s.register (Memory.registerHashed o)).2.Countable := by
  rcases s.register_cases o with hrun | hrun
  · rw [hrun]
    exact h
  · rw [hrun]
    have hready : s.2.readied.Countable := h.of_slots (by rw [readied_frame])
    exact hready.place o

theorem perform {s : Account} (h : s.2.Countable) (op : Operation) : (op.perform s).2.Countable := by
  cases op with
  | register o =>
    exact register (s := (s.1, s.2.setHashSeed (nextSeed s.2.hashSeed))) (h.of_slots rfl) _
  | registerHashed o => exact h.register o
  | write v i x => exact h.modify v _
  | become source target twoWay =>
    simp only [Operation.perform, Memory.become]
    cases Renaming.ofLists source target twoWay with
    | error refusal => exact h
    | ok r => exact h.rename r
  | pin v => exact h.of_slots rfl
  | releasePins count => exact h.of_slots rfl
  | reclaim roots scope => exact h.reclaim roots scope
  | grow =>
    simp only [Operation.perform, attempted_grow]
    split
    · split
      · exact h.of_slots rfl
      · exact h
    · exact h
  | markOldBoundary => exact h.of_slots rfl
  | setHashSeed seed => exact h.of_slots rfl
  | indexOf v =>
    simp only [Operation.perform, Memory.indexOf]
    split
    · exact h
    · split
      · exact h.of_slots rfl
      · exact h
  | enumerate start cls =>
    simp only [Operation.perform, Memory.enumerate]
    split
    · exact h.of_slots rfl
    · exact h

theorem foldl_perform {s : Account} (h : s.2.Countable) (ops : List Operation) :
    (ops.foldl (fun s op => op.perform s) s).2.Countable := by
  induction ops generalizing s with
  | nil => exact h
  | cons op ops ih => exact ih (h.perform op)

end Countable

/-! ### Runs -/

theorem countable_account (settings : TableSettings) (ops : List Operation) :
    (account settings ops).2.Countable :=
  Countable.foldl_perform (s := (0, empty settings)) (fun i slot hs => by simp [empty] at hs) ops

/-- A run goes on from where its first part ends. -/
theorem account_append (settings : TableSettings) (ops rest : List Operation) :
    account settings (ops ++ rest) =
      rest.foldl (fun s op => op.perform s) (account settings ops) := List.foldl_append

/-- Once a reclamation has freed an object, its reference resolves in no later state of the run. No
slot ever counts beyond `2^30`, so no count starts again on the way. -/
theorem freed_never_resolves {roots : List Value} {scope : Scope} (ops : List Operation)
    (live : (account settings ops).2.isLive v = true)
    (freed : (account settings (ops ++ [.reclaim roots scope])).2.isLive v = false)
    (rest : List Operation) :
    (account settings (ops ++ [.reclaim roots scope] ++ rest)).2.get? v = none ∧
      (account settings (ops ++ [.reclaim roots scope] ++ rest)).2.Countable := by
  refine ⟨Outlived.get?_eq_none ?_, countable_account settings _⟩
  have hbefore := later_foldl_perform [.reclaim roots scope] (account settings ops)
  have hafter := later_foldl_perform rest (account settings (ops ++ [.reclaim roots scope]))
  rw [← account_append] at hbefore hafter
  exact (hbefore.outlived live freed).later hafter

/-- The first object is freed and its slot used again, freed again and used a third time. -/
theorem freed_never_resolves_reuse :
    let ops : List Operation := reuse.take 4
    let rest : List Operation := reuse.drop 5 ++ [.reclaim [] .full] ++ reuse.take 1
    ((account narrow ops).2.isLive (.ref 0 0) = true ∧
      (account narrow (ops ++ [.reclaim [.ref 1 0] .full])).2.isLive (.ref 0 0) = false) ∧
    (account narrow (ops ++ [.reclaim [.ref 1 0] .full] ++ rest)).2.get? (.ref 0 0) = none ∧
      (account narrow (ops ++ [.reclaim [.ref 1 0] .full] ++ rest)).2.Countable := by
  intro ops rest
  have live : (account narrow ops).2.isLive (.ref 0 0) = true := by decide +kernel
  have freed : (account narrow (ops ++ [.reclaim [.ref 1 0] .full])).2.isLive (.ref 0 0) = false := by
    cbv
  exact ⟨⟨live, freed⟩, freed_never_resolves ops live freed rest⟩

end Smalltalk.Memory
