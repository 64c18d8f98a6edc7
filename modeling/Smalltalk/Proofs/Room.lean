import Mathlib.Tactic.Common
import Smalltalk.Proofs.Outcome
import Smalltalk.Proofs.Reclamation

/-!
# Making room

An allocation may reclaim objects first, several times and with the pooled contexts given up in
between. Whatever it does, what the machine itself holds on to stays as it was. A slot only ever
gets older: its generation never goes back, and within a generation an object stays in it.
-/

namespace Smalltalk

namespace Memory

variable {m m' m'' : Memory} {v w : Value} {o : Object}

/-! ### Slots get older -/

/-- What may have become of the slots: none is gone, and each is in a later generation or still
has an object if it had one. -/
structure Later (m m' : Memory) : Prop where
  size : m.slots.size ≤ m'.slots.size
  slot : ∀ (i : Nat) (s : Slot), m.slots[i]? = some s → ∃ s', m'.slots[i]? = some s' ∧
    (s.generation.toNat < s'.generation.toNat ∨
      s'.generation = s.generation ∧ (s.object.isSome = true → s'.object.isSome = true))

theorem Later.of_slots (h : m'.slots = m.slots) : Later m m' :=
  ⟨Nat.le_of_eq (by rw [h]), fun i s hs => ⟨s, by rw [h, hs], .inr ⟨rfl, id⟩⟩⟩

theorem Later.refl (m : Memory) : Later m m := .of_slots rfl

theorem Later.trans (h : Later m m') (h' : Later m' m'') : Later m m'' := by
  refine ⟨Nat.le_trans h.size h'.size, fun i s hs => ?_⟩
  obtain ⟨s', hs', hg⟩ := h.slot i s hs
  obtain ⟨s'', hs'', hg'⟩ := h'.slot i s' hs'
  refine ⟨s'', hs'', ?_⟩
  rcases hg with hg | ⟨hg, ho⟩
  · rcases hg' with hg' | ⟨hg', -⟩
    · exact .inl (Nat.lt_trans hg hg')
    · exact .inl (hg' ▸ hg)
  · rcases hg' with hg' | ⟨hg', ho'⟩
    · exact .inl (hg ▸ hg')
    · exact .inr ⟨hg'.trans hg, fun hs => ho' (ho hs)⟩

/-- A memory that can still be addressed could be addressed before. -/
theorem Later.addressable (h : Later m m') (h' : m'.Addressable) : m.Addressable := by
  refine ⟨Nat.le_trans h.size h'.size, fun i s hs => ?_⟩
  obtain ⟨s', hs', hg⟩ := h.slot i s hs
  have hlt := h'.generation i s' hs'
  rcases hg with hg | ⟨hg, -⟩
  · exact Nat.lt_trans hg hlt
  · exact hg ▸ hlt

theorem later_modify (m : Memory) (v : Value) (f : Object → Object) : Later m (m.modify v f) := by
  cases v with
  | small n => exact .refl m
  | ref index generation =>
    simp only [modify]
    split
    · refine ⟨by simp [modifyAt], fun i s hs => ?_⟩
      simp only [modifyAt, Array.getElem?_modify, hs]
      split
      · exact ⟨_, rfl, .inr ⟨rfl, by simp⟩⟩
      · exact ⟨s, rfl, .inr ⟨rfl, id⟩⟩
    · exact .refl m

theorem later_place (m : Memory) (o : Object) : Later m (m.place o).2 := by
  cases hf : m.free with
  | nil =>
    refine ⟨by simp [place, hf], fun i s hs => ⟨s, ?_, .inr ⟨rfl, id⟩⟩⟩
    have hlt := (Array.getElem?_eq_some_iff.1 hs).1
    simp only [place, hf, Array.getElem?_push, if_neg (Nat.ne_of_lt hlt), hs]
  | cons j free =>
    refine ⟨by simp [place, hf], fun i s hs => ?_⟩
    simp only [place, hf, Array.getElem?_modify, hs]
    split
    · exact ⟨_, rfl, .inr ⟨rfl, fun _ => rfl⟩⟩
    · exact ⟨s, rfl, .inr ⟨rfl, id⟩⟩

theorem later_rename (m : Memory) (r : Renaming) : Later m (m.rename r) :=
  ⟨by simp [rename], fun i s hs =>
    ⟨{ s with object := s.object.map r.applyObject },
      by simp only [rename, Array.getElem?_map, hs, Option.map_some], .inr ⟨rfl, by simp⟩⟩⟩

/-- A slot is vacated only in a generation that references can tell from the next. -/
theorem later_vacate (m : Memory) (v : Value) : Later m (m.vacate v) := by
  by_cases live : m.isLive v = true
  · obtain ⟨index, generation, slot, rfl, hs, hg, -, hv⟩ := vacate_of_isLive live
    rw [hv]
    refine ⟨by simp, fun i s hi => ?_⟩
    by_cases hne : index.toNat = i
    · subst hne
      rw [hs] at hi
      obtain rfl := Option.some.inj hi
      refine ⟨_, Array.getElem?_setIfInBounds_self_of_lt (Array.getElem?_eq_some_iff.1 hs).1,
        .inl ?_⟩
      have hlt := generation.isLt
      have hone : (1 : UInt32).toNat = 1 := rfl
      simp only [UInt32.toNat_add, hone]
      omega
    · exact ⟨s, by rw [Array.getElem?_setIfInBounds_ne hne, hi], .inr ⟨rfl, id⟩⟩
  · rw [vacate_of_not_isLive live]
    exact .refl m

theorem later_foldl_vacate (dead : List Value) (m : Memory) :
    Later m (dead.foldl vacate m) := by
  induction dead generalizing m with
  | nil => exact .refl m
  | cons v dead ih => exact (later_vacate m v).trans (ih _)

theorem later_reclaim (m : Memory) (roots : List Value) (scope : Scope) :
    Later m (m.reclaim roots scope).2 := by
  have htrimmed : Later m (m.trimmed roots scope) := .of_slots rfl
  exact (htrimmed.trans (later_foldl_vacate _ _)).trans (.of_slots (reclaim_slots m roots scope))

/-! ### What stays -/

theorem Stocked.of_slots (h : m.Stocked) (hslots : m'.slots = m.slots) (hfree : m'.free = m.free) :
    m'.Stocked := by
  refine ⟨fun i hi => ?_, by rw [hfree]; exact h.distinct⟩
  rw [hslots]
  exact h.vacant i (hfree ▸ hi)

theorem Stocked.modify (h : m.Stocked) (v : Value) (f : Object → Object) :
    (m.modify v f).Stocked := by
  cases v with
  | small n => exact h
  | ref index generation =>
    simp only [Memory.modify]
    split
    · refine ⟨fun i hi => ?_, h.distinct⟩
      obtain ⟨slot, hs, ho⟩ := h.vacant i hi
      simp only [modifyAt, Array.getElem?_modify, hs]
      split
      · exact ⟨_, rfl, by simp [ho]⟩
      · exact ⟨slot, rfl, ho⟩
    · exact h

theorem Stocked.rename (h : m.Stocked) (r : Renaming) : (m.rename r).Stocked := by
  refine ⟨fun i hi => ?_, h.distinct⟩
  obtain ⟨slot, hs, ho⟩ := h.vacant i hi
  exact ⟨{ slot with object := slot.object.map r.applyObject },
    by simp only [Memory.rename, Array.getElem?_map, hs, Option.map_some], by simp [ho]⟩

/-- A new object is seen through its own reference at most, which was stale before. -/
theorem Stocked.get?_place (h : m.Stocked) (o : Object) (w : Value) :
    (m.place o).2.get? w = m.get? w ∨
      w = (m.place o).1 ∧ m.get? w = none ∧ (m.place o).2.get? w = some o := by
  by_cases hp : m.Placeable
  · rw [Memory.get?_place hp]
    by_cases hw : w = (m.place o).1
    · refine .inr ⟨hw, ?_, if_pos hw⟩
      rw [hw]
      exact get?_eq_none.2 (place_fresh hp)
    · exact .inl (if_neg hw)
  · -- no reference reaches the new object
    left
    cases w with
    | small n => rfl
    | ref index generation =>
      cases hf : m.free with
      | nil =>
        simp only [Placeable, hf] at hp
        have hne : index.toNat ≠ m.slots.size := by
          have := index.toNat_lt
          omega
        simp only [Memory.place, hf, get?, Array.getElem?_push, if_neg hne]
      | cons i free =>
        obtain ⟨slot, hs, ho⟩ := h.vacant i (by rw [hf]; exact List.mem_cons_self)
        simp only [Placeable, hf, not_exists, not_and] at hp
        have hge := hp slot hs ho
        simp only [Memory.place, hf, get?, Array.getElem?_modify]
        by_cases hi : i.toNat = index.toNat
        · have hlt := generation.isLt
          rw [← hi, hs]
          simp only [if_true, Option.map_some]
          rw [if_neg (by omega), if_neg (by omega)]
        · rw [if_neg hi]

/-- What is reachable stays so as long as the objects on the way are not touched. -/
theorem Reachable.of_get? {roots : List Value} (h : m.Reachable roots v)
    (same : ∀ w, m.Reachable roots w → m'.get? w = m.get? w) : m'.Reachable roots v := by
  induction h with
  | root hv live =>
    exact .root hv (by rw [isLive, same _ (.root hv live)]; exact live)
  | field hw ho hx live ih =>
    refine ih.field (by rw [same _ hw]; exact ho) hx ?_
    rw [isLive, same _ (hw.field ho hx live)]
    exact live

end Memory

/-- What the machine holds on to, the pooled contexts apart. -/
def Machine.anchors (m : Machine) : List Value :=
  [m.specials.array, m.registers.context, m.registers.home, m.registers.method,
    m.registers.receiver] ++ m.memory.pins.toList

/-- What making room may do. Objects go, but none that the machine can reach, and none that an
object that stays refers to. -/
structure Trims (m m' : Machine) : Prop where
  frame : m' = { m with
    memory := m'.memory
    methodCache := m'.methodCache
    atCache := m'.atCache
    pool := m'.pool
    interrupts := m'.interrupts }
  pins : m'.memory.pins = m.memory.pins
  pool : m'.pool = m.pool ∨ m'.pool = m.pool.clear
  later : m.memory.Later m'.memory
  stocked : m.memory.Stocked → m'.memory.Stocked
  wellFormed : m.memory.WellFormed → m'.memory.WellFormed
  object : ∀ v o, m'.memory.get? v = some o → m.memory.get? v = some o
  kept : ∀ v, m.memory.Reachable (m.anchors ++ m'.pool.roots) v →
    m'.memory.get? v = m.memory.get? v
  fields : m.memory.WellFormed → ∀ v o, m'.memory.get? v = some o →
    ∀ x ∈ o.cls :: o.pointers.toList, m.memory.isLive x = true → m'.memory.isLive x = true

namespace Trims

variable {m m' m'' : Machine}

theorem anchors (h : Trims m m') : m'.anchors = m.anchors := by
  rw [Machine.anchors, h.pins, h.frame]
  rfl

theorem pool_roots (h : Trims m m') : m'.pool.roots ⊆ m.pool.roots := by
  rcases h.pool with e | e
  · rw [e]
    exact List.Subset.refl _
  · rw [e]
    exact List.nil_subset _

/-- Nothing is trimmed while slots, free list, table and pins stay. -/
theorem of_slots (frame : m' = { m with
      memory := m'.memory
      methodCache := m'.methodCache
      atCache := m'.atCache
      pool := m'.pool
      interrupts := m'.interrupts })
    (pool : m'.pool = m.pool ∨ m'.pool = m.pool.clear)
    (slots : m'.memory.slots = m.memory.slots) (free : m'.memory.free = m.memory.free)
    (table : m'.memory.table = m.memory.table) (pins : m'.memory.pins = m.memory.pins) :
    Trims m m' := by
  have hget := Memory.get?_congr slots
  have hlive := Memory.isLive_congr hget
  refine ⟨frame, pins, pool, .of_slots slots, fun h => h.of_slots slots free, fun h => ?_,
    fun v o ho => ?_, fun v _ => by rw [hget], fun _ v o _ x _ live => by rw [hlive]; exact live⟩
  · refine ⟨⟨fun v => ?_, ?_⟩, h.toStocked.of_slots slots free⟩
    · rw [table, hlive]
      exact h.listed v
    · rw [table]
      exact h.once
  · rw [hget] at ho
    exact ho

theorem refl (m : Machine) : Trims m m := of_slots rfl (.inl rfl) rfl rfl rfl rfl

theorem trans (h : Trims m m') (h' : Trims m' m'') : Trims m m'' where
  frame := by rw [h'.frame, h.frame]
  pins := h'.pins.trans h.pins
  pool := by
    rcases h'.pool with e' | e'
    · rw [e']
      exact h.pool
    · rcases h.pool with e | e
      · exact .inr (by rw [e', e])
      · exact .inr (by rw [e', e]; rfl)
  later := h.later.trans h'.later
  stocked := h'.stocked ∘ h.stocked
  wellFormed := h'.wellFormed ∘ h.wellFormed
  object v o ho := h.object v o (h'.object v o ho)
  kept v hv := by
    have sub : m.anchors ++ m''.pool.roots ⊆ m.anchors ++ m'.pool.roots :=
      List.append_subset.2 ⟨List.subset_append_left _ _, fun x hx =>
        List.mem_append_right _ (h'.pool_roots hx)⟩
    have same : ∀ w, m.memory.Reachable (m.anchors ++ m''.pool.roots) w →
        m'.memory.get? w = m.memory.get? w := fun w hw => h.kept w (hw.mono sub)
    have hreach := hv.of_get? same
    rw [← h.anchors] at hreach
    rw [h'.kept v hreach, same v hv]
  fields hwf v o ho x hx live :=
    h'.fields (h.wellFormed hwf) v o ho x hx (h.fields hwf v o (h'.object v o ho) x hx live)

end Trims

namespace Action

open Outcome

variable {m m' : Machine}

theorem roots_eq (m : Machine) (scope : Scope) :
    m.anchors ++ m.pool.roots ⊆ m.roots ++ m.memory.heldRoots scope := by
  have hpins : m.memory.pins.toList ⊆ m.memory.heldRoots scope := by
    cases scope with
    | young => exact List.subset_append_left _ _
    | full => exact List.Subset.refl _
  intro v hv
  rw [Machine.anchors] at hv
  rw [Machine.roots]
  rcases List.mem_append.1 hv with hv | hv
  · rcases List.mem_append.1 hv with hv | hv
    · exact List.mem_append_left _ (List.mem_append_left _ (List.mem_append_left _ hv))
    · exact List.mem_append_right _ (hpins hv)
  · exact List.mem_append_left _ (List.mem_append_left _ (List.mem_append_right _ hv))

theorem reclaim_trims {scope : Scope} {freed : Nat} (h : reclaim scope m = .ok freed m') :
    Trims m m' := by
  have hm : m' = { m with
      memory := (m.memory.reclaim m.roots scope).2
      methodCache := m.methodCache.clear
      atCache := .empty
      interrupts := m'.interrupts } := by
    obtain ⟨left, -, -, rfl⟩ := reclaim_ok.1 h
    rw [noted_frame]
    rfl
  have hmemory : m'.memory = (m.memory.reclaim m.roots scope).2 := by rw [hm]
  have hpool : m'.pool = m.pool := by rw [hm]
  refine ⟨by rw [hm], ?_, .inl hpool, ?_, fun hs => ?_, fun hw => ?_, fun v o ho => ?_,
    fun v hv => ?_, fun hw v o ho x hx live => ?_⟩
  · rw [hmemory, Memory.reclaim_frame]
    rfl
  · rw [hmemory]
    exact Memory.later_reclaim ..
  · rw [hmemory]
    exact hs.reclaim ..
  · rw [hmemory]
    exact hw.reclaim ..
  · rw [hmemory, Memory.reclaim_get?] at ho
    split at ho
    · exact absurd ho (by simp)
    · exact ho
  · rw [hmemory]
    rw [hpool] at hv
    exact Memory.reclaim_spared (hv.mono (roots_eq m scope))
  · rw [hmemory] at ho ⊢
    exact Memory.reclaim_fields hw.toTabled ho hx live

theorem reclaimYoung_trims {wanted freed count : Nat} {turns : List Bool}
    (h : reclaimYoung wanted turns freed m = .ok count m') : Trims m m' := by
  induction turns generalizing m freed with
  | nil =>
    obtain ⟨-, rfl⟩ := pure_ok.1 h
    exact .refl m
  | cons giveUp turns ih =>
    -- a turn reclaims and may be the last one
    have turn : ∀ {m : Machine},
        ((do
          let freed := freed + (← reclaim .young)
          if wanted ≤ freed then return freed else reclaimYoung wanted turns freed) :
          Action Nat) m = .ok count m' → Trims m m' := by
      intro m h
      obtain ⟨n, m₁, hreclaim, h⟩ := bind_ok.1 h
      refine (reclaim_trims hreclaim).trans ?_
      split at h
      · obtain ⟨-, rfl⟩ := pure_ok.1 h
        exact .refl _
      · exact ih h
    cases giveUp with
    | false => exact turn h
    | true =>
      obtain ⟨_, m₁, hclear, h⟩ := bind_ok.1 h
      obtain rfl := modify_ok.1 hclear
      have hgive : Trims m { m.flushCaches with pool := m.pool.clear } :=
        .of_slots rfl (.inr rfl) rfl rfl rfl rfl
      exact hgive.trans (turn h)

theorem makeRoom_trims {u : Unit} (h : makeRoom m = .ok u m') : Trims m m' := by
  simp only [makeRoom, bind_ok, get_ok] at h
  obtain ⟨_, _, ⟨rfl, rfl⟩, freed, m₁, hyoung, h⟩ := h
  refine (reclaimYoung_trims hyoung).trans ?_
  split at h
  · obtain ⟨-, rfl⟩ := pure_ok.1 h
    exact .refl _
  · obtain ⟨_, _, hget, h⟩ := bind_ok.1 h
    obtain ⟨rfl, rfl⟩ := get_ok.1 hget
    split at h
    · obtain ⟨-, rfl⟩ := onMemory_grow_ok.1 h
      exact Trims.of_slots rfl (.inl rfl) rfl rfl rfl rfl
    · obtain ⟨n, m₂, hfull, h⟩ := bind_ok.1 h
      refine (reclaim_trims hfull).trans ?_
      obtain ⟨_, _, hget, h⟩ := bind_ok.1 h
      obtain ⟨rfl, rfl⟩ := get_ok.1 hget
      split at h
      · exact absurd h (by simp [throw_ok])
      · obtain ⟨-, rfl⟩ := pure_ok.1 h
        exact .refl _

/-! ### New objects -/

/-- The machine with a new object. -/
def placed (m : Machine) (o : Object) : Machine :=
  { m with memory := (m.memory.place o).2 }

theorem register_ok {o : Object} {v : Value} {memory : Memory}
    (h : Memory.register o m.memory = .ok v memory) :
    ∃ m₁ hash, Trims m m₁ ∧ m₁.pool = m.pool ∧
      v = (m₁.memory.place { o with hash }).1 ∧ { m with memory } = placed m₁ { o with hash } := by
  obtain ⟨rfl, rfl⟩ := Memory.registerHashed_ok h
  refine ⟨{ m with memory := Memory.readied { m.memory with
    hashSeed := Memory.nextSeed m.memory.hashSeed } }, _, ?_, rfl, rfl, rfl⟩
  rw [Memory.readied_frame]
  exact .of_slots rfl (.inl rfl) rfl rfl rfl rfl

/-- An allocation trims the memory if it is full, and then adds the object. -/
theorem allocate_ok {o : Object} {v : Value} (h : allocate o m = .ok v m') :
    ∃ m₁ hash, Trims m m₁ ∧ v = (m₁.memory.place { o with hash }).1 ∧
      m' = placed m₁ { o with hash } := by
  have register : ∀ {m : Machine}, onMemory (Memory.register o) m = .ok v m' →
      ∃ m₁ hash, Trims m m₁ ∧ v = (m₁.memory.place { o with hash }).1 ∧
        m' = placed m₁ { o with hash } := by
    intro m h
    obtain ⟨memory, hregister, rfl⟩ := onMemory_ok.1 h
    obtain ⟨m₁, hash, htrims, -, hv, hm⟩ := register_ok hregister
    exact ⟨m₁, hash, htrims, hv, hm⟩
  obtain ⟨_, _, hget, h⟩ := bind_ok.1 h
  obtain ⟨rfl, rfl⟩ := get_ok.1 hget
  split at h
  · obtain ⟨_, m₁, hroom, h⟩ := bind_ok.1 h
    obtain ⟨m₂, hash, htrims, hv, hm⟩ := register h
    exact ⟨m₂, hash, (makeRoom_trims hroom).trans htrims, hv, hm⟩
  · exact register h

/-- What a context from the pool has in its fields. -/
def wiped (o : Object) (nil : Value) : Object :=
  { o with pointers := Array.replicate o.pointers.size nil }

theorem pool_allocate_ok {large : Bool} {cls nil v : Value} {pool pool' : ContextPool}
    {memory memory' : Memory}
    (h : ContextPool.allocate large cls nil (pool, memory) = .ok v (pool', memory')) :
    (∃ o, pool.head large = some v ∧ memory.get? v = some o ∧
      pool' = pool.setHead large (if (o.pointers[Context.sender]?).getD nil = nil then none
        else some ((o.pointers[Context.sender]?).getD nil)) ∧
      memory' = memory.replace v (wiped o nil)) ∨
    (pool.head large = none ∧ pool' = { pool with allocated := pool.allocated + 1 } ∧
      Memory.register (.ofPointers cls .indexable (Array.replicate (Context.size large) nil))
        memory = .ok v memory') := by
  simp only [ContextPool.allocate, ContextPool.take] at h
  cases hhead : pool.head large with
  | none =>
    simp only [hhead] at h
    split at h
    · rename_i context memory₁ hregister
      simp only [EStateM.Result.ok.injEq, Prod.mk.injEq] at h
      obtain ⟨rfl, rfl, rfl⟩ := h
      exact .inr ⟨rfl, rfl, hregister⟩
    · exact absurd h (by simp)
  | some context =>
    simp only [hhead] at h
    cases ho : memory.get? context with
    | none => simp [ho] at h
    | some o =>
      simp only [ho, EStateM.Result.ok.injEq, Prod.mk.injEq] at h
      obtain ⟨rfl, rfl, rfl⟩ := h
      exact .inl ⟨o, rfl, ho, rfl, rfl⟩

/-- A context is taken from the pool, or else it is a new object. -/
inductive Supplied (large : Bool) (m : Machine) (v : Value) : Machine → Prop
  | pooled {o : Object} {next : Value} (hhead : m.pool.head large = some v)
      (ho : m.memory.get? v = some o) (hnext : (o.pointers[Context.sender]?).getD m.specials.nil = next) :
      Supplied large m v { m with
        pool := m.pool.setHead large (if next = m.specials.nil then none else some next)
        memory := m.memory.replace v (wiped o m.specials.nil) }
  | fresh {m₁ : Machine} {hash : UInt16} {o : Object} (htrims : Trims m m₁)
      (hhead : m₁.pool = m.pool ∧ m.pool.head large = none)
      (ho : o = { Object.ofPointers (m.specials.get m.memory Special.classMethodContext) .indexable
        (Array.replicate (Context.size large) m.specials.nil) with hash })
      (hv : v = (m₁.memory.place o).1) :
      Supplied large m v { placed m₁ o with
        pool := { m.pool with allocated := m.pool.allocated + 1 } }

theorem allocateContext_ok {large : Bool} {v : Value} (h : allocateContext large m = .ok v m') :
    ∃ m₁, Trims m m₁ ∧ Supplied large m₁ v m' := by
  have supply : ∀ {m : Machine},
      ((do
        let cls ← special Special.classMethodContext
        let nil ← nil
        onPool (ContextPool.allocate large cls nil)) : Action Value) m = .ok v m' →
      Supplied large m v m' := by
    intro m h
    simp only [bind_ok, special_ok, nil_ok] at h
    obtain ⟨_, _, ⟨rfl, rfl⟩, _, _, ⟨rfl, rfl⟩, h⟩ := h
    simp only [onPool] at h
    split at h
    · rename_i context pool memory hpool
      simp only [EStateM.Result.ok.injEq] at h
      obtain ⟨rfl, rfl⟩ := h
      rcases pool_allocate_ok hpool with ⟨o, hhead, ho, rfl, rfl⟩ | ⟨hhead, rfl, hregister⟩
      · exact .pooled hhead ho rfl
      · obtain ⟨m₁, hash, htrims, hsame, hv, hm⟩ := register_ok hregister
        have hend := Supplied.fresh htrims ⟨hsame, hhead⟩ rfl hv
        rw [← hm] at hend
        exact hend
    · exact absurd h (by simp)
  obtain ⟨_, _, hget, h⟩ := bind_ok.1 h
  obtain ⟨rfl, rfl⟩ := get_ok.1 hget
  split at h
  · obtain ⟨_, m₁, hroom, h⟩ := bind_ok.1 h
    exact ⟨m₁, makeRoom_trims hroom, supply h⟩
  · exact ⟨m, .refl m, supply h⟩

end Action

end Smalltalk
