import Smalltalk.Proofs.Chains
import Smalltalk.Proofs.Frames
import Smalltalk.Proofs.Registration
import Smalltalk.Proofs.Unwinding

/-!
# Lending contexts

The pool hands contexts out and takes them back. Those that wait for another use are linked through
their sender field, which their users were free to overwrite, and the pool itself holds on to the
first context of each chain only. That is enough as long as nobody writes to a context that has been
given back: the contexts of a chain are then the ones that have been given back and not handed out
since, the last one first, and nobody else has any of them.

The one exception is a new context that is put into a slot that has been vacated `2^30` times. The
reference that is handed out for it does not resolve. No other context is handed out in its place.
-/

namespace Smalltalk

namespace Memory

variable {m m' : Memory} {c v w cls nil : Value} {o : Object} {large side : Bool} {f : Object → Object}

/-! ### Contexts -/

/-- Whether a value refers to a context of the class `cls` and of one of the two sizes. -/
def IsContext (m : Memory) (cls : Value) (large : Bool) (c : Value) : Prop :=
  ∃ o, m.get? c = some o ∧ o.cls = cls ∧ o.pointers.size = Context.size large

/-- Whether it has nil in all its fields. -/
def IsBlank (m : Memory) (cls nil : Value) (large : Bool) (c : Value) : Prop :=
  ∃ o, m.get? c = some o ∧ o.cls = cls ∧ o.pointers = Array.replicate (Context.size large) nil

theorem IsContext.isLive (h : m.IsContext cls large c) : m.isLive c = true := by
  obtain ⟨o, ho, -⟩ := h
  exact isLive_of_get? ho

theorem not_isContext_small {n : Int} : ¬ m.IsContext cls large (.small n) := by
  rintro ⟨o, ho, -⟩
  exact absurd ho (by simp)

/-- No context is of both sizes. -/
theorem IsContext.large_eq (h : m.IsContext cls large c) (h' : m.IsContext cls side c) :
    large = side := by
  obtain ⟨o, ho, -, hsize⟩ := h
  obtain ⟨o', ho', -, hsize'⟩ := h'
  obtain rfl := Option.some.inj (ho.symm.trans ho')
  have hsame := hsize.symm.trans hsize'
  cases large <;> cases side <;> first | rfl | exact absurd hsame (by decide)

theorem IsContext.of_get? (h : m.IsContext cls large c) (hget : m'.get? c = m.get? c) :
    m'.IsContext cls large c := by
  rwa [IsContext, hget]

theorem IsContext.exists_sender (h : m.IsContext cls large c) :
    ∃ x, m.cell c Context.sender = some x := by
  obtain ⟨o, ho, -, hsize⟩ := h
  refine Memory.exists_cell ho ?_
  rw [hsize]
  cases large <;> decide

/-- A change that keeps class and size makes no context and unmakes none. -/
theorem isContext_modify
    (hf : ∀ o, m.get? v = some o → (f o).cls = o.cls ∧ (f o).pointers.size = o.pointers.size) :
    (m.modify v f).IsContext cls large c ↔ m.IsContext cls large c := by
  rw [IsContext, get?_modify]
  split
  · rename_i hc
    subst hc
    simp only [Option.map_eq_some_iff]
    constructor
    · rintro ⟨-, ⟨o, ho, rfl⟩, hcls, hsize⟩
      exact ⟨o, ho, (hf o ho).1 ▸ hcls, (hf o ho).2 ▸ hsize⟩
    · rintro ⟨o, ho, hcls, hsize⟩
      exact ⟨f o, ⟨o, ho, rfl⟩, (hf o ho).1.trans hcls, (hf o ho).2.trans hsize⟩
  · rfl

/-! ### Objects that no reference reaches -/

/-- The slot that a value names has an object, and has been vacated more often than a reference can
tell. -/
def Buried (m : Memory) : Value → Prop
  | .small _ => False
  | .ref index _ => ∃ slot, m.slots[index.toNat]? = some slot ∧
      0x40000000 ≤ slot.generation.toNat ∧ slot.object.isSome = true

theorem Buried.overrun (h : m.Buried c) : m.Overrun c := by
  cases c with
  | small n => exact h.elim
  | ref index generation =>
    obtain ⟨slot, hs, hg, -⟩ := h
    exact ⟨slot, hs, hg⟩

theorem Overrun.get?_eq_none (h : m.Overrun c) : m.get? c = none := by
  cases c with
  | small n => rfl
  | ref index generation =>
    obtain ⟨slot, hs, hg⟩ := h
    have hlt := generation.isLt
    simp only [get?, hs]
    exact if_neg (by omega)

theorem Buried.modify (h : m.Buried c) (v : Value) (f : Object → Object) :
    (m.modify v f).Buried c := by
  cases c with
  | small n => exact h.elim
  | ref index generation =>
    obtain ⟨slot, hs, hg, hobject⟩ := h
    cases v with
    | small n => exact ⟨slot, hs, hg, hobject⟩
    | ref index' generation' =>
      simp only [Memory.modify]
      split
      · simp only [Buried, modifyAt, Array.getElem?_modify, hs]
        split
        · exact ⟨_, rfl, hg, by rw [Option.isSome_map]; exact hobject⟩
        · exact ⟨slot, rfl, hg, hobject⟩
      · exact ⟨slot, hs, hg, hobject⟩

/-- A new object is not put where there is one. -/
theorem Buried.place (h : m.Buried c) (hstocked : m.Stocked) (room : m.slots.size < 0x100000000)
    (o : Object) : (m.place o).2.Buried c ∧ c ≠ (m.place o).1 := by
  cases c with
  | small n => exact h.elim
  | ref index generation =>
    obtain ⟨slot, hs, hg, hobject⟩ := h
    cases hf : m.free with
    | nil =>
      have hlt := (Array.getElem?_eq_some_iff.1 hs).1
      have hindex : (UInt32.ofNat m.slots.size).toNat = m.slots.size :=
        UInt32.toNat_ofNat_of_lt' room
      simp only [Memory.place, hf, Buried, Array.getElem?_push, if_neg hlt.ne]
      refine ⟨⟨slot, hs, hg, hobject⟩, fun e => hlt.ne ?_⟩
      rw [Value.reference, Value.ref.injEq] at e
      rw [e.1, hindex]
    | cons i free =>
      obtain ⟨vacant, hvacant, hnone⟩ := hstocked.vacant i (by rw [hf]; exact List.mem_cons_self)
      have hne : i.toNat ≠ index.toNat := by
        intro e
        rw [e, hs] at hvacant
        obtain rfl := Option.some.inj hvacant
        rw [hnone] at hobject
        exact absurd hobject (by simp)
      simp only [Memory.place, hf, Buried, Array.getElem?_modify, if_neg hne]
      refine ⟨⟨slot, hs, hg, hobject⟩, fun e => hne ?_⟩
      rw [Value.reference, Value.ref.injEq] at e
      rw [e.1]

theorem Buried.vacate (h : m.Buried c) (v : Value) : (m.vacate v).Buried c := by
  by_cases live : m.isLive v = true
  · obtain ⟨index, generation, old, rfl, hold, hgold, -, hv⟩ := vacate_of_isLive live
    cases c with
    | small n => exact h.elim
    | ref index' generation' =>
      obtain ⟨slot, hs, hg, hobject⟩ := h
      -- what is vacated is in a generation that a reference has room for
      have hne : index.toNat ≠ index'.toNat := by
        intro e
        rw [← e, hold] at hs
        obtain rfl := Option.some.inj hs
        have hlt := generation.isLt
        omega
      rw [hv]
      exact ⟨slot, by rw [Array.getElem?_setIfInBounds_ne hne, hs], hg, hobject⟩
  · rw [vacate_of_not_isLive live]
    exact h

theorem Buried.of_slots (h : m.Buried c) (hslots : m'.slots = m.slots) : m'.Buried c := by
  cases c with
  | small n => exact h.elim
  | ref index generation =>
    obtain ⟨slot, hs, hslot⟩ := h
    exact ⟨slot, by rw [hslots, hs], hslot⟩

theorem Buried.foldl_vacate (dead : List Value) (h : m.Buried c) :
    (dead.foldl Memory.vacate m).Buried c := by
  induction dead generalizing m with
  | nil => exact h
  | cons v dead ih => exact ih (h.vacate v)

theorem Buried.reclaim (h : m.Buried c) (roots : List Value) (scope : Scope) :
    (m.reclaim roots scope).2.Buried c := by
  have htrimmed : (m.trimmed roots scope).Buried c := h.of_slots rfl
  exact (htrimmed.foldl_vacate _).of_slots (reclaim_slots m roots scope)

/-- A new object that is not found is buried. -/
theorem Overrun.buried_place (hover : (m.place o).2.Overrun (m.place o).1)
    (room : m.slots.size < 0x100000000) : (m.place o).2.Buried (m.place o).1 := by
  cases hf : m.free with
  | nil =>
    have hindex : (UInt32.ofNat m.slots.size).toNat = m.slots.size :=
      UInt32.toNat_ofNat_of_lt' room
    simp [Memory.place, hf, Value.reference, Overrun, hindex] at hover
  | cons i free =>
    simp only [Memory.place, hf, Value.reference, Overrun, Buried, Array.getElem?_modify,
      if_true] at hover ⊢
    obtain ⟨slot, hs, hg⟩ := hover
    obtain ⟨old, -, rfl⟩ := Option.map_eq_some_iff.1 hs
    exact ⟨_, hs, hg, rfl⟩

/-- A slot that is changed is not vacated. -/
theorem Worn.modify {k : Nat} (h : m.Worn k) (v : Value) (f : Object → Object) :
    (m.modify v f).Worn k := by
  obtain ⟨⟨o, hslots⟩, hfree, htable, hpins, hcapacity, hsettings⟩ := h
  have hmodified : ∃ o', (m.modify v f).slots = #[⟨UInt32.ofNat k, some o'⟩] := by
    cases v with
    | small n => exact ⟨o, hslots⟩
    | ref index generation =>
      simp only [Memory.modify]
      split
      · rename_i live
        -- the only slot that a live reference can name
        obtain ⟨o', ho'⟩ := isLive_iff.1 live
        obtain ⟨i, g, slot, hv, hs, -⟩ := get?_eq_some.1 ho'
        obtain ⟨rfl, rfl⟩ := Value.ref.inj hv
        have hlt := (Array.getElem?_eq_some_iff.1 hs).1
        rw [hslots] at hlt
        have hzero : index.toNat = 0 := Nat.lt_one_iff.1 hlt
        refine ⟨f o, ?_⟩
        rw [modifyAt, hslots, hzero]
        rfl
      · exact ⟨o, hslots⟩
  rw [modify_frame]
  exact ⟨hmodified, hfree, htable, hpins, hcapacity, hsettings⟩

/-! ### What a change leaves of the contexts -/

/-- A change of the memory that leaves the contexts in `held` what they are, and does not make one of
nil. -/
structure Carries (cls nil : Value) (held : Value → Prop) (m m' : Memory) : Prop where
  stocked : m'.Stocked
  apart : ∀ large, m'.IsContext cls large nil → m.IsContext cls large nil
  context : ∀ c large, held c → m.IsContext cls large c → m'.IsContext cls large c
  buried : ∀ c, m.Buried c → m'.Buried c

namespace Carries

variable {held : Value → Prop}

theorem of_slots (h : m.Stocked) (hslots : m'.slots = m.slots) (hfree : m'.free = m.free) :
    Carries cls nil held m m' where
  stocked := h.of_slots hslots hfree
  apart _ hnil := hnil.of_get? (by rw [get?_congr hslots])
  context _ _ _ hc := hc.of_get? (by rw [get?_congr hslots])
  buried _ hc := hc.of_slots hslots

theorem modify (h : m.Stocked) (v : Value)
    (hf : ∀ o, m.get? v = some o → (f o).cls = o.cls ∧ (f o).pointers.size = o.pointers.size) :
    Carries cls nil held m (m.modify v f) where
  stocked := h.modify v f
  apart _ := (isContext_modify hf).1
  context _ _ _ := (isContext_modify hf).2
  buried _ hc := hc.modify v f

theorem place (h : m.Stocked) (room : m.slots.size < 0x100000000) (o : Object)
    (apart : ∀ large, ¬ (m.place o).2.IsContext cls large nil) :
    Carries cls nil held m (m.place o).2 where
  stocked := h.place
  apart large hnil := absurd hnil (apart large)
  context c large _ hc := by
    rcases h.get?_place o c with hget | ⟨-, hnone, -⟩
    · exact hc.of_get? hget
    · obtain ⟨o', ho', -⟩ := hc
      exact absurd (ho'.symm.trans hnone) (by simp)
  buried c hc := (hc.place h room o).1

theorem reclaim {roots : List Value} {scope : Scope} (h : m.Stocked)
    (hheld : ∀ c, held c → m.isLive c = true → m.Spared roots scope c) :
    Carries cls nil held m (m.reclaim roots scope).2 where
  stocked := h.reclaim roots scope
  apart large := by
    rintro ⟨o, ho, hcontext⟩
    rw [reclaim_get?] at ho
    split at ho
    · exact absurd ho (by simp)
    · exact ⟨o, ho, hcontext⟩
  context c large hc hcontext := hcontext.of_get? (reclaim_spared (hheld c hc hcontext.isLive))
  buried c hc := hc.reclaim roots scope

end Carries

end Memory

namespace ContextPool

open Memory

variable {cls nil c v w x : Value} {m memory : Memory} {large side : Bool} {pool : ContextPool}
  {rest : List Value}

theorem chainOf?_eq_some_iff : chainOf? m c cls = some large ↔ m.IsContext cls large c := by
  refine ⟨fun h => Recycling.chainOf?_eq_some h, fun ⟨o, ho, hcls, hsize⟩ => ?_⟩
  have hchain : chainFor? o.pointers.size = some large := by
    rw [hsize]
    cases large <;> rfl
  simp [chainOf?, ho, hcls, hchain, guard]

theorem allocate_of_take {pool' : ContextPool}
    (h : pool.take m large nil = .ok (some (c, pool', memory))) :
    allocate large cls nil (pool, m) = .ok c (pool', memory) := by
  simp only [allocate, h]

/-- An allocation that fails leaves the pool and the slots alone. -/
theorem allocate_error {pool' : ContextPool} {e : Fault}
    (h : allocate large cls nil (pool, m) = .error e (pool', memory)) :
    pool' = pool ∧ memory.slots = m.slots ∧ memory.free = m.free := by
  simp only [allocate] at h
  split at h
  · obtain ⟨rfl, rfl⟩ := Prod.mk.inj (EStateM.Result.error.inj h).2
    exact ⟨rfl, rfl, rfl⟩
  · exact absurd h (by simp)
  · split at h
    · exact absurd h (by simp)
    · rename_i hregister
      obtain ⟨rfl, rfl⟩ := Prod.mk.inj (EStateM.Result.error.inj h).2
      obtain rfl := registerHashed_error hregister
      exact ⟨rfl, rfl, rfl⟩

theorem later_allocate {pool' : ContextPool}
    (h : allocate large cls nil (pool, m) = .ok c (pool', memory)) : Later m memory := by
  rcases Action.pool_allocate_ok h with ⟨o, -, -, -, rfl⟩ | ⟨-, -, hregister⟩
  · exact later_modify ..
  · obtain ⟨-, rfl⟩ := registerHashed_ok hregister
    have hready : Later m (m.setHashSeed (nextSeed m.hashSeed)).readied := .of_slots (readied_slots _)
    exact hready.trans (later_place _ _)

/-- A context is accepted if it is one of the class and of either size. -/
theorem recycle_accepts : (pool.recycle m c cls nil).1 = true ↔ ∃ large, m.IsContext cls large c := by
  simp only [← chainOf?_eq_some_iff, recycle]
  cases chainOf? m c cls with
  | none => simp
  | some large => simp

theorem recycle_refuses (h : (pool.recycle m c cls nil).1 = false) :
    pool.recycle m c cls nil = (false, pool, m) := by
  rw [recycle] at h ⊢
  split at h
  · rfl
  · exact absurd h (by simp)

/-! ### Loans -/

/-- A pool and its memory, and which contexts its users have. -/
structure Loans where
  pool : ContextPool
  memory : Memory
  /-- The contexts that have been handed out and not taken back. -/
  lent : List Value
  /-- The contexts of each size that have been taken back and not handed out or given up since, the
  last one first. -/
  waiting : Bool → List Value

namespace Loans

variable {s : Loans}

/-- An empty pool. -/
def start (m : Memory) : Loans := { pool := .empty, memory := m, lent := [], waiting := fun _ => [] }

/-- A context is handed out. -/
def handOut (s : Loans) (c : Value) (pool : ContextPool) (memory : Memory) : Loans where
  pool
  memory
  lent := c :: s.lent
  waiting := fun large => (s.waiting large).erase c

/-- A context is taken back, to wait with the others of its size. -/
def takeBack (s : Loans) (c : Value) (pool : ContextPool) (memory : Memory) : Loans where
  pool
  memory
  lent := s.lent.erase c
  waiting := fun large =>
    if (s.memory.get? c).any (·.pointers.size = Context.size large) then c :: s.waiting large
    else s.waiting large

end Loans

/-- What is asked of a pool, and what its users and the memory do in between. -/
inductive Request where
  | allocate (large : Bool)
  | take (large : Bool)
  | recycle (c : Value)
  | clear
  | write (c : Value) (i : Nat) (x : Value)
  | reclaim (roots : List Value) (scope : Scope)

/-- The users give back and write to contexts they have only, and nobody frees what they or the pool
hold on to. -/
def Request.Allowed (s : Loans) : Request → Prop
  | recycle c => c ∈ s.lent
  | write c _ _ => c ∈ s.lent
  | reclaim roots _ => s.pool.roots ++ s.lent ⊆ roots
  | _ => True

/-- Carries out a request for contexts of the class `cls`. -/
def Request.perform (cls nil : Value) : Request → Loans → Loans
  | allocate large, s =>
    match ContextPool.allocate large cls nil (s.pool, s.memory) with
    | .ok c (pool, memory) => s.handOut c pool memory
    | .error _ (pool, memory) => { s with pool, memory }
  | take large, s =>
    match s.pool.take s.memory large nil with
    | .ok (some (c, pool, memory)) => s.handOut c pool memory
    | .ok none => s
    | .error _ => s
  | recycle c, s =>
    match s.pool.recycle s.memory c cls nil with
    | (true, pool, memory) => s.takeBack c pool memory
    | (false, pool, memory) => { s with pool, memory }
  | clear, s => { s with pool := s.pool.clear, waiting := fun _ => [] }
  | write c i x, s => { s with memory := s.memory.setField c i x }
  | reclaim roots scope, s => { s with memory := (s.memory.reclaim roots scope).2 }

theorem Request.later_perform (cls nil : Value) (request : Request) (s : Loans) :
    Later s.memory (request.perform cls nil s).memory := by
  cases request with
  | allocate large =>
    simp only [perform]
    cases hrun : ContextPool.allocate large cls nil (s.pool, s.memory) with
    | ok c state => exact later_allocate hrun
    | error e state => exact .of_slots (allocate_error hrun).2.1
  | take large =>
    simp only [perform]
    cases hrun : s.pool.take s.memory large nil with
    | error e => exact .refl s.memory
    | ok answer =>
      cases answer with
      | none => exact .refl s.memory
      | some answer =>
        obtain ⟨c, pool, memory⟩ := answer
        have hallocate : ContextPool.allocate large cls nil (s.pool, s.memory) = .ok c (pool, memory) :=
          allocate_of_take hrun
        exact later_allocate hallocate
  | recycle c =>
    simp only [perform, ContextPool.recycle]
    cases chainOf? s.memory c cls with
    | none => exact .refl s.memory
    | some large => exact later_modify ..
  | clear => exact .refl s.memory
  | write c i x => exact later_modify ..
  | reclaim roots scope => exact later_reclaim ..

/-- What requests lead to from an empty pool over any memory that keeps its free list, as long as nil is
not a context. -/
inductive Run (cls nil : Value) : Loans → Prop where
  | start {m : Memory} (stocked : m.Stocked) (apart : ∀ large, ¬ m.IsContext cls large nil) :
      Run cls nil (.start m)
  | step {s : Loans} (request : Request) (h : Run cls nil s) (allowed : request.Allowed s)
      (apart : ∀ large, ¬ (request.perform cls nil s).memory.IsContext cls large nil) :
      Run cls nil (request.perform cls nil s)

/-! ### The order of the pool -/

/-- The contexts that wait are linked in the order in which they will be handed out, and nobody has
them. -/
structure Orderly (cls nil : Value) (s : Loans) : Prop where
  stocked : s.memory.Stocked
  apart : ∀ large, ¬ s.memory.IsContext cls large nil
  head : ∀ large, s.pool.head large = (s.waiting large).head?
  strung : ∀ large, Strung s.memory.cell nil (s.waiting large)
  sized : ∀ large, ∀ c ∈ s.waiting large, s.memory.IsContext cls large c
  distinct : ∀ large, (s.waiting large).Nodup
  unlent : ∀ large, ∀ c ∈ s.waiting large, c ∉ s.lent
  once : s.lent.Nodup
  kept : ∀ c ∈ s.lent, (∃ large, s.memory.IsContext cls large c) ∨ s.memory.Buried c

namespace Orderly

variable {s : Loans}

theorem start (stocked : m.Stocked) (apart : ∀ large, ¬ m.IsContext cls large nil) :
    Orderly cls nil (.start m) where
  stocked := stocked
  apart := apart
  head large := by cases large <;> rfl
  strung _ := trivial
  sized _ _ hc := absurd hc List.not_mem_nil
  distinct _ := List.nodup_nil
  unlent _ _ hc := absurd hc List.not_mem_nil
  once := List.nodup_nil
  kept _ hc := absurd hc List.not_mem_nil

/-- No context waits in both chains. -/
theorem side_eq (h : Orderly cls nil s) (hc : c ∈ s.waiting large) (hc' : c ∈ s.waiting side) :
    large = side := (h.sized large c hc).large_eq (h.sized side c hc')

theorem ne_nil (h : Orderly cls nil s) (hc : c ∈ s.waiting large) : c ≠ nil :=
  fun e => h.apart large (e ▸ h.sized large c hc)

/-- A change of the memory that leaves the contexts what they are, and the senders of those that
wait. -/
theorem carry (h : Orderly cls nil s)
    (hc : Carries cls nil (fun c => c ∈ s.lent ∨ ∃ large, c ∈ s.waiting large) s.memory memory)
    (hcell : ∀ large, ∀ c ∈ s.waiting large,
      memory.cell c Context.sender = s.memory.cell c Context.sender) :
    Orderly cls nil { s with memory } where
  stocked := hc.stocked
  apart large hnil := h.apart large (hc.apart large hnil)
  head := h.head
  strung large := (h.strung large).congr (hcell large)
  sized large c hmem := hc.context c large (.inr ⟨large, hmem⟩) (h.sized large c hmem)
  distinct := h.distinct
  unlent := h.unlent
  once := h.once
  kept c hmem := (h.kept c hmem).imp
    (fun ⟨large, hcontext⟩ => ⟨large, hc.context c large (.inl hmem) hcontext⟩) (hc.buried c)

/-- What the users do to a context they have does not matter to the pool. -/
theorem modify {f : Object → Object} (h : Orderly cls nil s) (hlent : c ∈ s.lent)
    (hf : ∀ o, s.memory.get? c = some o →
      (f o).cls = o.cls ∧ (f o).pointers.size = o.pointers.size) :
    Orderly cls nil { s with memory := s.memory.modify c f } := by
  refine h.carry (.modify h.stocked c hf) fun large w hw => ?_
  have hne : w ≠ c := fun e => h.unlent large w hw (e ▸ hlent)
  rw [cell, get?_modify, if_neg hne, cell]

/-- The first context of a chain is handed out. -/
theorem pop {pool : ContextPool} (h : Orderly cls nil s) (hc : s.waiting large = c :: rest)
    (hpool : ∀ side, pool.head side = if side = large then rest.head? else s.pool.head side) :
    Orderly cls nil (s.handOut c pool s.memory) := by
  have hmem : c ∈ s.waiting large := hc ▸ List.mem_cons_self
  have hsame : ∀ side, side ≠ large → (s.waiting side).erase c = s.waiting side := fun side hne =>
    List.erase_of_not_mem fun hc' => hne (h.side_eq hc' hmem)
  have hrest : (s.waiting large).erase c = rest := by rw [hc, List.erase_cons_head]
  have hsub : ∀ side, (s.waiting side).erase c ⊆ s.waiting side := fun side => List.erase_subset
  refine ⟨h.stocked, h.apart, fun side => ?_, fun side => ?_,
    fun side w hw => h.sized side w (hsub side hw), fun side => (h.distinct side).erase c,
    fun side w hw => ?_, List.nodup_cons.2 ⟨h.unlent large c hmem, h.once⟩, fun w hw => ?_⟩
  · simp only [Loans.handOut, hpool]
    split
    · rename_i hside
      rw [hside, hrest]
    · rename_i hside
      rw [hsame side hside]
      exact h.head side
  · by_cases hside : side = large
    · have hstrung := h.strung large
      rw [hc] at hstrung
      subst hside
      simp only [Loans.handOut, hrest]
      exact hstrung.2
    · simp only [Loans.handOut, hsame side hside]
      exact h.strung side
  · -- a context that is left is not the one that is handed out
    have hne : w ≠ c := ((h.distinct side).mem_erase_iff.1 hw).1
    exact fun hlent => (List.mem_cons.1 hlent).elim hne (h.unlent side w (hsub side hw))
  · rcases List.mem_cons.1 hw with rfl | hw
    · exact .inl ⟨large, h.sized large w hmem⟩
    · exact h.kept w hw

/-- A new context is handed out. -/
theorem lend (h : Orderly cls nil s) (hpool : ∀ side, pool.head side = s.pool.head side)
    (hlent : c ∉ s.lent) (hwaiting : ∀ side, c ∉ s.waiting side)
    (hkept : (∃ large, s.memory.IsContext cls large c) ∨ s.memory.Buried c) :
    Orderly cls nil (s.handOut c pool s.memory) := by
  have hsame : ∀ side, (s.waiting side).erase c = s.waiting side := fun side =>
    List.erase_of_not_mem (hwaiting side)
  have hhanded : s.handOut c pool s.memory = { s with pool, lent := c :: s.lent } := by
    simp only [Loans.handOut, hsame]
  rw [hhanded]
  refine ⟨h.stocked, h.apart, fun side => (hpool side).trans (h.head side), h.strung,
    h.sized, h.distinct, fun side w hw => ?_, List.nodup_cons.2 ⟨hlent, h.once⟩, fun w hw => ?_⟩
  · exact fun hl => (List.mem_cons.1 hl).elim (fun e => hwaiting side (e ▸ hw)) (h.unlent side w hw)
  · rcases List.mem_cons.1 hw with rfl | hw
    · exact hkept
    · exact h.kept w hw

/-- A context that is linked to the first one of its chain is taken back. -/
theorem push {waiting : Bool → List Value} (h : Orderly cls nil s) (hlent : c ∈ s.lent)
    (hcontext : s.memory.IsContext cls large c)
    (hlink : s.memory.cell c Context.sender = some ((s.waiting large).head?.getD nil))
    (hpool : ∀ side, pool.head side = if side = large then some c else s.pool.head side)
    (hwaiting : ∀ side, waiting side =
      if side = large then c :: s.waiting side else s.waiting side) :
    Orderly cls nil { pool, memory := s.memory, lent := s.lent.erase c, waiting } := by
  have hnot : ∀ side, c ∉ s.waiting side := fun side hc => h.unlent side c hc hlent
  have hmem : ∀ side, ∀ w ∈ waiting side, w = c ∧ side = large ∨ w ∈ s.waiting side := by
    intro side w hw
    rw [hwaiting] at hw
    split at hw
    · rename_i hside
      exact (List.mem_cons.1 hw).imp_left fun e => ⟨e, hside⟩
    · exact .inr hw
  refine ⟨h.stocked, h.apart, fun side => ?_, fun side => ?_, fun side w hw => ?_, fun side => ?_,
    fun side w hw => ?_, h.once.erase c, fun w hw => h.kept w (List.mem_of_mem_erase hw)⟩
  · simp only [hpool, hwaiting]
    split
    · rfl
    · exact h.head side
  · simp only [hwaiting]
    split
    · rename_i hside
      exact ⟨hside ▸ hlink, h.strung side⟩
    · exact h.strung side
  · rcases hmem side w hw with ⟨rfl, rfl⟩ | hw
    · exact hcontext
    · exact h.sized side w hw
  · simp only [hwaiting]
    split
    · exact List.nodup_cons.2 ⟨hnot side, h.distinct side⟩
    · exact h.distinct side
  · rcases hmem side w hw with ⟨rfl, -⟩ | hw
    · exact fun hlent => (h.once.mem_erase_iff.1 hlent).1 rfl
    · exact fun hlent => h.unlent side w hw (List.mem_of_mem_erase hlent)

/-! ### What each request answers -/

theorem take_none (h : Orderly cls nil s) (hw : s.waiting large = []) :
    s.pool.take s.memory large nil = .ok none := by
  have hhead := h.head large
  rw [hw, List.head?_nil] at hhead
  simp only [take, hhead]

/-- The context that has waited for the shortest time is handed out, wiped. -/
theorem take_some (h : Orderly cls nil s) (hw : s.waiting large = c :: rest) :
    ∃ o, s.memory.get? c = some o ∧ o.cls = cls ∧ o.pointers.size = Context.size large ∧
      s.pool.take s.memory large nil = .ok (some (c, s.pool.setHead large rest.head?,
        s.memory.replace c (Action.wiped o nil))) := by
  have hhead := h.head large
  have hstrung := h.strung large
  have hmem : c ∈ s.waiting large := hw ▸ List.mem_cons_self
  rw [hw] at hhead hstrung
  obtain ⟨o, ho, hcls, hsize⟩ := h.sized large c hmem
  obtain ⟨o', ho', hsender⟩ := cell_eq_some.1 hstrung.1
  obtain rfl := Option.some.inj (ho.symm.trans ho')
  -- the chain goes on unless its next link is nil, which is no context
  have hnext : (if rest.head?.getD nil = nil then none else some (rest.head?.getD nil)) =
      rest.head? := by
    cases hrest : rest with
    | nil => exact if_pos rfl
    | cons w rest' =>
      have hmem : w ∈ s.waiting large := by
        rw [hw, hrest]
        exact List.mem_cons_of_mem c List.mem_cons_self
      exact if_neg (h.ne_nil hmem)
  refine ⟨o, ho, hcls, hsize, ?_⟩
  simp only [take, hhead, List.head?_cons, ho, hsender, Option.getD_some, hnext]
  rfl

theorem isBlank_wiped {o : Object} (ho : m.get? c = some o) (hcls : o.cls = cls)
    (hsize : o.pointers.size = Context.size large) :
    (m.replace c (Action.wiped o nil)).IsBlank cls nil large c := by
  refine ⟨Action.wiped o nil, ?_, hcls, by rw [← hsize]; rfl⟩
  rw [replace, get?_modify, if_pos rfl, ho, Option.map_some]

/-- What is taken is out of the chain, which is in order without it. -/
theorem handOut_some (h : Orderly cls nil s) (hw : s.waiting large = c :: rest) {o : Object}
    (ho : s.memory.get? c = some o) :
    Orderly cls nil (s.handOut c (s.pool.setHead large rest.head?)
      (s.memory.replace c (Action.wiped o nil))) := by
  have hpopped := h.pop hw (Recycling.head_setHead s.pool large · rest.head?)
  refine hpopped.modify List.mem_cons_self fun o' ho' => ?_
  obtain rfl := Option.some.inj (ho.symm.trans ho')
  exact ⟨rfl, Array.size_replicate⟩

/-- A context that does not come from a chain is a new object, put into a memory that is otherwise as
it was. -/
theorem registered (h : Orderly cls nil s) (hw : s.waiting large = [])
    (hrun : allocate large cls nil (s.pool, s.memory) = .ok c (pool, memory)) :
    ∃ m₁ o, Orderly cls nil { s with memory := m₁ } ∧ m₁.slots = s.memory.slots ∧
      c = (m₁.place o).1 ∧ memory = (m₁.place o).2 ∧ o.cls = cls ∧
      o.pointers = Array.replicate (Context.size large) nil ∧
      ∀ side, pool.head side = s.pool.head side := by
  rcases Action.pool_allocate_ok hrun with ⟨o, hhead, -⟩ | ⟨-, rfl, hregister⟩
  · rw [h.head large, hw] at hhead
    exact absurd hhead (by simp)
  · obtain ⟨hc, hmemory⟩ := registerHashed_ok hregister
    have hslots := readied_slots (s.memory.setHashSeed (nextSeed s.memory.hashSeed))
    have hfree := readied_free (s.memory.setHashSeed (nextSeed s.memory.hashSeed))
    have hbefore : Orderly cls nil { s with
        memory := (s.memory.setHashSeed (nextSeed s.memory.hashSeed)).readied } :=
      h.carry (.of_slots h.stocked hslots hfree) fun _ _ _ => by
        rw [cell, cell, get?_congr hslots]
        rfl
    exact ⟨_, _, hbefore, hslots, hc, hmemory, rfl, rfl, fun side => by cases side <;> rfl⟩

/-- A new context is one that nobody has, and blank unless its slot is overrun. -/
theorem allocate_new (h : Orderly cls nil s) (room : s.memory.slots.size < 0x100000000)
    (hw : s.waiting large = [])
    (hrun : allocate large cls nil (s.pool, s.memory) = .ok c (pool, memory)) :
    c ∉ s.lent ∧ (∀ side, c ∉ s.waiting side) ∧
      (¬ memory.Overrun c → memory.IsBlank cls nil large c) ∧
      (memory.Overrun c → memory.Buried c) := by
  obtain ⟨m₁, o, hbefore, hslots, rfl, rfl, hcls, hpointers, -⟩ := h.registered hw hrun
  rw [← hslots] at room
  obtain ⟨hfresh, -, hfound, -⟩ := hbefore.stocked.entered_place room o
  refine ⟨fun hmem => ?_, fun side hmem => ?_, fun hover => ⟨o, hfound hover, hcls, hpointers⟩,
    fun hover => hover.buried_place room⟩
  · rcases hbefore.kept _ hmem with ⟨side, hcontext⟩ | hburied
    · exact absurd hcontext.isLive (by rw [hfresh]; simp)
    · exact (hburied.place hbefore.stocked room o).2 rfl
  · exact absurd (hbefore.sized side _ hmem).isLive (by rw [hfresh]; simp)

theorem handOut_new (h : Orderly cls nil s) (room : s.memory.slots.size < 0x100000000)
    (hw : s.waiting large = [])
    (hrun : allocate large cls nil (s.pool, s.memory) = .ok c (pool, memory))
    (apart : ∀ side, ¬ memory.IsContext cls side nil) : Orderly cls nil (s.handOut c pool memory) := by
  obtain ⟨hlent, hwaiting, hblank, hburied⟩ := h.allocate_new room hw hrun
  obtain ⟨m₁, o, hbefore, hslots, -, rfl, -, -, hpool⟩ := h.registered hw hrun
  rw [← hslots] at room
  have hafter : Orderly cls nil { s with memory := (m₁.place o).2 } := by
    refine hbefore.carry (.place hbefore.stocked room o apart) fun side w hmem => ?_
    have hkept := (hbefore.stocked.entered_place room o).kept w (hbefore.sized side w hmem).isLive
    rw [cell, hkept, cell]
  refine hafter.lend hpool hlent hwaiting ?_
  by_cases hover : (m₁.place o).2.Overrun c
  · exact .inr (hburied hover)
  · obtain ⟨o', ho', hcls, hpointers⟩ := hblank hover
    exact .inl ⟨large, o', ho', hcls, by rw [hpointers, Array.size_replicate]⟩

theorem takeBack (h : Orderly cls nil s) (hlent : c ∈ s.lent)
    (hrun : s.pool.recycle s.memory c cls nil = (true, pool, memory)) :
    Orderly cls nil (s.takeBack c pool memory) := by
  obtain ⟨large, hcontext⟩ := recycle_accepts.1 (congrArg Prod.fst hrun)
  simp only [recycle, chainOf?_eq_some_iff.2 hcontext, Prod.mk.injEq, true_and] at hrun
  obtain ⟨rfl, rfl⟩ := hrun
  let link := fun o : Object => o.setPointer Context.sender ((s.pool.head large).getD nil)
  have hlink : ∀ o, s.memory.get? c = some o →
      (link o).cls = o.cls ∧ (link o).pointers.size = o.pointers.size :=
    fun o _ => ⟨rfl, Array.size_setIfInBounds⟩
  refine (h.modify hlent hlink).push hlent ((isContext_modify hlink).2 hcontext) ?_
    (Recycling.head_setHead s.pool large · (some c)) fun side => ?_
  · obtain ⟨x, hx⟩ := hcontext.exists_sender
    change (s.memory.setField c Context.sender _).cell c Context.sender = _
    rw [cell_setField, if_pos ⟨rfl, rfl⟩, hx, Option.map_some, h.head large]
  · -- the size of a context tells where it goes
    obtain ⟨o, ho, -, hsize⟩ := hcontext
    have hside : Context.size large = Context.size side ↔ side = large := by
      cases large <;> cases side <;> decide
    simp only [ho, Option.any_some, hsize, hside, decide_eq_true_eq]

theorem clear (h : Orderly cls nil s) :
    Orderly cls nil { s with pool := s.pool.clear, waiting := fun _ => [] } where
  stocked := h.stocked
  apart := h.apart
  head side := by cases side <;> rfl
  strung _ := trivial
  sized _ _ hc := absurd hc List.not_mem_nil
  distinct _ := List.nodup_nil
  unlent _ _ hc := absurd hc List.not_mem_nil
  once := h.once
  kept := h.kept

/-- A reclamation spares what the pool leads to, and what its users have. -/
theorem reclaim {roots : List Value} {scope : Scope} (h : Orderly cls nil s)
    (hroots : s.pool.roots ++ s.lent ⊆ roots) :
    Orderly cls nil { s with memory := (s.memory.reclaim roots scope).2 } := by
  have hlent : ∀ c ∈ s.lent, s.memory.isLive c = true → s.memory.Spared roots scope c :=
    fun c hc live => .root (List.mem_append_left _ (hroots (List.mem_append_right _ hc))) live
  have hwaiting : ∀ side, ∀ c ∈ s.waiting side, s.memory.Spared roots scope c := by
    intro side c hc
    refine (h.strung side).reachable (fun x hx => ?_) hc
    have hhead : s.pool.head side = some x := (h.head side).trans hx
    have hmem : x ∈ s.pool.roots := Machine.mem_roots_of_head hhead
    exact .root (List.mem_append_left _ (hroots (List.mem_append_left _ hmem)))
      (h.sized side x (List.mem_of_head? hx)).isLive
  refine h.carry (.reclaim h.stocked fun c hc live => ?_) fun side c hc => ?_
  · rcases hc with hc | ⟨side, hc⟩
    · exact hlent c hc live
    · exact hwaiting side c hc
  · rw [cell, reclaim_spared (hwaiting side c hc), cell]

/-- The pool stays in order whatever it is asked. -/
theorem perform {request : Request} (h : Orderly cls nil s) (allowed : request.Allowed s)
    (room : s.memory.slots.size < 0x100000000)
    (apart : ∀ large, ¬ (request.perform cls nil s).memory.IsContext cls large nil) :
    Orderly cls nil (request.perform cls nil s) := by
  cases request with
  | allocate large =>
    simp only [Request.perform] at apart ⊢
    cases hw : s.waiting large with
    | cons c rest =>
      obtain ⟨o, ho, -, -, htake⟩ := h.take_some hw
      simp only [allocate, htake]
      exact h.handOut_some hw ho
    | nil =>
      cases hrun : allocate large cls nil (s.pool, s.memory) with
      | ok c state =>
        rw [hrun] at apart
        exact h.handOut_new room hw hrun apart
      | error e state =>
        obtain ⟨pool, memory⟩ := state
        obtain ⟨rfl, hslots, hfree⟩ := allocate_error hrun
        exact h.carry (.of_slots h.stocked hslots hfree) fun _ _ _ => by
          rw [cell, cell, get?_congr hslots]
  | take large =>
    simp only [Request.perform]
    cases hw : s.waiting large with
    | cons c rest =>
      obtain ⟨o, ho, -, -, htake⟩ := h.take_some hw
      simp only [htake]
      exact h.handOut_some hw ho
    | nil =>
      simp only [h.take_none hw]
      exact h
  | recycle c =>
    simp only [Request.perform]
    rcases hrun : s.pool.recycle s.memory c cls nil with ⟨accepted, pool, memory⟩
    cases accepted with
    | true => exact h.takeBack allowed hrun
    | false =>
      have hrefused := recycle_refuses (congrArg Prod.fst hrun)
      rw [hrun, Prod.mk.injEq, Prod.mk.injEq] at hrefused
      obtain ⟨-, rfl, rfl⟩ := hrefused
      exact h
  | clear => exact h.clear
  | write c i x => exact h.modify allowed fun o _ => ⟨rfl, Array.size_setIfInBounds⟩
  | reclaim roots scope => exact h.reclaim allowed

end Orderly

theorem Run.orderly (h : Run cls nil s) (room : s.memory.slots.size < 0x100000000) :
    Orderly cls nil s := by
  induction h with
  | start stocked apart => exact .start stocked apart
  | @step s request _ allowed apart ih =>
    have hbefore := (request.later_perform cls nil s).size.trans_lt room
    exact (ih hbefore).perform allowed hbefore apart

/-! ### The discipline of the pool -/

/-- What holds of a pool and its loans: what waits, what is lent, and what the next request answers. -/
structure Disciplined (cls nil : Value) (s : Loans) : Prop where
  chain : ∀ large, s.pool.head large = (s.waiting large).head? ∧
    Strung s.memory.cell nil (s.waiting large) ∧ (s.waiting large).Nodup
  sized : ∀ large, ∀ c ∈ s.waiting large, s.memory.IsContext cls large c ∧
    c ≠ nil ∧ c ∉ s.waiting (!large) ∧ c ∉ s.lent
  once : s.lent.Nodup
  kept : ∀ c ∈ s.lent, (∃ large, s.memory.IsContext cls large c) ∨ s.memory.Overrun c
  reuses : ∀ large c rest, s.waiting large = c :: rest → ∃ pool memory,
    s.pool.take s.memory large nil = .ok (some (c, pool, memory)) ∧
    allocate large cls nil (s.pool, s.memory) = .ok c (pool, memory) ∧
    memory.IsBlank cls nil large c
  makes : ∀ large, s.waiting large = [] →
    s.pool.take s.memory large nil = .ok none ∧
    ∀ c pool memory, allocate large cls nil (s.pool, s.memory) = .ok c (pool, memory) →
      c ∉ s.lent ∧ (¬ memory.Overrun c → memory.IsBlank cls nil large c) ∧
      (memory.Overrun c → memory.get? c = none)
  recycles : ∀ c, (s.pool.recycle s.memory c cls nil).1 = true ↔
    ∃ large, s.memory.IsContext cls large c

/-- Whatever is asked of a pool, it hands out no context that is still lent, each one blank and of the
wanted size, the one that was given back last first. The exception is a new context in a slot that has
been vacated `2^30` times, which nobody can reach. -/
theorem pool_disciplined (h : Run cls nil s) (room : s.memory.slots.size < 0x100000000) :
    Disciplined cls nil s := by
  have horder := h.orderly room
  refine ⟨fun large => ⟨horder.head large, horder.strung large, horder.distinct large⟩,
    fun large c hc => ⟨horder.sized large c hc, horder.ne_nil hc, fun hc' => ?_,
      horder.unlent large c hc⟩, horder.once,
    fun c hc => (horder.kept c hc).imp_right Buried.overrun, fun large c rest hw => ?_,
    fun large hw => ⟨horder.take_none hw, fun c pool memory hrun => ?_⟩, fun c => recycle_accepts⟩
  · exact absurd (horder.side_eq hc hc') (by simp)
  · obtain ⟨o, ho, hcls, hsize, htake⟩ := horder.take_some hw
    exact ⟨_, _, htake, allocate_of_take htake, Orderly.isBlank_wiped ho hcls hsize⟩
  · obtain ⟨hlent, -, hblank, -⟩ := horder.allocate_new room hw hrun
    exact ⟨hlent, hblank, Overrun.get?_eq_none⟩

/-- A memory with nil and the class of contexts. -/
def plain : Memory :=
  (account .standard [.register (.ofPointers (.small 0) .empty #[]),
    .register (.ofPointers (.ref 0 0) .fixed #[])]).2

/-- Three contexts are handed out, one of them is written to, and two are given back. -/
def errands : List Request :=
  [.allocate false, .allocate true, .allocate false, .write (.ref 2 0) 0 (.ref 3 0),
    .recycle (.ref 2 0), .recycle (.ref 4 0), .reclaim [.ref 4 0, .ref 3 0] .full]

/-- The loans after the first `n` of these requests. -/
def served (n : Nat) : Loans :=
  (errands.take n).foldl (fun s request => request.perform (.ref 1 0) (.ref 0 0) s) (.start plain)

theorem run_served : Run (.ref 1 0) (.ref 0 0) (served 7) := by
  have apart (n : Nat) (hnil : chainOf? (served n).memory (.ref 0 0) (.ref 1 0) = none) (large : Bool) :
      ¬ (served n).memory.IsContext (.ref 1 0) large (.ref 0 0) := fun hcontext =>
    absurd (hnil.symm.trans (chainOf?_eq_some_iff.2 hcontext)) (by simp)
  have h₀ : Run (.ref 1 0) (.ref 0 0) (served 0) := .start (stocked_account ..) (apart 0 (by cbv))
  have h₁ : Run (.ref 1 0) (.ref 0 0) (served 1) :=
    h₀.step (.allocate false) trivial (apart 1 (by cbv))
  have h₂ : Run (.ref 1 0) (.ref 0 0) (served 2) :=
    h₁.step (.allocate true) trivial (apart 2 (by cbv))
  have h₃ : Run (.ref 1 0) (.ref 0 0) (served 3) :=
    h₂.step (.allocate false) trivial (apart 3 (by cbv))
  have hwrite : (.ref 2 0) ∈ (served 3).lent := List.elem_iff.1 (by cbv)
  have hsmall : (.ref 2 0) ∈ (served 4).lent := List.elem_iff.1 (by cbv)
  have hother : (.ref 4 0) ∈ (served 5).lent := List.elem_iff.1 (by cbv)
  have hroots : (served 6).pool.roots ++ (served 6).lent = [.ref 4 0, .ref 3 0] := by cbv
  have h₄ : Run (.ref 1 0) (.ref 0 0) (served 4) :=
    h₃.step (.write (.ref 2 0) 0 (.ref 3 0)) hwrite (apart 4 (by cbv))
  have h₅ : Run (.ref 1 0) (.ref 0 0) (served 5) :=
    h₄.step (.recycle (.ref 2 0)) hsmall (apart 5 (by cbv))
  have h₆ : Run (.ref 1 0) (.ref 0 0) (served 6) :=
    h₅.step (.recycle (.ref 4 0)) hother (apart 6 (by cbv))
  exact h₆.step (.reclaim [.ref 4 0, .ref 3 0] .full) (hroots ▸ List.Subset.refl _) (apart 7 (by cbv))

/-- Two small contexts wait, the one given back last first, and the large one is lent. -/
theorem pool_disciplined_served :
    (Run (.ref 1 0) (.ref 0 0) (served 7) ∧ (served 7).memory.slots.size < 0x100000000) ∧
    (served 7).waiting false = [.ref 4 0, .ref 2 0] ∧ (served 7).waiting true = [] ∧
    (served 7).lent = [.ref 3 0] ∧
    Disciplined (.ref 1 0) (.ref 0 0) (served 7) := by
  have hsize : (served 7).memory.slots.size = 5 := by cbv
  have room : (served 7).memory.slots.size < 0x100000000 := by omega
  exact ⟨⟨run_served, room⟩, by cbv, by cbv, by cbv, pool_disciplined run_served room⟩

/-! ### The exception -/

/-- A pool without contexts over a memory of one slot, which is vacant in its `k`-th generation. -/
structure Idle (k : Nat) (s : Loans) : Prop where
  run : Run (.small 0) (.small 0) s
  emptied : s.memory.Emptied k
  none : ∀ large, s.waiting large = []
  lent : s.lent = []

namespace Idle

variable {k : Nat} {s : Loans}

theorem room (h : Idle k s) : s.memory.slots.size < 0x100000000 := by
  rw [h.emptied.slots]
  exact (by decide : 1 < 0x100000000)

theorem orderly (h : Idle k s) : Orderly (.small 0) (.small 0) s := h.run.orderly h.room

/-- A new context is put into the slot. -/
theorem allocate (h : Idle k s) : ∃ pool memory,
    ContextPool.allocate false (.small 0) (.small 0) (s.pool, s.memory) =
      .ok (.reference 0 (UInt32.ofNat k)) (pool, memory) ∧ memory.Worn k := by
  obtain ⟨memory, hregister, hworn⟩ := h.emptied.register
    (.ofPointers (.small 0) .indexable (Array.replicate (Context.size false) (.small 0)))
  refine ⟨{ s.pool with allocated := s.pool.allocated + 1 }, memory, ?_, hworn⟩
  simp only [ContextPool.allocate, h.orderly.take_none (h.none false), hregister]

/-- The context is given back and forgotten, and its slot is vacated once more. -/
theorem succ (h : Idle k s) (hk : k < 0x40000000) : ∃ s', Idle (k + 1) s' := by
  obtain ⟨pool, memory, hallocate, hworn⟩ := h.allocate
  obtain ⟨o, hslots⟩ := hworn.slots
  have hgeneration : (UInt32.ofNat k).toNat = k := UInt32.toNat_ofNat_of_lt' (hk.trans (by decide))
  have hover : ¬ memory.Overrun (.reference 0 (UInt32.ofNat k)) := by
    rintro ⟨slot, hs, hg⟩
    rw [hslots] at hs
    obtain rfl : ⟨UInt32.ofNat k, some o⟩ = slot := Option.some.inj hs
    rw [hgeneration] at hg
    exact absurd hk (Nat.not_lt.2 hg)
  obtain ⟨o', ho', hcls, hpointers⟩ :=
    (h.orderly.allocate_new h.room (h.none false) hallocate).2.2.1 hover
  have hcontext : memory.IsContext (.small 0) false (.reference 0 (UInt32.ofNat k)) :=
    ⟨o', ho', hcls, by rw [hpointers, Array.size_replicate]⟩
  have hlent : Run (.small 0) (.small 0) (s.handOut (.reference 0 (UInt32.ofNat k)) pool memory) := by
    have hstep := h.run.step (.allocate false) trivial fun _ => not_isContext_small
    simp only [Request.perform, hallocate] at hstep
    exact hstep
  have hback := hlent.step (.recycle (.reference 0 (UInt32.ofNat k))) List.mem_cons_self
    fun _ => not_isContext_small
  simp only [Request.perform, Loans.handOut, recycle, chainOf?_eq_some_iff.2 hcontext,
    Loans.takeBack, h.lent, List.erase_cons_head] at hback
  have hcleared := hback.step .clear trivial fun _ => not_isContext_small
  have hreclaimed := hcleared.step (.reclaim [] .full) (List.Subset.refl []) fun _ =>
    not_isContext_small
  exact ⟨_, hreclaimed, (hworn.modify _ _).reclaim hk, fun large => rfl, rfl⟩

/-- The slot can be worn out. -/
theorem exists_idle (hk : 1 ≤ k) (hle : k ≤ 0x40000000) : ∃ s, Idle k s := by
  induction k, hk using Nat.le_induction with
  | base =>
    exact ⟨.start (account single (wearing 0 ++ [.reclaim [] .full])).2,
      .start (stocked_account ..) fun _ => not_isContext_small, emptied_wearing (by decide),
      fun large => rfl, rfl⟩
  | succ k _ ih =>
    obtain ⟨s, hs⟩ := ih (Nat.le_of_succ_le hle)
    exact hs.succ hle

end Idle

/-- A pool whose users have done nothing but take contexts and give them back hands out a context
that nobody can reach. -/
theorem allocate_lost : ∃ s c pool memory, Run (.small 0) (.small 0) s ∧
    s.memory.slots.size < 0x100000000 ∧
    allocate false (.small 0) (.small 0) (s.pool, s.memory) = .ok c (pool, memory) ∧
    memory.get? c = none := by
  obtain ⟨s, h⟩ := Idle.exists_idle (k := 0x40000000) (by decide) (Nat.le_refl _)
  obtain ⟨pool, memory, hallocate, hworn⟩ := h.allocate
  obtain ⟨o, hslots⟩ := hworn.slots
  have hlarge : 0x40000000 ≤ (UInt32.ofNat 0x40000000).toNat := by decide
  have hover : memory.Overrun (.reference 0 (UInt32.ofNat 0x40000000)) :=
    ⟨⟨UInt32.ofNat 0x40000000, some o⟩, by rw [hslots]; rfl, hlarge⟩
  exact ⟨s, _, pool, memory, h.run, h.room, hallocate, hover.get?_eq_none⟩

end ContextPool

end Smalltalk
