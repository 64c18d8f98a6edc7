import Smalltalk.Proofs.Faults
import Smalltalk.Proofs.Frames
import Smalltalk.Proofs.Registration

/-!
# Allocations that succeed

An action that makes objects may fail for want of memory: the table has no room for one more object,
or the slot that the object gets has been vacated more often than a reference can tell, and then the
object is lost as soon as it is made. An action achieves something if it ends with it unless the memory
is spent in one of these two ways.

An allocation achieves a new object. Whatever the machine can reach stays as it was, although room may
have been made; the caches may have been emptied, but they have learnt nothing.
-/

namespace Smalltalk

open Outcome Recycling

/-- The fault says that there is no room: the table is full, or its sizes leave a word. -/
def Fault.Exhausted : Fault → Machine → Prop
  | .objectTableFull _, _ => True
  | .panic p, m => m.memory.Bursts p
  | _, _ => False

/-- The fault says that the machine is at its limits: there is no room, an object was lost to a slot that
is overrun, or the active context stands where no immediate integer can tell. -/
inductive Fault.Spent : Fault → Machine → Prop
  | exhausted {e : Fault} {m : Machine} (h : e.Exhausted m) : Spent e m
  | lost {v : Value} {m : Machine} (h : m.memory.Overrun v) : Spent (.invalidReference v) m
  | unstorable {n : Int} {m : Machine} (stored : m.registers.Stored n) (h : ¬Value.InRange n) :
      Spent (.panic (.notImmediate n)) m

theorem Fault.not_spent_malformed {flaw : Flaw} {v : Value} {m : Machine} :
    ¬(malformed flaw v).Spent m := by
  rintro (h | _ | _)
  exact h

namespace Action

variable {α β : Type} {x y : Action α} {f : α → Action β} {m m₁ m' : Machine} {a : α} {v w : Value}
  {i n : Nat}

/-! ### Ending unless the memory is spent -/

/-- The action ends with an answer that satisfies `Q`, unless the memory is spent. -/
def Achieves (x : Action α) (m : Machine) (Q : α → Machine → Prop) : Prop :=
  (∃ a m', x m = .ok a m' ∧ Q a m') ∨ ∃ e m', x m = .error e m' ∧ e.Spent m'

namespace Achieves

variable {Q R : α → Machine → Prop} {T : β → Machine → Prop}

theorem of_ok (h : x m = .ok a m') (hQ : Q a m') : Achieves x m Q := .inl ⟨a, m', h, hQ⟩

theorem of_error {e : Fault} (h : x m = .error e m') (he : e.Spent m') : Achieves x m Q :=
  .inr ⟨e, m', h, he⟩

theorem mono (h : Achieves x m R) (hQ : ∀ a m', R a m' → Q a m') : Achieves x m Q :=
  h.imp_left fun ⟨a, m', hrun, hR⟩ => ⟨a, m', hrun, hQ a m' hR⟩

theorem bind (h : Achieves x m fun a m₁ => Achieves (f a) m₁ T) : Achieves (x >>= f) m T := by
  rcases h with ⟨a, m₁, hx, hf⟩ | ⟨e, m₁, hx, he⟩
  · rcases hf with ⟨b, m', hf, hT⟩ | ⟨e, m', hf, he⟩
    · exact .of_ok ((bind_of_ok hx).trans hf) hT
    · exact .of_error ((bind_of_ok hx).trans hf) he
  · exact .of_error (bind_of_error hx) he

/-- The first part of an action is known. -/
theorem after (hx : x m = .ok a m₁) (hf : Achieves (f a) m₁ T) : Achieves (x >>= f) m T :=
  .bind (.of_ok hx hf)

theorem congr (h : y m = x m₁) (hx : Achieves x m₁ Q) : Achieves y m Q := by
  rw [Achieves, h]
  exact hx

/-- What an action gives whenever it ends may be added. -/
theorem and_gives (h : Achieves x m Q) (hR : Gives x m R) :
    Achieves x m fun a m' => Q a m' ∧ R a m' :=
  h.imp_left fun ⟨a, m', hrun, hQ⟩ => ⟨a, m', hrun, hQ, hR a m' hrun⟩

theorem of_gives (hx : ∀ e m', x m = .error e m' → e.Spent m') (hQ : Gives x m Q) :
    Achieves x m Q := by
  cases hrun : x m with
  | ok a m' => exact .of_ok hrun (hQ a m' hrun)
  | error e m' => exact .of_error hrun (hx e m' hrun)

end Achieves

/-! ### Making room -/

/-- The slots are as many as before, and the cache of methods has learnt nothing. -/
structure Thins (m m' : Machine) : Prop where
  size : m'.memory.slots.size = m.memory.slots.size
  remembered : ∀ P, m.methodCache.All P → m'.methodCache.All P

instance : Std.Refl Thins := ⟨fun _ => ⟨rfl, fun _ => id⟩⟩

instance : IsTrans Machine Thins :=
  ⟨fun _ _ _ h h' => ⟨h'.size.trans h.size, fun P => h'.remembered P ∘ h.remembered P⟩⟩

theorem reclaim_thins {scope : Scope} : Within Thins (reclaim scope) := by
  intro m freed m' hrun
  obtain ⟨left, -, -, rfl⟩ := reclaim_ok.1 hrun
  rw [noted_frame]
  exact ⟨(Memory.Vacates.reclaim m.memory m.roots scope).size, fun _ _ => MethodCache.all_clear⟩

theorem reclaimYoung_thins {wanted freed : Nat} {turns : List Bool} :
    Within Thins (reclaimYoung wanted turns freed) := by
  induction turns generalizing freed with
  | nil => exact .pure
  | cons giveUp turns ih =>
    have giveUp_thins : Within Thins
        (modify fun m => { m.flushCaches with pool := m.pool.clear } : Action Unit) := by
      intro m u m' hrun
      obtain rfl := modify_ok.1 hrun
      exact ⟨rfl, fun _ _ => MethodCache.all_clear⟩
    have turn : Within Thins (do
        let freed := freed + (← reclaim .young)
        if wanted ≤ freed then return freed else reclaimYoung wanted turns freed) :=
      .bind reclaim_thins fun _ => .ite .pure ih
    cases giveUp with
    | false => exact turn
    | true => exact .bind giveUp_thins fun _ => turn

theorem makeRoom_thins : Within Thins makeRoom := by
  refine .bind get_within fun _ => .bind reclaimYoung_thins fun _ => .ite .pure ?_
  refine .bind get_within fun _ => .ite ?_ (.bind reclaim_thins fun _ => .bind get_within fun _ =>
    .ite .throw .pure)
  intro m u m' hrun
  obtain ⟨-, rfl⟩ := onMemory_grow_ok.1 hrun
  exact ⟨rfl, fun _ => id⟩

instance {scope : Scope} : Raises Fault.Exhausted (reclaim scope) where
  error h := by
    obtain ⟨hfits, rfl, rfl⟩ := reclaim_error h
    exact .space hfits

instance {wanted freed : Nat} {turns : List Bool} :
    Raises Fault.Exhausted (reclaimYoung wanted turns freed) := by
  induction turns generalizing freed with
  | nil => unfold reclaimYoung; infer_instance
  | cons giveUp turns ih => unfold reclaimYoung; infer_instance

instance : Raises Fault.Exhausted (onMemory Memory.grow) where
  error {m _ _} h := by
    by_cases hfits : m.memory.GrowthFits
    · exact nomatch (onMemory_grow_ok (u := ()).2 ⟨hfits, rfl⟩).symm.trans h
    · rw [onMemory_grow_of_not hfits] at h
      obtain ⟨rfl, rfl⟩ := EStateM.Result.error.inj h
      exact .growth hfits

/-- There is no other fault than that there is no room. -/
instance : Raises Fault.Exhausted makeRoom := by
  have (size : Nat) : Raises Fault.Exhausted (throw (.objectTableFull size) : Action PUnit) :=
    .throw fun _ => trivial
  unfold makeRoom
  infer_instance

/-! ### Registering -/

theorem size_place (memory : Memory) (o : Object) :
    (memory.place o).2.slots.size ≤ memory.slots.size + 1 := by
  cases hf : memory.free with
  | nil => simp [Memory.place, hf]
  | cons index free => simp [Memory.place, hf]

theorem register_error {o : Object} {memory : Memory} {e : Fault} {m : Machine}
    (h : Memory.register o memory = .error e m.memory) : e.Exhausted m := by
  rw [Memory.register, Memory.registerHashed_eq] at h
  split at h
  · rw [← (EStateM.Result.error.inj h).1]
    trivial
  · split at h
    · rename_i hpanic
      obtain ⟨rfl, hmemory⟩ := EStateM.Result.error.inj h
      rw [hmemory] at hpanic ⊢
      exact .growth hpanic.2
    · cases h

theorem size_register {o : Object} {memory memory' : Memory}
    (h : Memory.register o memory = .ok v memory') :
    memory'.slots.size ≤ memory.slots.size + 1 := by
  obtain ⟨-, rfl⟩ := Memory.registerHashed_ok h
  refine (size_place _ _).trans ?_
  rw [Memory.readied_slots]

/-- At most one slot is added, and the cache of methods has learnt nothing. -/
structure Adds (m m' : Machine) : Prop where
  size : m'.memory.slots.size ≤ m.memory.slots.size + 1
  remembered : ∀ P, m.methodCache.All P → m'.methodCache.All P

theorem Adds.of_thins (h : Thins m m₁) (h' : Adds m₁ m') : Adds m m' :=
  ⟨h.size ▸ h'.size, fun P => h'.remembered P ∘ h.remembered P⟩

theorem allocate_adds {o : Object} : Within Adds (allocate o) := by
  have register : Within Adds (onMemory (Memory.register o)) := by
    intro m v m' hrun
    obtain ⟨memory, hregister, rfl⟩ := onMemory_ok.1 hrun
    exact ⟨size_register hregister, fun _ => id⟩
  intro m v m' hrun
  obtain ⟨_, _, hget, hrun⟩ := bind_ok.1 hrun
  obtain ⟨rfl, rfl⟩ := get_ok.1 hget
  split at hrun
  · obtain ⟨_, m₁, hroom, hrun⟩ := bind_ok.1 hrun
    exact .of_thins (makeRoom_thins _ _ _ hroom) (register _ _ _ hrun)
  · exact register _ _ _ hrun

instance {o : Object} : Raises Fault.Exhausted (allocate o) := by
  have : Raises Fault.Exhausted (onMemory (Memory.register o)) := by
    refine ⟨fun {m e m'} h => ?_⟩
    unfold onMemory at h
    dsimp only at h
    split at h
    · cases h
    · rename_i hregister
      obtain ⟨rfl, rfl⟩ := EStateM.Result.error.inj h
      exact register_error (m := { m with memory := _ }) hregister
  unfold allocate
  infer_instance

end Action

/-! ### What stays as it was -/

namespace Machine

variable {m m₁ m' : Machine} {v w x : Value} {i k n : Nat} {o : Object}

/-- At most `k` objects have been made. What the machine can reach is as it was, the contexts aside
that the pool has given up, and the cache of methods has learnt nothing. -/
structure Upholds (k : Nat) (m m' : Machine) : Prop where
  frame : m' = { m with
    memory := m'.memory
    methodCache := m'.methodCache
    atCache := m'.atCache
    pool := m'.pool
    interrupts := m'.interrupts }
  pins : m'.memory.pins = m.memory.pins
  pool : m'.pool = m.pool ∨ m'.pool = m.pool.clear
  size : m'.memory.slots.size ≤ m.memory.slots.size + k
  later : m.memory.Later m'.memory
  stocked : m'.memory.Stocked
  object : ∀ v o, m.memory.Issued v → m'.memory.get? v = some o → m.memory.get? v = some o
  kept : ∀ v, m.memory.Reachable (m.anchors ++ m'.pool.roots) v → m'.memory.get? v = m.memory.get? v
  remembered : ∀ P, m.methodCache.All P → m'.methodCache.All P

namespace Upholds

theorem registers (h : Upholds k m m') : m'.registers = m.registers := by rw [h.frame]

theorem specials (h : Upholds k m m') : m'.specials = m.specials := by rw [h.frame]

theorem counters (h : Upholds k m m') : m'.counters = m.counters := by rw [h.frame]

theorem anchors (h : Upholds k m m') : m'.anchors = m.anchors := by
  rw [Machine.anchors, h.pins, h.registers, h.specials]
  rfl

theorem pool_roots (h : Upholds k m m') : m'.pool.roots ⊆ m.pool.roots := by
  rcases h.pool with e | e
  · rw [e]
    exact List.Subset.refl _
  · rw [e]
    exact List.nil_subset _

/-- The pool gives out what it would have given out before, or nothing. -/
theorem head {large : Bool} (h : Upholds k m m') (hv : m'.pool.head large = some v) :
    m.pool.head large = some v := by
  rcases h.pool with e | e
  · rw [← e, hv]
  · rw [e] at hv
    cases large <;> cases hv

theorem trans (h : Upholds k m m₁) (h' : Upholds n m₁ m') : Upholds (k + n) m m' where
  frame := by rw [h'.frame, h.frame]
  pins := h'.pins.trans h.pins
  pool := by
    rcases h'.pool with e' | e'
    · rw [e']
      exact h.pool
    · rcases h.pool with e | e
      · exact .inr (by rw [e', e])
      · exact .inr (by rw [e', e]; rfl)
  size := by
    have hfirst := h.size
    have hlast := h'.size
    omega
  later := h.later.trans h'.later
  stocked := h'.stocked
  object v o hv ho := h.object v o hv (h'.object v o (h.later.issued hv) ho)
  kept v hv := by
    have sub : m.anchors ++ m'.pool.roots ⊆ m.anchors ++ m₁.pool.roots :=
      List.append_subset.2 ⟨List.subset_append_left _ _, fun x hx =>
        List.mem_append_right _ (h'.pool_roots hx)⟩
    have same : ∀ w, m.memory.Reachable (m.anchors ++ m'.pool.roots) w →
        m₁.memory.get? w = m.memory.get? w := fun w hw => h.kept w (hw.mono sub)
    have hreach := hv.of_get? same
    rw [← h.anchors] at hreach
    rw [h'.kept v hreach, same v hv]
  remembered P := h'.remembered P ∘ h.remembered P

/-- A new object may be stored into. -/
theorem setCell (h : Upholds k m m') (fresh : ¬m.memory.Issued v) :
    Upholds k m (m'.setCell v i x) where
  frame := by
    conv_lhs => rw [Machine.setCell, h.frame]
    rfl
  pins := (modify_pins m'.memory v _).trans h.pins
  pool := h.pool
  size := Nat.le_trans (Nat.le_of_eq (slots_size_modify ..)) h.size
  later := h.later.trans (Memory.later_modify ..)
  stocked := h.stocked.modify v _
  object w o hw ho := by
    have hne : w ≠ v := fun e => fresh (e ▸ hw)
    rw [Machine.setCell, Memory.get?_setField, if_neg hne] at ho
    exact h.object w o hw ho
  kept w hw := by
    have hne : w ≠ v := fun e => fresh (e ▸ Memory.issued_of_isLive hw.live)
    rw [Machine.setCell, Memory.get?_setField, if_neg hne, h.kept w hw]
  remembered := h.remembered

end Upholds

/-- What an allocation of `o` answers: a new reference, under which the object is found unless its slot
is overrun. -/
structure Creates (m : Machine) (o : Object) (v : Value) (m' : Machine) : Prop
    extends Upholds 1 m m' where
  fresh : m'.memory.isLive v = true → ¬ m.memory.Issued v
  made : m'.memory.isLive v = true → ∃ hash, m'.memory.get? v = some { o with hash }
  lost : m'.memory.isLive v = false → m'.memory.Overrun v

theorem gives_allocate (stocked : m.memory.Stocked) (room : m.memory.slots.size + 1 < 0x100000000) :
    Gives (Action.allocate o) m fun v m' => Creates m o v m' := by
  intro v m' hrun
  obtain ⟨hsize, hremembered⟩ := Action.allocate_adds _ _ _ hrun
  obtain ⟨m₁, hash, t, rfl, rfl⟩ := Action.allocate_ok hrun
  have stocked₁ := t.stocked stocked
  have hlater := Memory.later_place m₁.memory { o with hash }
  have room₁ : m₁.memory.slots.size < 0x100000000 :=
    Nat.lt_of_le_of_lt (Nat.le_trans hlater.size hsize) room
  obtain ⟨hfound, hlost⟩ := Memory.get?_place_self stocked₁ room₁ { o with hash }
  have fresh (live : (Action.placed m₁ { o with hash }).memory.isLive
      (m₁.memory.place { o with hash }).1 = true) :
      ¬m.memory.Issued (m₁.memory.place { o with hash }).1 := fun hissued =>
    stocked₁.place_unissued (Nat.le_trans hsize (Nat.le_of_lt room)) live (t.later.issued hissued)
  refine ⟨⟨?_, ?_, t.pool, hsize, t.later.trans hlater, stocked₁.place, fun w o' hw ho' => ?_,
    fun w hw => ?_, hremembered⟩, fresh, fun live => ⟨hash, ?_⟩, fun dead => ?_⟩
  · rw [Action.placed, t.frame]
  · exact (place_pins _ _).trans t.pins
  · rcases stocked₁.get?_place { o with hash } w with e | ⟨rfl, -, -⟩
    · exact t.object w o' (e.symm.trans ho')
    · exact absurd hw (fresh (Memory.isLive_of_get? ho'))
  · have hkept := t.kept w hw
    rcases stocked₁.get?_place { o with hash } w with e | ⟨-, hnone, -⟩
    · exact e.trans hkept
    · have live := hw.live
      rw [Memory.isLive, ← hkept, hnone] at live
      cases live
  · refine hfound fun hover => ?_
    rw [Action.placed, Memory.isLive, hlost hover] at live
    cases live
  · by_contra hover
    rw [Action.placed, Memory.isLive, hfound hover] at dead
    cases dead

theorem achieves_allocate (stocked : m.memory.Stocked)
    (room : m.memory.slots.size + 1 < 0x100000000) :
    Action.Achieves (Action.allocate o) m fun v m' => Creates m o v m' :=
  .of_gives (fun _ _ hrun => .exhausted (Raises.error hrun)) (gives_allocate stocked room)

/-! ### What the machine can reach -/

/-- An immediate integer, or an object that the machine can reach without its pooled contexts. -/
def Moored (m : Machine) (v : Value) : Prop := v.isSmall = true ∨ m.memory.Reachable m.anchors v

namespace Closed

theorem moored_shape (h : m.Closed) (hv : m.Moored v) {c : Value} {ps : Array Value}
    (hs : m.memory.shape v = some (c, ps)) (hx : x ∈ c :: ps.toList) : m.Moored x := by
  obtain ⟨o, ho, rfl, rfl⟩ := Memory.shape_eq_some.1 hs
  rcases hv with hsmall | hreach
  · cases v with
    | small n => cases ho
    | ref index generation => cases hsmall
  · exact (h.fields v o ho x hx).imp_right fun live => hreach.field ho hx live

/-- What something moored refers to is moored. -/
theorem moored_cell (h : m.Closed) (hv : m.Moored v) (hx : m.memory.cell v i = some x) :
    m.Moored x := by
  obtain ⟨c, ps, hs, hmem⟩ := Memory.mem_of_cell hx
  exact h.moored_shape hv hs hmem

theorem moored (h : m.Closed) (hv : v ∈ m.anchors) (hheld : v ∈ m.held) : m.Moored v :=
  (h.held v hheld).imp_right fun live => .root hv live

theorem moored_context (h : m.Closed) : m.Moored m.registers.context :=
  h.moored (by simp [anchors]) (by simp [Machine.held])

theorem moored_method (h : m.Closed) : m.Moored m.registers.method :=
  h.moored (by simp [anchors]) (by simp [Machine.held])

theorem moored_special (h : m.Closed) (i : Nat) : m.Moored (m.specials.get m.memory i) := by
  have harray : m.Moored m.specials.array := h.moored (by simp [anchors]) (by simp [Machine.held])
  have hget : m.specials.get m.memory i =
      (m.memory.cell m.specials.array i).getD m.specials.nil := rfl
  rw [hget]
  cases hx : m.memory.cell m.specials.array i with
  | none => exact h.moored_cell harray h.coherent.nil
  | some x => exact h.moored_cell harray hx

end Closed

namespace Upholds

theorem get? (h : Upholds k m m') (hv : m.Moored v) : m'.memory.get? v = m.memory.get? v := by
  rcases hv with hsmall | hreach
  · cases v with
    | small n => rfl
    | ref index generation => cases hsmall
  · exact h.kept v (hreach.mono (List.subset_append_left _ _))

theorem cell (h : Upholds k m m') (hv : m.Moored v) (i : Nat) :
    m'.memory.cell v i = m.memory.cell v i := by
  rw [Memory.cell, h.get? hv, Memory.cell]

theorem special (h : Upholds k m m') (hm : m.Closed) (i : Nat) :
    m'.specials.get m'.memory i = m.specials.get m.memory i := by
  have hget (m : Machine) : m.specials.get m.memory i =
      (m.memory.cell m.specials.array i).getD m.specials.nil := rfl
  have harray : m.Moored m.specials.array :=
    hm.moored (by simp [Machine.anchors]) (by simp [Machine.held])
  rw [hget, hget, h.specials, h.cell harray]

end Upholds

end Machine

end Smalltalk
