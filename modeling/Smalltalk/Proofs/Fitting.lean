import Smalltalk.Proofs.Dispatch
import Smalltalk.Proofs.Endurance
import Smalltalk.Proofs.Immediates

/-!
# New objects in range

A new object holds nil, zeros, or values that the machine was given, and it is made with so few fields
that they can be counted in an immediate integer. Making room for it, and taking a context from the pool
instead of making one, changes no field but to nil.
-/

namespace Smalltalk

open Outcome Rejects

variable {R : Int → Machine → Prop} {slack count n : Nat} {o : Object} {v x y cls nil : Value}

/-! ### Objects -/

namespace Object

theorem ranged_filled (hcls : o.cls.Ranged) (hpointers : o.pointers = Array.replicate count nil)
    (hnil : nil.Ranged) (hcount : count ≤ maxFields) : o.Ranged := by
  refine ⟨hcls, ?_, fun x hx => ?_⟩
  · exact hpointers ▸ Array.size_replicate.trans_le hcount
  · rw [hpointers] at hx
    exact (Array.mem_replicate.1 hx).2 ▸ hnil

theorem ranged_bare (hcls : o.cls.Ranged) (hpointers : o.pointers = #[]) : o.Ranged := by
  refine ⟨hcls, ?_, fun x hx => ?_⟩
  · simp [hpointers]
  · simp [hpointers] at hx

/-- A class asks for few named fields. -/
theorem instSize_lt (word : Int) : (InstanceSpec.decode word).instSize < 255 := by
  have hlow := Int.emod_lt_of_pos (word >>> (1 : Nat)) (by decide : (0 : Int) < 64)
  have hhigh := Int.emod_lt_of_pos (word >>> (16 : Nat)) (by decide : (0 : Int) < 4)
  simp only [InstanceSpec.decode]
  omega

theorem ranged_newInstance (hcls : cls.Ranged) (hnil : nil.Ranged) {spec : InstanceSpec}
    (hspec : spec.instSize < 255) (hcount : count ≤ Primitive.maxIndexable) :
    (Action.newInstance cls nil spec count).Ranged := by
  unfold Action.newInstance
  split
  · exact ranged_bare hcls rfl
  · split
    · refine ranged_filled hcls rfl hnil ?_
      simp only [Primitive.maxIndexable, maxFields] at hcount ⊢
      omega
    · exact ranged_bare hcls rfl

/-- The frame of a method fits into its context. -/
theorem Ranged.fillFrame (ho : o.Ranged) {sender method : Value} {frame : Array Value} {tempCount : Nat}
    (hsender : sender.Ranged) (hmethod : method.Ranged) (hnil : nil.Ranged)
    (hframe : ∀ x ∈ frame, x.Ranged)
    (hsize : Context.receiver + max frame.size (tempCount + 1) ≤ o.pointers.size) :
    (Action.fillFrame o sender method nil frame tempCount).Ranged := by
  refine ⟨ho.cls, ?_, fun x hx => ?_⟩
  · exact (Action.remains_fillFrame hsize).pointers.trans_le ho.size
  · rcases Machine.mem_fillFrame hx with hx | rfl | rfl | rfl | hx
    · exact ho.fields x hx
    · exact hsender
    · exact hmethod
    · exact hnil
    · exact hframe x hx

end Object

/-! ### Making room -/

namespace Action

variable {α : Type} {z : Action α} {P : α → Prop}

theorem keeps_reclaim {scope : Scope} : Keeps R slack (reclaim scope) fun _ => True := by
  have swept : Keeps R slack (sweep scope) fun _ => True := ⟨fun _ hm =>
    ⟨⟨hm.memory.reclaim _ _, hm.registers, hm.outfitted.alike rfl (fun _ hv => hv) rfl⟩, trivial⟩⟩
  refine .next swept fun freed _ => .next keeps_glance fun before _ => .next keeps_glance fun left _ => ?_
  refine .next keeps_glance fun after _ => .ite (fun _ => ?_) fun _ => .answer trivial
  exact .next (keeps_modify fun _ => ⟨rfl, rfl, rfl, fun _ hv => hv, rfl⟩) fun _ _ => .answer trivial

/-- Giving up caches and pooled contexts. -/
theorem keeps_giveUp : Keeps R slack (modify fun m => { m.flushCaches with pool := m.pool.clear })
    fun _ => True := keeps_modify fun _ => ⟨rfl, rfl, rfl, fun _ hv => absurd hv List.not_mem_nil, rfl⟩

theorem keeps_reclaimYoung {giveUps : List Bool} :
    Keeps R slack (reclaimYoung n giveUps count) fun _ => True := by
  induction giveUps generalizing count with
  | nil => exact .answer trivial
  | cons giveUp giveUps ih =>
    have young : Keeps R slack (do
        let freed := count + (← reclaim .young)
        if n ≤ freed then return freed else reclaimYoung n giveUps freed) fun _ => True :=
      .next keeps_reclaim fun _ _ => .ite (fun _ => .answer trivial) fun _ => ih
    exact .ite (fun _ => .next keeps_giveUp fun _ _ => young) fun _ => young

/-- What a change of the memory keeps in range, the action keeps in range. -/
theorem keeps_onMemory {x : Memory.Change α}
    (hx : ∀ memory : Memory, memory.Ranged → match x memory with
      | .ok a memory' => memory'.Ranged ∧ P a
      | .error e memory' => memory'.Ranged ∧ rejected? e = none) : Keeps R slack (onMemory x) P := by
  refine ⟨fun m hm => ?_⟩
  have hchange := hx m.memory hm.memory
  unfold onMemory
  dsimp only
  cases hrun : x m.memory with
  | ok a memory =>
    rw [hrun] at hchange
    exact ⟨hm.withMemory hchange.1, hchange.2⟩
  | error e memory =>
    rw [hrun] at hchange
    exact faulted_of_accepts hchange.1 hchange.2

theorem keeps_grow : Keeps R slack (onMemory Memory.grow) fun _ => True := by
  refine keeps_onMemory fun memory hm => ?_
  rw [Memory.grow_eq]
  split
  · rename_i hrun
    split at hrun
    · obtain ⟨-, rfl⟩ := EStateM.Result.ok.inj hrun
      exact ⟨hm.of_slots rfl, trivial⟩
    · cases hrun
  · rename_i hrun
    split at hrun
    · cases hrun
    · obtain ⟨rfl, rfl⟩ := EStateM.Result.error.inj hrun
      exact ⟨hm, rfl⟩

theorem keeps_makeRoom : Keeps R slack makeRoom fun _ => True := by
  refine .next keeps_glance fun before _ => .next keeps_reclaimYoung fun freed _ => ?_
  refine .ite (fun _ => .answer trivial) fun _ => .next keeps_glance fun after _ => ?_
  refine .ite (fun _ => keeps_grow) fun _ => ?_
  refine .next keeps_reclaim fun more _ => .next keeps_glance fun last _ => ?_
  exact .ite (fun _ => ends_throw rfl) fun _ => .answer trivial

/-! ### Allocation -/

theorem keeps_register (ho : o.Ranged) :
    Keeps R slack (onMemory (Memory.register o)) fun v => v.Ranged := by
  refine keeps_onMemory fun memory hm => ?_
  have hregister := hm.register ho
  cases hrun : Memory.register o memory with
  | ok v memory' =>
    rw [hrun] at hregister
    exact ⟨hregister.2, .of_isReference hregister.1⟩
  | error e memory' =>
    rw [hrun] at hregister
    exact hregister

theorem keeps_allocate (ho : o.Ranged) : Keeps R slack (allocate o) fun v => v.Ranged :=
  .next keeps_glance fun _ _ => .ite (fun _ => .next keeps_makeRoom fun _ _ => keeps_register ho) fun _ =>
    keeps_register ho

/-- With more pins a number is still in range. -/
theorem keeps_withPins {values : List Value} (hz : Keeps (fun _ _ => False) slack z P) :
    Keeps R slack (withPins values z) P := by
  refine ⟨fun m hm => ?_⟩
  have hpinned := hm.withMemory (hm.memory.foldl_pin values)
  unfold withPins
  dsimp only
  cases hrun : z { m with memory := values.foldl Memory.pin m.memory } with
  | ok a m' =>
    obtain ⟨hm', ha⟩ := hz.ok hpinned hrun
    exact ⟨hm'.withMemory (hm'.memory.of_slots rfl), ha⟩
  | error e m' =>
    obtain ⟨hm', he⟩ := hz.error hpinned hrun
    exact ⟨hm'.of_slots rfl, fun n hn => (he n hn).elim⟩

theorem keeps_instanceSpec : Keeps R slack (instanceSpec cls) fun spec =>
    cls.Ranged ∧ spec.instSize < 255 :=
  .next keeps_fetchInt fun word hword => .answer ⟨hword.1, Object.instSize_lt word⟩

theorem keeps_instantiate (hcount : count ≤ Primitive.maxIndexable) :
    Keeps R slack (instantiate cls count) fun v => v.Ranged :=
  .next keeps_instanceSpec fun _ hspec => .next keeps_nil fun _ hnil =>
    keeps_allocate (Object.ranged_newInstance hspec.1 hnil hspec.2 hcount)

theorem keeps_makePoint (hx : x.Ranged) (hy : y.Ranged) :
    Keeps R slack (makePoint x y) fun v => v.Ranged := by
  have hpoint : Keeps (fun _ _ => False) slack (do instantiate (← special Special.classPoint) 0) fun v => v.Ranged :=
    .next keeps_special fun _ _ => keeps_instantiate (Nat.zero_le _)
  refine .next (keeps_withPins hpoint) fun point hpoint => ?_
  exact .next (keeps_store hx) fun _ _ => .next (keeps_store hy) fun _ _ => .answer hpoint

theorem keeps_makeFloat {bits : UInt64} : Keeps R slack (makeFloat bits) fun v => v.Ranged :=
  .next keeps_special fun _ hcls => keeps_allocate (Object.ranged_bare hcls rfl)

theorem keeps_makeString {text : String} : Keeps R slack (makeString text) fun v => v.Ranged :=
  .next keeps_special fun _ hcls => keeps_allocate (Object.ranged_bare hcls rfl)

/-- What is too great to be immediate becomes an object. -/
theorem keeps_positive32 : Keeps R slack (positive32 n) fun v => v.Ranged := by
  unfold positive32
  split
  · rename_i v hv
    exact .answer (Value.ranged_of_ofInt? hv)
  · exact .next keeps_special fun _ hcls => keeps_allocate (Object.ranged_bare hcls rfl)

/-! ### Contexts -/

/-- A context that waits is wiped, and a new one holds nil. -/
theorem ranged_pooled (large : Bool) {pool : ContextPool} {memory : Memory}
    (hmemory : memory.Ranged) (hpool : ∀ v ∈ pool.roots, v.Ranged) (hcls : cls.Ranged)
    (hnil : nil.Ranged) :
    match ContextPool.allocate large cls nil (pool, memory) with
    | .ok v (pool', memory') => v.Ranged ∧ (∀ w ∈ pool'.roots, w.Ranged) ∧ memory'.Ranged
    | .error e (_, memory') => memory'.Ranged ∧ rejected? e = none := by
  simp only [ContextPool.allocate, ContextPool.take]
  cases hhead : pool.head large with
  | none =>
    have hsize : Context.size large ≤ maxFields := by cases large <;> decide
    have hregister := hmemory.register (o := .ofPointers cls .indexable (.replicate (Context.size large) nil))
      (Object.ranged_filled hcls rfl hnil hsize)
    simp only
    cases hrun : Memory.register (.ofPointers cls .indexable (.replicate (Context.size large) nil)) memory with
    | ok v memory' =>
      rw [hrun] at hregister
      exact ⟨.of_isReference hregister.1, hpool, hregister.2⟩
    | error e memory' =>
      rw [hrun] at hregister
      exact hregister
  | some context =>
    simp only
    cases ho : memory.get? context with
    | none => exact ⟨hmemory, rfl⟩
    | some o =>
      have hranged := hmemory _ _ ho
      have hnext : ((o.pointers[Context.sender]?).getD nil).Ranged := by
        cases hx : o.pointers[Context.sender]? with
        | none => exact hnil
        | some x => exact hranged.field hx
      refine ⟨.of_isLive (Memory.isLive_of_get? ho), fun w hw => ?_, hmemory.modify fun _ _ => ?_⟩
      · rcases Machine.mem_roots_setHead hw with hw | hw
        · exact hpool w hw
        · split at hw
          · cases hw
          · exact Option.some.inj hw ▸ hnext
      · exact Object.ranged_filled hranged.cls rfl hnil hranged.size

theorem keeps_allocateContext {large : Bool} :
    Keeps R slack (allocateContext large) fun v => v.Ranged := by
  have supply : Keeps R slack (do
      let cls ← special Special.classMethodContext
      let nil ← nil
      onPool (ContextPool.allocate large cls nil)) fun v => v.Ranged := by
    refine .next keeps_special fun cls hcls => .next keeps_nil fun nil hnil => ⟨fun m hm => ?_⟩
    have hpooled := ranged_pooled large hm.memory hm.outfitted.pool hcls hnil
    unfold onPool
    dsimp only
    cases hrun : ContextPool.allocate large cls nil (m.pool, m.memory) with
    | ok v supplied =>
      rw [hrun] at hpooled
      have f := hm.outfitted
      exact ⟨⟨hpooled.2.2, hm.registers, f.array, f.nil, f.falseObject, f.trueObject, hpooled.2.1,
        f.devices⟩, hpooled.1⟩
    | error e supplied =>
      rw [hrun] at hpooled
      exact faulted_of_accepts hpooled.1 hpooled.2
  exact .next keeps_glance fun _ _ => .ite (fun _ => .next keeps_makeRoom fun _ _ => supply) fun _ => supply

/-- A context that is offered to the pool is linked to those that wait. -/
theorem keeps_recycleContext : Keeps R slack (recycleContext v) fun _ => True := by
  refine .next keeps_special fun cls _ => .next keeps_nil fun nil hnil => ⟨fun m hm => ?_⟩
  unfold onPool ContextPool.recycle
  dsimp only
  cases hchain : ContextPool.chainOf? m.memory v cls with
  | none => exact ⟨hm, trivial⟩
  | some large =>
    have hv : v.Ranged := by
      obtain ⟨o, ho, -⟩ := Option.bind_eq_some_iff.1 hchain
      exact .of_isLive (Memory.isLive_of_get? ho)
    have hhead : ((m.pool.head large).getD nil).Ranged := by
      cases hfirst : m.pool.head large with
      | none => exact hnil
      | some first => exact hm.outfitted.pool first (Machine.mem_roots_of_head hfirst)
    have f := hm.outfitted
    refine ⟨⟨hm.memory.setField hhead, hm.registers, f.array, f.nil, f.falseObject, f.trueObject,
      fun w hw => ?_, f.devices⟩, trivial⟩
    rcases Machine.mem_roots_setHead hw with hw | hw
    · exact f.pool w hw
    · exact Option.some.inj hw ▸ hv

end Action

end Smalltalk
