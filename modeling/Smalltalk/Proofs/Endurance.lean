import Smalltalk.Proofs.Answering
import Smalltalk.Proofs.Dispatch
import Smalltalk.Proofs.Movement
import Smalltalk.Proofs.Staleness

/-!
# Objects that last

Whatever the machine does, an object keeps its format, its identity hash, the number of its pointer
fields and the kind and length of its raw part for as long as its reference resolves. Stores replace
fields one for one, contexts are wiped and filled within their size, and a reference that comes
alive belongs to a new object, since it was never seen before. The class of an object is one of the
fields that a renaming goes through, and nothing else changes it; a step that renames ends with the
renaming.
-/

namespace Smalltalk

open Outcome

theorem Attempt.Stays.forM {R : Machine → Machine → Prop} [Std.Refl R] [IsTrans Machine R] {γ : Type}
    {xs : List γ} {g : γ → Attempt PUnit} (hg : ∀ a, Stays R (g a)) : Stays R (xs.forM g) := by
  induction xs with
  | nil => exact .pure
  | cons a xs ih => exact .bind (hg a) fun _ => ih

namespace Machine

/-! ### Work on the stack -/

/-- What is done to the stack when a send is looked up, reported or handed on. -/
class Stackwork (R : Machine → Machine → Prop) : Prop extends Std.Refl R, IsTrans Machine R where
  push : ∀ {x}, Action.Within R (Action.push x)
  popN : ∀ {n}, Action.Within R (Action.popN n)
  modifyCounters : ∀ {f}, Action.Within R (Action.modifyCounters f)
  lookup : ∀ {selector cls}, Action.Within R (Action.lookup selector cls)
  createMessage : ∀ {selector n cls}, Action.Within R (Action.createMessage selector n cls)

namespace Stackwork

open Smalltalk.Action Attempt

variable {R : Machine → Machine → Prop} [Stackwork R] {selector cls x : Value} {n extra : Nat}

theorem popThenPush : Within R (popThenPush n x) := .bind popN fun _ => push

/-- A send is found, or it is counted, put into a message and reported. -/
theorem findSelector : Within R (findSelector selector n cls) := by
  refine .bind lookup fun found => ?_
  cases found with
  | some e => exact .pure
  | none =>
    have report : ∀ {selector'} {finish : Option CacheEntry → Action CacheEntry},
        (∀ found, Within R (finish found)) → Within R (do
          Action.modifyCounters fun c => { c with doesNotUnderstand := c.doesNotUnderstand + 1 }
          let message ← Action.createMessage selector n cls
          Action.popThenPush n message
          finish (← Action.lookup selector' cls)) := fun hfinish =>
      .bind modifyCounters fun _ => .bind createMessage fun _ => .bind popThenPush fun _ =>
        .bind lookup hfinish
    refine .bind special_within fun _ => .ite (.bind .throw fun _ => report fun found => ?_)
      (report fun found => ?_)
    all_goals cases found with
    | some e => exact .pure
    | none => exact .throw

theorem quickPrimitive : Within R (quickPrimitive n) := by
  refine .ite .pure (.bind get_within fun _ => ?_)
  split
  · exact .bind popThenPush fun _ => .pure
  · refine .bind stackValue_within fun _ => .bind object?_within fun _ => ?_
    split
    · exact .bind popThenPush fun _ => .pure
    · exact .pure

theorem checkArity : Stays R (checkArity selector cls n) := by
  refine .bind (.lift lookup) fun found => ?_
  cases found with
  | none => exact .pure
  | some e => exact .bind .get fun _ => .bind (.lift ofExcept_within) fun _ => .require

theorem pushAll {xs : List Value} : Stays R (xs.forM fun x => (Action.push x : Attempt Unit)) :=
  .forM fun _ => .lift push

theorem performWithArray : Stays R (performWithArray cls extra) := by
  refine .bind stackObject_stays fun _ => .bind stackObject_stays fun _ => ?_
  refine .bind (.lift object_within) fun _ => .bind .require fun _ => ?_
  refine .bind (.lift registers_within) fun _ => .bind (.lift object_within) fun _ => ?_
  refine .bind .require fun _ => .bind checkArity fun _ => .bind (.lift popN) fun _ => ?_
  exact .bind pushAll fun _ => .pure

theorem perform : Stays R (Primitive.perform n) := by
  cases n with
  | zero => exact .decline
  | succ count =>
    refine .bind stackObject_stays fun _ => .bind stackValue_stays fun _ => ?_
    refine .bind (.lift classOf_within) fun _ => .bind checkArity fun _ => ?_
    refine .bind (.lift stackValues_within) fun _ => .bind (.lift popN) fun _ => ?_
    exact .bind pushAll fun _ => .pure

theorem performWithArguments : Stays R (Primitive.performWithArguments n) :=
  .bind stackValue_stays fun _ => .bind (.lift classOf_within) fun _ => performWithArray

theorem performInSuperclass : Stays R (Primitive.performInSuperclass n) :=
  .bind stackObject_stays fun _ => .bind stackValue_stays fun _ => .bind (.lift classOf_within) fun _ =>
    .bind (.lift isAncestor_within) fun _ => .bind .require fun _ => performWithArray

end Stackwork

variable {m m' m'' : Machine} {P : Object → Object → Prop} {v : Value}

/-! ### What lasts -/

/-- Objects that are seen through one reference before and after stand in `P`. -/
structure Endures (P : Object → Object → Prop) (m m' : Machine) : Prop where
  later : m.memory.Later m'.memory
  stocked : m.memory.Stocked → m'.memory.Stocked
  object : m.memory.Stocked → ∀ v o o', m.memory.get? v = some o → m'.memory.get? v = some o' → P o o'

/-- Objects keep shape and class. -/
abbrev Remains (m m' : Machine) : Prop := Endures Object.Remains m m'

theorem Endures.mono {Q : Object → Object → Prop} (h : Endures P m m') (hPQ : ∀ o o', P o o' → Q o o') :
    Endures Q m m' :=
  ⟨h.later, h.stocked, fun hs v o o' ho ho' => hPQ o o' (h.object hs v o o' ho ho')⟩

/-- A reference that resolves before and after has resolved in between. -/
theorem Endures.trans (htrans : ∀ {a b c}, P a b → P b c → P a c) (h : Endures P m m')
    (h' : Endures P m' m'') : Endures P m m'' := by
  refine ⟨h.later.trans h'.later, h'.stocked ∘ h.stocked, fun hs v o o'' ho ho'' => ?_⟩
  cases hbetween : m'.memory.get? v with
  | none =>
    have houtlived := h.later.outlived (Memory.isLive_of_get? ho) (Memory.get?_eq_none.1 hbetween)
    rw [(houtlived.later h'.later).get?_eq_none] at ho''
    exact absurd ho'' (by simp)
  | some o' =>
    exact htrans (h.object hs v o o' ho hbetween) (h'.object (h.stocked hs) v o' o'' hbetween ho'')

theorem Remains.trans (h : Remains m m') (h' : Remains m' m'') : Remains m m'' :=
  Endures.trans Object.Remains.trans h h'

theorem Remains.of_slots (slots : m'.memory.slots = m.memory.slots)
    (free : m'.memory.free = m.memory.free) : Remains m m' := by
  refine ⟨.of_slots slots, fun h => h.of_slots slots free, fun _ v o o' ho ho' => ?_⟩
  rw [Memory.get?_congr slots, ho] at ho'
  obtain rfl := Option.some.inj ho'
  exact .refl o

theorem Remains.of_memory (memory : m'.memory = m.memory) : Remains m m' :=
  .of_slots (by rw [memory]) (by rw [memory])

theorem Remains.of_trims (h : Trims m m') : Remains m m' := by
  refine ⟨h.later, h.stocked, fun _ v o o' ho ho' => ?_⟩
  rw [h.object v o' ho'] at ho
  obtain rfl := Option.some.inj ho
  exact .refl _

theorem Remains.of_placed (m : Machine) (o : Object) : Remains m (Action.placed m o) := by
  refine ⟨Memory.later_place _ o, fun h => h.place, fun hs v old new hold hnew => ?_⟩
  rcases hs.get?_place o v with hsame | ⟨-, hnone, -⟩
  · rw [Action.placed, hsame, hold] at hnew
    obtain rfl := Option.some.inj hnew
    exact .refl _
  · rw [hnone] at hold
    exact absurd hold (by simp)

theorem Remains.of_modified {f : Object → Object}
    (hf : ∀ o, m.memory.get? v = some o → o.Remains (f o)) : Remains m (m.modified v f) := by
  refine ⟨Memory.later_modify .., fun h => h.modify v f, fun _ w o o' ho ho' => ?_⟩
  rw [modified, Memory.get?_modify] at ho'
  split at ho'
  · rename_i hw
    subst hw
    rw [ho, Option.map_some, Option.some.injEq] at ho'
    rw [← ho']
    exact hf o ho
  · rw [ho, Option.some.injEq] at ho'
    rw [← ho']
    exact .refl o

instance : Std.Refl Remains := ⟨fun _ => .of_memory rfl⟩

instance : IsTrans Machine Remains := ⟨fun _ _ _ => Remains.trans⟩

instance : Groundwork fun _ => Remains where
  refl _ _ := .of_memory rfl
  trans := Remains.trans
  upkeep h := .of_slots h.slots h.free
  trims := .of_trims
  fresh h := (Remains.of_placed _ _).trans h
  body hf := .of_modified fun o ho => (hf o ho).2
  storeInto hf := .of_modified hf

instance : Fieldwork Remains where
  setCell := by
    intro m v i x
    rw [setCell_eq]
    exact .of_modified fun o _ => o.remains_setPointer i x
  withRegisters := .of_memory rfl
  counters := .of_memory rfl
  interrupts := .of_memory rfl
  reclaimable := .of_memory rfl
  pool := .of_memory rfl

instance : Stackwork Remains where
  push := Action.push_within
  popN := Action.popN_within
  modifyCounters := Action.modifyCounters_within
  lookup := Groundwork.lookup (R := fun _ => Remains) (t := none)
  createMessage := Groundwork.createMessage (R := fun _ => Remains) (t := none)

/-- Renaming changes classes and other fields one for one. -/
theorem Renamed.endures {names : Renaming} (h : Renamed names m m') : Endures Object.Fits m m' := by
  refine ⟨?_, fun hs => ?_, fun _ v o o' ho ho' => ?_⟩
  · rw [h.memory]
    exact Memory.later_rename ..
  · rw [h.memory]
    exact hs.rename names
  · rw [h.memory, get?_rename, ho, Option.map_some, Option.some.injEq] at ho'
    rw [← ho']
    exact ⟨rfl, rfl, Array.size_map, .refl _⟩

end Machine

namespace Action

open Machine

variable {α : Type} {v x : Value} {n : Nat} {m m' : Machine}

/-! ### New objects -/

theorem positive32_remains : Within Remains (positive32 n) :=
  Groundwork.positive32 (R := fun _ => Remains) (t := none)

theorem makePoint_remains {y : Value} : Within Remains (makePoint x y) :=
  Groundwork.makePoint (R := fun _ => Remains) (t := none)

theorem withPins_remains {values : List Value} {y : Action α} (hy : Within Remains y) :
    Within Remains (withPins values y) := by
  intro m a m' hrun
  obtain ⟨m₁, hinner, rfl⟩ := withPins_ok hrun
  have hpins : ∀ (m : Machine) (pins : Array Value), Remains m (m.withPins pins) := fun _ _ =>
    .of_slots rfl rfl
  exact ((hpins m _).trans (hy _ a m₁ hinner)).trans (hpins m₁ _)

/-- A context from the pool is wiped within its size. -/
theorem Supplied.remains {large : Bool} (h : Supplied large m v m') : Remains m m' := by
  cases h with
  | pooled hhead ho hnext =>
    refine ⟨(Memory.later_modify ..), fun h => h.modify .., ?_⟩
    refine (Remains.of_modified (v := v) (f := fun _ => wiped _ m.specials.nil) fun o' ho' => ?_).object
    rw [ho] at ho'
    obtain rfl := Option.some.inj ho'
    exact .of_pointers Array.size_replicate
  | fresh htrims hhead ho hv =>
    exact (Remains.of_trims htrims).trans ((Remains.of_placed _ _).trans (.of_slots rfl rfl))

theorem allocateContext_remains {large : Bool} : Within Remains (allocateContext large) := by
  intro m v m' hrun
  obtain ⟨m₁, htrims, hsupply⟩ := allocateContext_ok hrun
  exact (Remains.of_trims htrims).trans hsupply.remains

/-! ### Entering methods -/

/-- The frame of a method fits into its context. -/
theorem remains_fillFrame {o : Object} {sender method nil : Value} {frame : Array Value} {tempCount : Nat}
    (h : Context.receiver + max frame.size (tempCount + 1) ≤ o.pointers.size) :
    o.Remains (fillFrame o sender method nil frame tempCount) := by
  refine .of_pointers ?_
  simp only [Array.size_append, Array.size_setIfInBounds, Array.size_extract, Array.size_replicate]
  simp only [Context.receiver] at h ⊢
  omega

theorem enterMethod_remains {receiver method : Value} : Within Remains (enterMethod receiver method n) := by
  refine .bind get_within fun _ => .bind (.of_eq fun _ _ _ h => (ofExcept_ok.1 h).2) fun header => ?_
  refine .bind (withPins_remains allocateContext_remains) fun context => .bind nil_within fun nil => ?_
  refine .bind registers_within fun r => .bind stackValues_within fun frame m u m' hrun => ?_
  obtain ⟨o, _, hobject, hrun⟩ := bind_ok.1 hrun
  obtain ⟨ho, rfl⟩ := object_ok.1 hobject
  split at hrun
  · obtain ⟨_, _, hthrow, -⟩ := bind_ok.1 hrun
    exact (throw_ok.1 hthrow).elim
  · rename_i hfits
    obtain ⟨_, m₁, hfill, hrun⟩ := bind_ok.1 hrun
    obtain rfl := modifyMemory_ok.1 hfill
    refine Remains.trans (Remains.of_modified (m := m) (v := context) fun o' ho' => ?_)
      (Within.bind popN_within (fun _ => ?_) _ _ _ hrun)
    · rw [ho] at ho'
      obtain rfl := Option.some.inj ho'
      exact remains_fillFrame (by simpa using hfits)
    · refine .bind modifyReclaimable_within fun _ => .bind saveRegisters_within fun _ => ?_
      exact .bind modifyRegisters_within fun _ => saveRegisters_within

theorem activateMethod_remains {receiver method : Value} :
    Within Remains (activateMethod receiver method n) :=
  .bind enterMethod_remains fun _ => checkInterrupts_within

end Action

/-! ### Primitives -/

/-- A machine comes from another by a successful renaming, before which objects kept shape and
class. -/
def Machine.Became (m m' : Machine) : Prop :=
  ∃ twoWay n m₁, m.Remains m₁ ∧ Primitive.arrayBecome twoWay n m₁ = .ok .done m'

/-- Objects kept shape and class, up to a renaming that was done last. -/
def Machine.Proceeds (m m' : Machine) : Prop := m.Remains m' ∨ m.Became m'

/-- An attempt that keeps shapes and classes, unless it is done with a renaming. -/
structure Attempt.Lasts (x : Attempt Completion) : Prop where
  ok : ∀ m, Gives x m fun c m' => m.Remains m' ∨ (c = .done ∧ m.Became m')
  declined : Attempt.Yields Machine.Remains x

namespace Machine

open Attempt Smalltalk.Action

variable {m m₁ m' : Machine}

/-- After a renaming only the answer is pushed. -/
theorem arrayBecome_endures {twoWay : Bool} {n : Nat} : Gives (Primitive.arrayBecome twoWay n) m
    fun c m' => c = .done ∧ Endures Object.Fits m m' := by
  refine .bind (gives_looks stackObject_stays fun _ => .bind (gives_looks stackObject_stays fun _ => ?_))
  refine .bind (gives_looks (.lift object_within) fun _ => .bind (gives_looks (.lift object_within) fun _ => ?_))
  refine .bind (gives_lift fun b m₁ hbecome => ?_)
  have hrenamed : Endures Object.Fits m m₁ := by
    rcases become_ok hbecome with ⟨-, rfl⟩ | ⟨-, names, -, hnames⟩
    · exact (Remains.of_memory rfl).mono fun _ _ => Object.Remains.toFits
    · exact hnames.endures
  refine .bind (gives_looks .require fun _ => .bind (gives_looks stackValue_stays fun _ => ?_))
  refine .bind (gives_lift fun _ m₂ hpush => .pure ⟨rfl, ?_⟩)
  have hpushed : Remains m₁ m₂ := Action.popThenPush_within _ _ _ hpush
  exact .trans .trans hrenamed (hpushed.mono fun _ _ => Object.Remains.toFits)

theorem Remains.proceeds (h : Remains m m₁) (h' : Proceeds m₁ m') : Proceeds m m' := by
  rcases h' with h' | ⟨twoWay, n, m₂, h₂, hbecome⟩
  · exact .inl (h.trans h')
  · exact .inr ⟨twoWay, n, m₂, h.trans h₂, hbecome⟩

theorem Became.endures (h : Became m m') : Endures Object.Fits m m' := by
  obtain ⟨twoWay, n, m₁, hremains, hrun⟩ := h
  exact .trans .trans (hremains.mono fun _ _ => Object.Remains.toFits)
    (arrayBecome_endures _ _ hrun).2

theorem Answered.remains {n : Nat} (h : m.Answered Remains n m') : Remains m m' := by
  obtain ⟨m₁, hground, hend⟩ := h
  have hpopped : Remains m (Action.popped m₁ n) := hground.trans (.of_memory rfl)
  rcases hend with hend | ⟨v, hpush⟩
  · exact hpopped.trans hend
  · exact hpopped.trans (Action.popThenPush_within _ _ _ hpush)

end Machine

namespace Attempt

open Smalltalk.Action Machine

variable {n : Nat} {x : Attempt Completion}

theorem Stays.lasts (h : Stays Remains x) : Lasts x := ⟨fun m c m' hrun => .inl (h.ok m c m' hrun), h.declined⟩

theorem blockValue_remains : Stays Remains (Attempt.blockValue n) := by
  refine .bind stackValue_stays fun block => .bind (.lift isInstanceOf_within) fun _ => ?_
  refine .bind .require fun _ => .bind (.lift fetch_within) fun _ => .bind .ofOption fun _ => ?_
  refine .bind .require fun _ => .bind (.lift fetch_within) fun _ => .bind (.lift nil_within) fun _ => ?_
  refine .bind .require fun _ => .bind (.lift object_within) fun _ => .bind .require fun _ => ?_
  refine .bind (.lift stackValues_within) fun _ => .bind (.lift fetch_within) fun _ => ?_
  refine .bind (.lift registers_within) fun _ => .bind (.forM fun _ => .lift store_within) fun _ => ?_
  refine .bind (.lift store_within) fun _ => .bind (.lift store_within) fun _ => ?_
  refine .bind (.lift store_within) fun _ => .bind (.lift popN_within) fun _ => ?_
  exact .lift activate_within

end Attempt

namespace Primitive

open Attempt Smalltalk.Action Machine

variable {n : Nat}

theorem arrayBecome_lasts {twoWay : Bool} : Lasts (arrayBecome twoWay n) := by
  refine ⟨fun m c m' hrun => .inr ?_, arrayBecome_yields⟩
  obtain ⟨rfl, -⟩ := arrayBecome_endures c m' hrun
  exact ⟨rfl, twoWay, n, m, .of_memory rfl, hrun⟩

theorem blockValue_lasts : Lasts (blockValue n) :=
  Stays.lasts (.bind blockValue_remains fun _ => .pure)

theorem perform_lasts : Lasts (perform n) := Stays.lasts Stackwork.perform

theorem performWithArguments_lasts : Lasts (performWithArguments n) :=
  Stays.lasts Stackwork.performWithArguments

theorem performInSuperclass_lasts : Lasts (performInSuperclass n) :=
  Stays.lasts Stackwork.performInSuperclass

theorem signal_lasts : Lasts (signal n) :=
  Stays.lasts (.bind receiverOf_stays fun _ => .bind (.lift signal_within) fun _ => .pure)

theorem wait_lasts : Lasts (wait n) :=
  Stays.lasts (.bind receiverOf_stays fun _ => .bind (.lift wait_within) fun _ => .pure)

theorem resume_lasts : Lasts (resume n) :=
  Stays.lasts (.bind receiverOf_stays fun _ => .bind (.lift activeProcess_within) fun _ =>
    .bind .require fun _ => .bind (.lift resume_within) fun _ => .pure)

theorem suspend_lasts : Lasts (suspend n) :=
  Stays.lasts (.bind (.lift stackValue_within) fun _ => .bind (.lift activeProcess_within) fun _ =>
    .bind .require fun _ => .bind (.lift nil_within) fun _ => .bind (.lift popThenPush_within) fun _ =>
    .bind (.lift suspendActive_within) fun _ => .pure)

theorem redirecting_eq : (all.filter fun p => p.number ∈ redirecting) = [
    ⟨72, "elementsForwardIdentityTo:", becomeForward⟩, ⟨81, "value", blockValue⟩,
    ⟨83, "perform:", perform⟩, ⟨84, "perform:withArguments:", performWithArguments⟩,
    ⟨85, "signal", signal⟩, ⟨86, "wait", wait⟩, ⟨87, "resume", resume⟩, ⟨88, "suspend", suspend⟩,
    ⟨100, "perform:withArguments:inSuperclass:", performInSuperclass⟩,
    ⟨128, "elementsExchangeIdentityWith:", becomeBoth⟩] := rfl

theorem all_last : ∀ p ∈ all, ∀ n, Lasts (p.action n) := by
  intro p hp n
  by_cases hnumber : p.number ∈ redirecting
  · have hmem : p ∈ all.filter fun p => p.number ∈ redirecting :=
      List.mem_filter.2 ⟨hp, decide_eq_true hnumber⟩
    rw [redirecting_eq] at hmem
    simp only [List.mem_cons, List.not_mem_nil, or_false] at hmem
    rcases hmem with rfl | rfl | rfl | rfl | rfl | rfl | rfl | rfl | rfl | rfl
    · exact arrayBecome_lasts (n := n)
    · exact blockValue_lasts (n := n)
    · exact perform_lasts (n := n)
    · exact performWithArguments_lasts (n := n)
    · exact signal_lasts (n := n)
    · exact wait_lasts (n := n)
    · exact resume_lasts (n := n)
    · exact suspend_lasts (n := n)
    · exact performInSuperclass_lasts (n := n)
    · exact arrayBecome_lasts (n := n)
  · obtain ⟨k, -, hanswers⟩ := all_conform (R := fun _ => Remains) p hp hnumber n
    refine ⟨fun m c m' hrun => .inl ?_, fun m => (hanswers m).declined⟩
    exact ((hanswers m).answered c m' hrun).2.remains

end Primitive

namespace Action

open Machine

variable {α β : Type} {v x : Value} {i n : Nat} {m m' : Machine} {y : Action α} {f : α → Action β}

/-! ### Sends -/

theorem Within.proceeds (hy : Within Remains y) : Within Proceeds y := fun m a m' hrun =>
  .inl (hy m a m' hrun)

/-- What keeps shapes and classes may come before a renaming. -/
theorem Within.before (hy : Within Remains y) (hf : ∀ a, Within Proceeds (f a)) :
    Within Proceeds (y >>= f) := by
  intro m b m' hrun
  obtain ⟨a, m₁, h, h'⟩ := bind_ok.1 hrun
  exact (hy m a m₁ h).proceeds (hf a m₁ b m' h')

theorem tryPrimitive_lasts {number : Nat} : Gives (tryPrimitive number n) m fun trial m' =>
    Remains m m' ∨ (trial = .handled ∧ Became m m') := by
  unfold tryPrimitive
  refine .ite (fun _ trial m' hrun => .inl (Stackwork.quickPrimitive m trial m' hrun)) fun _ => ?_
  split
  · exact .pure (.inl (.of_memory rfl))
  · rename_i p hp
    have hlasts := Primitive.all_last p (Primitive.mem_all_of_find? hp) n
    refine .bind (gives_run? ((hlasts.ok m).mono fun c m₁ h₁ => ?_) fun m₁ hdeclined => ?_)
    · cases c with
      | done => exact .pure (h₁.imp id fun h => ⟨rfl, h.2⟩)
      | resend selector count cls =>
        exact .pure (.inl (h₁.resolve_right fun h => absurd h.1 (by simp)))
    · refine .bind fun _ m₂ hcount => .pure (.inl ?_)
      exact (hlasts.declined m m₁ hdeclined).trans (modifyCounters_within _ _ _ hcount)

/-- A send ends with the renaming that it comes to. -/
theorem sendWithin_proceeds {limit : Nat} {selector cls : Value} :
    Within Proceeds (sendWithin limit selector n cls) := by
  induction limit generalizing selector n cls with
  | zero => exact .throw
  | succ limit ih =>
    unfold sendWithin
    refine .before modifyCounters_within fun _ => .before stackValue_within fun receiver => ?_
    refine .before registers_within fun r => .before Stackwork.findSelector fun entry => ?_
    have noted : Within Remains (modify fun m => { m with lastPrimitiveSend := some (selector, cls) } :
        Action Unit) := by
      intro m u m' hrun
      obtain rfl := modify_ok.1 hrun
      exact .of_memory rfl
    refine .join (fun jp => .ite (.before noted jp) (jp ())) fun _ => ?_
    refine .before registers_within fun r' => ?_
    refine .ite (fun m u m' hrun => ?_) activateMethod_remains.proceeds
    obtain ⟨trial, m₁, htry, hrun⟩ := bind_ok.1 hrun
    rcases tryPrimitive_lasts trial m₁ htry with hremains | ⟨rfl, hbecame⟩
    · refine hremains.proceeds ?_
      cases trial with
      | handled => exact Within.pure.proceeds _ _ _ hrun
      | resend selector argCount lookupClass => exact ih _ _ _ hrun
      | unhandled => exact activateMethod_remains.proceeds _ _ _ hrun
    · obtain ⟨-, rfl⟩ := pure_ok.1 hrun
      exact .inr hbecame

theorem sendToClass_proceeds {selector cls : Value} : Within Proceeds (sendToClass selector n cls) :=
  .before get_within fun _ => sendWithin_proceeds

theorem send_proceeds {selector : Value} : Within Proceeds (send selector n) :=
  .before stackValue_within fun _ => .before classOf_within fun _ => sendToClass_proceeds

theorem sendSuper_proceeds {selector : Value} : Within Proceeds (sendSuper selector n) :=
  .before registers_within fun _ => .before fetch_within fun _ => .before fetch_within fun _ =>
    .before fetch_within fun _ => sendToClass_proceeds

theorem sendSpecial_proceeds : Within Proceeds (sendSpecial i) := by
  refine .before specialSelector_within fun _ => .before special_within fun _ => ?_
  refine .before fetchInt_within fun _ => .ite (.before .throw fun _ => send_proceeds) send_proceeds

theorem runPrimitive_proceeds {number : Nat} : Within Proceeds (runPrimitive number n) := by
  intro m
  change Gives (runPrimitive number n) m fun _ m' => Proceeds m m'
  unfold runPrimitive
  split
  · exact .pure (.inl (.of_memory rfl))
  · rename_i p hp
    have hlasts := Primitive.all_last p (Primitive.mem_all_of_find? hp) n
    refine .bind (gives_run? ((hlasts.ok m).mono fun c m₁ h₁ => ?_) fun m₁ hdeclined => ?_)
    · cases c with
      | done => exact .pure (h₁.imp id And.right)
      | resend selector count cls =>
        have hremains := h₁.resolve_right fun h => absurd h.1 (by simp)
        refine .bind fun _ m₂ hsend => .pure (hremains.proceeds (sendToClass_proceeds _ _ _ hsend))
    · exact .pure (.inl (hlasts.declined m m₁ hdeclined))

/-! ### Steps -/

theorem jumpIf_proceeds {condition : Bool} {offset : Int} : Within Proceeds (jumpIf condition offset) := by
  refine .before pop_within fun _ => .before truth_within fun _ => .ite jump_within.proceeds ?_
  refine .before truth_within fun _ => .ite Within.pure.proceeds (.before push_within fun _ => ?_)
  exact .before special_within fun _ => send_proceeds

theorem arithmetic_proceeds : Within Proceeds (arithmetic i) := by
  refine .before stackValue_within fun a => .before stackValue_within fun b => ?_
  split
  · split
    · exact answerComparison_within.proceeds
    · split
      · exact Within.proceeds (.bind makePoint_remains fun _ => popThenPush_within)
      · split
        · exact popThenPush_within.proceeds
        · exact sendSpecial_proceeds
  · exact sendSpecial_proceeds

theorem run?_remains {y : Attempt α} (hy : Attempt.Stays Remains y) : Within Remains y.run? :=
  fun m => gives_run? (hy.ok m) (hy.declined m)

theorem quickly_remains {y : Attempt Value} (hy : Attempt.Stays Remains y) :
    Within Remains (quickly n y) := by
  refine .bind (run?_remains hy) fun found => ?_
  cases found with
  | none => exact .pure
  | some v => exact .bind popThenPush_within fun _ => .pure

theorem quickSize_remains : Within Remains quickSize := by
  refine .bind stackValue_within fun _ => .bind indexableSize_within fun found => ?_
  cases found with
  | none => exact .pure
  | some size =>
    refine .ite (.bind positive32_remains fun _ => .bind popThenPush_within fun _ => .pure) .pure

theorem indexedAt_remains {mode : AccessMode} : Attempt.Stays Remains (Attempt.indexedAt true mode) := by
  refine .bind Attempt.stackObject_stays fun _ => .bind Attempt.stackPositive32_stays fun _ => ?_
  refine .bind (.lift isInstanceOf_within) fun _ => .bind Attempt.cachedEntry_stays fun _ => ?_
  exact .bind .require fun _ => Groundwork.elementAt (R := fun _ => Remains) (t := none)

theorem indexedAtPut_remains {mode : AccessMode} :
    Attempt.Stays Remains (Attempt.indexedAtPut true mode) := by
  refine .bind Attempt.stackObject_stays fun _ => .bind Attempt.stackPositive32_stays fun _ => ?_
  refine .bind Attempt.stackValue_stays fun _ => .bind Attempt.cachedEntry_stays fun _ => ?_
  exact .bind .require fun _ => .bind (Groundwork.elementPut (R := fun _ => Remains)) fun _ => .pure

theorem quickSpecial_remains : Within Remains (quickSpecial i) := by
  unfold quickSpecial
  split
  · exact quickly_remains indexedAt_remains
  · exact quickly_remains indexedAtPut_remains
  · exact quickSize_remains
  · refine .bind stackValue_within fun _ => .bind stackValue_within fun _ => ?_
    exact .bind truth_within fun _ => .bind popThenPush_within fun _ => .pure
  · refine .bind stackValue_within fun _ => .bind classOf_within fun _ => ?_
    exact .bind popThenPush_within fun _ => .pure
  · exact quickly_remains (Groundwork.blockCopy (R := fun _ => Remains) (t := none))
  · exact .bind (run?_remains Attempt.blockValue_remains) fun _ => .pure
  · exact .bind (run?_remains Attempt.blockValue_remains) fun _ => .pure
  · exact .pure

theorem execute_proceeds {instruction : Instruction} : Within Proceeds (execute instruction) := by
  by_cases hplain : instruction.isPlain = true
  · exact (execute_within hplain).proceeds
  · cases instruction with
    | send index argCount => exact .before literal_within fun _ => send_proceeds
    | sendSuper index argCount => exact .before literal_within fun _ => sendSuper_proceeds
    | jumpIf condition offset => exact jumpIf_proceeds
    | arithmetic index => exact arithmetic_proceeds
    | special index =>
      exact .before quickSpecial_remains fun _ => .ite sendSpecial_proceeds Within.pure.proceeds
    | _ => exact absurd rfl hplain

theorem step_proceeds : Within Proceeds step := by
  rw [step_eq]
  exact .before fetchInstruction_within fun _ => execute_proceeds

end Action

/-! ### Runs -/

namespace Machine

variable {m m' m₀ m₁ m₂ : Machine} {v : Value} {o₁ o₂ : Object}

/-- The machine goes on by an instruction or by a primitive that is run on its own, or time goes by. -/
inductive Advance (m m' : Machine) : Prop
  | step (h : Action.step m = .ok () m')
  | primitive (number argCount : Nat) (taken : Option Bool)
      (h : Action.runPrimitive number argCount m = .ok taken m')
  | elapse (h : m.Elapses m')

/-- A machine goes on for as long as it likes. -/
abbrev Runs : Machine → Machine → Prop := Relation.ReflTransGen Advance

theorem Advance.proceeds (h : Advance m m') : Proceeds m m' := by
  cases h with
  | step h => exact Action.step_proceeds m () m' h
  | primitive number argCount taken h => exact Action.runPrimitive_proceeds m taken m' h
  | elapse h =>
    obtain ⟨clock, interrupts, devices, rfl⟩ := h
    exact .inl (.of_memory rfl)

theorem Proceeds.endures (h : Proceeds m m') : Endures Object.Fits m m' := by
  rcases h with h | h
  · exact h.mono fun _ _ => Object.Remains.toFits
  · exact h.endures

theorem Runs.endures (h : Runs m m') : Endures Object.Fits m m' := by
  induction h with
  | refl => exact (Remains.of_memory rfl).mono fun _ _ => Object.Remains.toFits
  | tail _ hlast ih => exact .trans .trans ih hlast.proceeds.endures

/-- A run either renames at some point, or keeps all classes. -/
theorem Runs.remains_or_became (h : Runs m m') : Remains m m' ∨
    ∃ a b, Runs m a ∧ Advance a b ∧ Became a b ∧ Runs b m' := by
  induction h with
  | refl => exact .inl (.of_memory rfl)
  | @tail m₁ m₂ hrun hlast ih =>
    rcases ih with hremains | ⟨a, b, hbefore, hadvance, hbecame, hafter⟩
    · rcases hlast.proceeds with hlasts | hbecame
      · exact .inl (hremains.trans hlasts)
      · exact .inr ⟨m₁, m₂, hrun, hlast, hbecame, .refl⟩
    · exact .inr ⟨a, b, hbefore, hadvance, hbecame, hafter.tail hlast⟩

/-- Through one reference an object is seen with the same format, identity hash, number of pointer
fields, kind and length of the raw part at any two points of a run, and with the same class unless
there was a successful renaming in between. -/
theorem shapes_last (stocked : m₀.memory.Stocked) (before : Runs m₀ m₁) (between : Runs m₁ m₂)
    (ho₁ : m₁.memory.get? v = some o₁) (ho₂ : m₂.memory.get? v = some o₂) :
    (o₂.format = o₁.format ∧ o₂.hash = o₁.hash ∧ o₂.pointers.size = o₁.pointers.size ∧
      o₁.body.Fits o₂.body) ∧
    (o₂.cls ≠ o₁.cls → ∃ a b, Runs m₁ a ∧ Advance a b ∧ Became a b ∧ Runs b m₂) := by
  have stocked₁ := before.endures.stocked stocked
  have hfits := between.endures.object stocked₁ v o₁ o₂ ho₁ ho₂
  refine ⟨⟨hfits.format, hfits.hash, hfits.pointers, hfits.body⟩, fun hcls => ?_⟩
  rcases between.remains_or_became with hremains | hbecame
  · exact absurd (hremains.object stocked₁ v o₁ o₂ ho₁ ho₂).cls hcls
  · exact hbecame

/-- The objects of the small machine with two arrays on its stack: one holds the class of all objects,
the other one an object to exchange it with. -/
def swapObjects : List Object :=
  let nil : Value := .ref 0 0
  let pointers fields := Object.ofPointers (.ref 2 0) .indexable (List.toArray fields)
  let frame := [nil, .small 0, .small 0, .ref 9 0, nil, nil, nil, .ref 12 0, .ref 13 0] ++
    List.replicate 14 nil
  benchObjects.set 10 (pointers frame) ++ [pointers [.ref 2 0], pointers [.ref 11 0]]

/-- The small machine about to exchange a class. -/
def swap : Machine := { bench with memory := filled (.empty .standard) swapObjects }

/-- The class is exchanged, and an object that was of that class still has its shape. -/
theorem shapes_last_swap : swap.memory.Stocked ∧ ∃ m' o₁ o₂, Runs swap swap ∧ Runs swap m' ∧
    swap.memory.get? (.ref 8 0) = some o₁ ∧ m'.memory.get? (.ref 8 0) = some o₂ ∧ o₂.cls ≠ o₁.cls ∧
    (o₂.format = o₁.format ∧ o₂.hash = o₁.hash ∧ o₂.pointers.size = o₁.pointers.size ∧
      o₁.body.Fits o₂.body) ∧
    ∃ a b, Runs swap a ∧ Advance a b ∧ Became a b ∧ Runs b m' := by
  have stocked : swap.memory.Stocked :=
    (wellFormed_filled (Memory.wellFormed_empty _) (by decide +kernel)).toStocked
  have hleads : Action.leads (Action.runPrimitive 128 1) swap (fun _ m' =>
      decide ((m'.memory.get? (.ref 8 0)).map Object.cls = some (.ref 11 0))) = true := by
    decide +kernel
  have hclass : (swap.memory.get? (.ref 8 0)).map Object.cls = some (.ref 2 0) := by decide +kernel
  obtain ⟨taken, m', hrun, htest⟩ := Action.exists_of_leads hleads
  obtain ⟨o₁, ho₁, hcls₁⟩ := Option.map_eq_some_iff.1 hclass
  obtain ⟨o₂, ho₂, hcls₂⟩ := Option.map_eq_some_iff.1 (of_decide_eq_true htest)
  have between : Runs swap m' := .single (.primitive 128 1 taken hrun)
  have hcls : o₂.cls ≠ o₁.cls := by
    rw [hcls₁, hcls₂]
    decide
  obtain ⟨hshape, hbecame⟩ := shapes_last stocked .refl between ho₁ ho₂
  exact ⟨stocked, m', o₁, o₂, .refl, between, ho₁, ho₂, hcls, hshape, hbecame hcls⟩

end Machine

end Smalltalk
