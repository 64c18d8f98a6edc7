import Mathlib.Logic.Relation
import Smalltalk.Proofs.Detours

/-!
# Entering a block that is running

A block is entered if its caller is nil, and then its caller becomes the context that enters it. Being
called by nobody is not the same as not running: the block that a process started in, or was left with
by its image, has no caller and runs at the bottom of a chain. Entering it hangs the chain of the active
context below it. This closes a circle when the block stands on the chain of the active context, and
makes two processes share their contexts when it stands on another chain. In no other case does a chain
that ended before run in a circle afterwards.
-/

namespace Smalltalk

open Outcome Recycling

/-! ### One more edge -/

section Edges

variable {α : Type} {r : α → α → Prop} {a b x y : α}

/-- A relation with one more edge. -/
def WithEdge (r : α → α → Prop) (a b : α) : α → α → Prop := fun x y => r x y ∨ (x = a ∧ y = b)

/-- No way from `x` leads in a circle. -/
def Straight (r : α → α → Prop) (x : α) : Prop :=
  ∀ y, Relation.ReflTransGen r x y → ¬ Relation.TransGen r y y

theorem WithEdge.le : r ≤ WithEdge r a b := fun _ _ => Or.inl

theorem WithEdge.of_reach (h : Relation.ReflTransGen r x y) :
    Relation.ReflTransGen (WithEdge r a b) x y := Relation.ReflTransGen.mono le x y h

/-- A way with the new edge is one without it, or goes to the edge and on from it. Where it takes the
edge more than once, what lies between is left out. -/
theorem WithEdge.reach_iff : Relation.ReflTransGen (WithEdge r a b) x y ↔
    Relation.ReflTransGen r x y ∨ (Relation.ReflTransGen r x a ∧ Relation.ReflTransGen r b y) := by
  constructor
  · intro h
    induction h with
    | refl => exact .inl .refl
    | tail _ hstep ih =>
      rcases hstep with hstep | ⟨rfl, rfl⟩
      · exact ih.imp (·.tail hstep) fun h => ⟨h.1, h.2.tail hstep⟩
      · exact .inr ⟨ih.elim id And.left, .refl⟩
  · rintro (h | ⟨hxa, hby⟩)
    · exact of_reach h
    · exact ((of_reach hxa).tail (.inr ⟨rfl, rfl⟩)).trans (of_reach hby)

theorem WithEdge.path_iff : Relation.TransGen (WithEdge r a b) x y ↔
    Relation.TransGen r x y ∨ (Relation.ReflTransGen r x a ∧ Relation.ReflTransGen r b y) := by
  constructor
  · intro h
    obtain ⟨z, hxz, hstep⟩ := Relation.TransGen.tail'_iff.1 h
    rcases hstep with hstep | ⟨rfl, rfl⟩
    · exact (reach_iff.1 hxz).imp (Relation.TransGen.tail' · hstep) fun h => ⟨h.1, h.2.tail hstep⟩
    · exact .inr ⟨(reach_iff.1 hxz).elim id And.left, .refl⟩
  · rintro (h | ⟨hxa, hby⟩)
    · exact Relation.TransGen.mono le x y h
    · exact (Relation.TransGen.tail' (of_reach hxa) (.inr ⟨rfl, rfl⟩)).trans_left (of_reach hby)

/-- A new edge closes a circle behind `x` exactly if its ends are connected already and its start can be
reached from `x`. -/
theorem Straight.withEdge_iff (hx : Straight r x) (hb : Straight r b) :
    Straight (WithEdge r a b) x ↔ ¬ (Relation.ReflTransGen r x a ∧ Relation.ReflTransGen r b a) := by
  constructor
  · rintro h ⟨hxa, hba⟩
    exact h a (WithEdge.of_reach hxa) (WithEdge.path_iff.2 (.inr ⟨.refl, hba⟩))
  · intro h y hreach hcircle
    rcases WithEdge.reach_iff.1 hreach with hxy | ⟨hxa, hby⟩ <;>
      rcases WithEdge.path_iff.1 hcircle with hyy | ⟨hya, hby'⟩
    · exact hx y hxy hyy
    · exact h ⟨hxy.trans hya, hby'.trans hya⟩
    · exact hb y hby hyy
    · exact h ⟨hxa, hby.trans hya⟩

theorem Straight.of_bottom (h : ∀ y, ¬ r x y) : Straight r x := by
  intro y hxy hcircle
  rcases hxy.cases_head with rfl | ⟨z, hz, -⟩
  · obtain ⟨z, hz, -⟩ := Relation.TransGen.head'_iff.1 hcircle
    exact h z hz
  · exact h z hz

end Edges

namespace Machine

variable {m m' : Machine} {block v w x y : Value} {n : Nat}

/-! ### Sender chains -/

/-- `y` is the sender of `x`, and neither is nil. -/
def SentBy (m : Machine) (x y : Value) : Prop :=
  m.memory.cell x Context.sender = some y ∧ x ≠ m.specials.nil ∧ y ≠ m.specials.nil

/-- `y` stands on the sender chain that starts at `x`. -/
def ChainHas (m : Machine) (x y : Value) : Prop :=
  y ≠ m.specials.nil ∧ Relation.ReflTransGen m.SentBy x y

/-- The sender chain that starts at `x` does not run in a circle. -/
def Acyclic (m : Machine) (x : Value) : Prop := Straight m.SentBy x

/-- A chain starts at `x`: it is the active context, or a process is suspended in it. -/
def ChainStart (m : Machine) (x : Value) : Prop :=
  x = m.registers.context ∨ ∃ p o, m.memory.get? p = some o ∧
    o.cls = m.specials.get m.memory Special.classProcess ∧
    o.pointers[Process.suspendedContext]? = some x

theorem not_sentBy_of_idle (h : m.memory.cell x Context.sender = some m.specials.nil) (y : Value) :
    ¬ m.SentBy x y := fun hy => hy.2.2 (Option.some.inj (hy.1.symm.trans h))

/-- A chain of one context. -/
theorem acyclic_of_idle (h : m.memory.cell x Context.sender = some m.specials.nil) : m.Acyclic x :=
  .of_bottom (not_sentBy_of_idle h)

/-- What becomes of the senders when a block below `n` arguments is entered. -/
structure Calls (m : Machine) (n : Nat) (block : Value) (m' : Machine) : Prop where
  stack : m.memory.cell m.registers.context (m.registers.sp - n) = some block
  idle : m.memory.cell block Context.caller = some m.specials.nil
  context : m'.registers.context = block
  specials : m'.specials = m.specials
  caller : m'.memory.cell block Context.caller = some m.registers.context
  other : ∀ w, w ≠ block → m'.memory.cell w Context.sender = m.memory.cell w Context.sender

/-- Nothing but fields behind the sender have been stored into. -/
structure KeepsSenders (m m' : Machine) : Prop where
  registers : m'.registers = m.registers
  specials : m'.specials = m.specials
  sender : ∀ w, m'.memory.cell w Context.sender = m.memory.cell w Context.sender

theorem KeepsSenders.setCell {m₁ : Machine} {i : Nat} (h : KeepsSenders m m₁) (hi : i ≠ Context.sender)
    (v x : Value) : KeepsSenders m (m₁.setCell v i x) := by
  refine ⟨h.registers, h.specials, fun w => ?_⟩
  rw [Recycling.cell_setCell, if_neg fun e => hi e.2.symm, h.sender]

/-- A block that is entered gets the active context as its caller. No other sender changes. -/
theorem blockValue_calls :
    Gives (Attempt.blockValue n) m fun _ m' => ∃ block, m.Calls n block m' := by
  refine .bind (gives_stackValue fun block _ hblock => ?_)
  refine .bind (Attempt.gives_lift (gives_isInstanceOf fun b _ => .bind (Attempt.gives_require ?_)))
  refine fun _ => .bind (Attempt.gives_looks (.lift Action.fetch_within) fun _ => ?_)
  refine .bind (Attempt.gives_looks .ofOption fun _ => .bind (Attempt.gives_require fun _ => ?_))
  refine .bind (Attempt.gives_lift (gives_fetch fun caller hcaller => ?_))
  refine .bind (Attempt.gives_lift (gives_nil (.bind (Attempt.gives_require fun hidle => ?_))))
  refine .bind (Attempt.gives_looks (.lift Action.object_within) fun _ => ?_)
  refine .bind (Attempt.gives_require fun _ => .bind (Attempt.gives_lift fun arguments _ hread => ?_))
  obtain ⟨rfl, -, -⟩ := Action.stackValues_ok hread
  refine .bind (Attempt.gives_looks (.lift Action.fetch_within) fun start => ?_)
  refine .bind (Attempt.gives_lift (gives_registers ?_))
  subst hidle
  have harguments : ∀ i, Context.frameStart + i ≠ Context.sender := fun i h => by
    simp only [Context.frameStart, Context.sender] at h
    omega
  refine .bind ((Gives.forM (P := KeepsSenders m) (fun p _ m₁ k => ?_) ⟨rfl, rfl, fun _ => rfl⟩).mono
    fun _ m₁ k => ?_)
  · exact Attempt.gives_lift (gives_store fun _ _ => k.setCell (harguments _) _ _)
  refine .bind (Attempt.gives_lift (gives_store fun _ _ => ?_))
  refine .bind (Attempt.gives_lift (gives_store fun _ _ => .bind (Attempt.gives_lift
    (gives_store fun y hy => ?_))))
  -- the arguments and the two pointers are in fields behind the caller, which is stored last
  have k := (k.setCell (i := Context.instructionPointer) (by decide) block start).setCell
    (i := Context.stackPointer) (by decide) block (.small n)
  generalize (m₁.setCell _ _ _).setCell _ _ _ = m₂ at k hy ⊢
  refine .bind (Attempt.gives_lift fun _ m₃ hpop => Attempt.gives_lift fun _ m₄ hactivate => ?_)
  obtain ⟨-, rfl⟩ := Action.popN_ok.1 hpop
  obtain ⟨-, r, rfl, hr, -⟩ := Action.activate_ok hactivate
  refine ⟨block, hblock, hcaller, hr, k.specials, ?_, fun w hw => ?_⟩
  · refine (Action.saved_of_keeps (by decide)).trans ?_
    change (m₂.setCell block Context.caller m.registers.context).memory.cell block Context.caller = _
    rw [Recycling.cell_setCell, if_pos ⟨rfl, rfl⟩, hy]
    rfl
  · refine (Action.saved_of_keeps (by decide)).trans ?_
    change (m₂.setCell block Context.caller m.registers.context).memory.cell w Context.sender = _
    rw [Recycling.cell_setCell, if_neg fun e => hw e.1, k.sender]

namespace Calls

/-- The senders afterwards. -/
theorem sentBy_iff (h : m.Calls n block m') : m'.SentBy x y ↔ m.SentBy x y ∨
    (x = block ∧ y = m.registers.context ∧ block ≠ m.specials.nil ∧
      m.registers.context ≠ m.specials.nil) := by
  rw [SentBy, h.specials]
  by_cases hx : x = block
  · subst hx
    rw [show Context.sender = Context.caller from rfl, h.caller, Option.some.injEq]
    constructor
    · rintro ⟨rfl, hx, hy⟩
      exact .inr ⟨rfl, rfl, hx, hy⟩
    · rintro (hy | ⟨-, rfl, hx, hy⟩)
      · exact absurd hy (not_sentBy_of_idle h.idle y)
      · exact ⟨rfl, hx, hy⟩
  · rw [h.other x hx]
    constructor
    · exact .inl
    · rintro (hy | ⟨rfl, -⟩)
      · exact hy
      · exact absurd rfl hx

theorem sentBy_eq (h : m.Calls n block m') (hblock : block ≠ m.specials.nil)
    (hcontext : m.registers.context ≠ m.specials.nil) :
    m'.SentBy = WithEdge m.SentBy block m.registers.context := by
  funext x y
  refine propext (h.sentBy_iff.trans ?_)
  simp only [WithEdge, and_iff_left (And.intro hblock hcontext)]

/-- A chain that has the block goes on with the active context and its senders. -/
theorem joins (h : m.Calls n block m') (hcontext : m.registers.context ≠ m.specials.nil)
    (hw : m.ChainHas w block) : m'.ChainHas w m.registers.context := by
  obtain ⟨hblock, hreach⟩ := hw
  rw [ChainHas, h.specials, h.sentBy_eq hblock hcontext]
  exact ⟨hcontext, (WithEdge.of_reach hreach).tail (.inr ⟨rfl, rfl⟩)⟩

/-- A chain runs in a circle exactly if it has the block, and the active chain has it, too. -/
theorem acyclic_iff (h : m.Calls n block m') (hw : m.Acyclic w) (hactive : m.Acyclic m.registers.context) :
    m'.Acyclic w ↔ ¬ (m.ChainHas w block ∧ m.ChainHas m.registers.context block) := by
  by_cases hnil : block ≠ m.specials.nil ∧ m.registers.context ≠ m.specials.nil
  · obtain ⟨hblock, hcontext⟩ := hnil
    rw [Acyclic, h.sentBy_eq hblock hcontext, hw.withEdge_iff hactive, ChainHas, ChainHas,
      and_iff_right hblock, and_iff_right hblock]
  · -- neither is a context then, and there is no new link
    have hsame : m'.SentBy = m.SentBy := by
      funext x y
      refine propext (h.sentBy_iff.trans (or_iff_left fun e => hnil e.2.2))
    rw [Acyclic, hsame]
    refine ⟨fun _ hboth => ?_, fun _ => hw⟩
    obtain ⟨hblock, hreach⟩ := hboth.2
    have hcontext : m.registers.context = m.specials.nil := by
      by_contra hne
      exact hnil ⟨hblock, hne⟩
    rcases hreach.cases_head with e | ⟨z, hz, -⟩
    · exact hblock (e ▸ hcontext)
    · exact hz.2.1 hcontext

end Calls

/-! ### Entering a block -/

/-- A block that was entered ended each chain that it stood on. A chain runs in a circle afterwards
exactly if it had the block while the active chain had it, too; the chain of the block itself runs in a
circle if the active chain had the block. A chain of another process that had the block has the active
context now. -/
theorem blockValue_reentry (hchains : ∀ w, m.ChainStart w → m.Acyclic w)
    (hrun : Attempt.blockValue n m = .ok () m') : ∃ block, m.Calls n block m' ∧
      (∀ y, ¬ m.SentBy block y) ∧
      (m'.Acyclic block ↔ ¬ m.ChainHas m.registers.context block) ∧
      ∀ w, m.ChainStart w →
        (m'.Acyclic w ↔ ¬ (m.ChainHas w block ∧ m.ChainHas m.registers.context block)) ∧
        (m.registers.context ≠ m.specials.nil → m.ChainHas w block →
          m'.ChainHas w m.registers.context) := by
  obtain ⟨block, hcalls⟩ := blockValue_calls () m' hrun
  have hactive := hchains _ (.inl rfl)
  refine ⟨block, hcalls, not_sentBy_of_idle hcalls.idle, ?_, fun w hw => ⟨?_, hcalls.joins⟩⟩
  · have hself : m.ChainHas m.registers.context block → m.ChainHas block block := fun h => ⟨h.1, .refl⟩
    rw [hcalls.acyclic_iff (acyclic_of_idle hcalls.idle) hactive]
    exact not_congr ⟨And.right, fun h => ⟨hself h, h⟩⟩
  · exact hcalls.acyclic_iff (hchains w hw) hactive

open Scheduling (place)

/-- A block without a caller is active and another process is suspended in a second one. Both stand on
the stack, so the stack pointer tells which of them is entered. -/
def carousel (sp : Nat) : Machine :=
  let pointers fields := Object.ofPointers (place 0) .indexable (List.toArray fields)
  ofObjects
    [pointers [],
      pointers (List.replicate 11 (place 0) ++ [place 2] ++ List.replicate 15 (place 0) ++ [place 3]),
      pointers [], pointers [], .ofMethod (place 0) #[.small 0] #[120], stillContext 0 [place 4],
      stillContext 2 [.small 0, .small 5, place 5, place 6, place 7],
      stillContext 2 [.small 0, .small 5, place 5],
      .ofPointers (place 3) .fixed #[place 0, place 7, .small 1, place 0]] 6 5 4 sp

theorem chainStart_carousel {sp : Nat} (h : (carousel sp).ChainStart w) : w = place 6 ∨ w = place 7 := by
  have htabled : (carousel 0).memory.Tabled :=
    (wellFormed_filled (Memory.wellFormed_empty _) (by decide +kernel)).toTabled
  have hall : ∀ p ∈ (carousel 0).memory.table.toList, ∀ o ∈ ((carousel 0).memory.get? p).toList,
      o.cls = (carousel 0).specials.get (carousel 0).memory Special.classProcess →
        ∀ x ∈ o.pointers[Process.suspendedContext]?, x = place 7 := by
    decide +kernel
  rcases h with rfl | ⟨p, o, ho, hcls, hx⟩
  · exact .inl rfl
  · change (carousel 0).memory.get? p = some o at ho
    exact .inr (htabled.of_table hall ho hcls w hx)

theorem acyclic_carousel {sp : Nat} (h : (carousel sp).ChainStart w) : (carousel sp).Acyclic w := by
  have hidle : ∀ w ∈ [place 6, place 7],
      (carousel 0).memory.cell w Context.sender = some (carousel 0).specials.nil := by
    decide +kernel
  refine acyclic_of_idle (hidle w ?_)
  rcases chainStart_carousel h with rfl | rfl
  · exact List.mem_cons_self
  · exact List.mem_cons_of_mem _ List.mem_cons_self

/-- The active block is entered again, and its chain runs in a circle. The other process' block is
entered from the active one, and then the chains of the two processes meet. -/
theorem blockValue_reentry_carousel :
    (∀ sp w, (carousel sp).ChainStart w → (carousel sp).Acyclic w) ∧
    (∃ m', Attempt.blockValue 0 (carousel 6) = .ok () m' ∧ ¬ m'.Acyclic (place 6)) ∧
    ∃ m', Attempt.blockValue 0 (carousel 7) = .ok () m' ∧ m'.ChainHas (place 7) (place 6) := by
  have hchains : ∀ sp w, (carousel sp).ChainStart w → (carousel sp).Acyclic w :=
    fun _ _ => acyclic_carousel
  have hruns : ∀ sp ∈ [6, 7], (Attempt.blockValue 0 (carousel sp) matches .ok ..) = true := by
    decide +kernel
  have hrun : ∀ sp ∈ [6, 7], ∃ m', Attempt.blockValue 0 (carousel sp) = .ok () m' := by
    intro sp hsp
    have hends := hruns sp hsp
    cases h : Attempt.blockValue 0 (carousel sp) with
    | ok _ m' => exact ⟨m', rfl⟩
    | error e m' => rw [h] at hends; cases hends
  refine ⟨hchains, ?_, ?_⟩
  · obtain ⟨m', hm'⟩ := hrun 6 (by decide)
    obtain ⟨block, hcalls, -, hcircle, -⟩ := blockValue_reentry (hchains 6) hm'
    obtain rfl : place 6 = block := by
      have hcell : (carousel 6).memory.cell (place 6) 6 = some (place 6) := by decide +kernel
      exact Option.some.inj (hcell.symm.trans hcalls.stack)
    exact ⟨m', hm', fun h => hcircle.1 h ⟨by decide, .refl⟩⟩
  · obtain ⟨m', hm'⟩ := hrun 7 (by decide)
    obtain ⟨block, hcalls, -, -, hothers⟩ := blockValue_reentry (hchains 7) hm'
    obtain rfl : place 7 = block := by
      have hcell : (carousel 7).memory.cell (place 6) 7 = some (place 7) := by decide +kernel
      exact Option.some.inj (hcell.symm.trans hcalls.stack)
    have hstart : (carousel 7).ChainStart (place 7) := by
      have hprocess : ((carousel 7).memory.get? (place 8)).map (fun o =>
          (o.cls, o.pointers[Process.suspendedContext]?)) = some (place 3, some (place 7)) := by
        decide +kernel
      have hspecial : (carousel 7).specials.get (carousel 7).memory Special.classProcess = place 3 := by
        decide +kernel
      obtain ⟨o, ho, hfields⟩ := Option.map_eq_some_iff.1 hprocess
      obtain ⟨hcls, hx⟩ := Prod.mk.inj hfields
      exact .inr ⟨place 8, o, ho, hcls.trans hspecial.symm, hx⟩
    exact ⟨m', hm', (hothers _ hstart).2 (by decide) ⟨by decide, .refl⟩⟩

end Machine

end Smalltalk
