import Smalltalk.Proofs.Roles

/-!
# What the scheduler keeps

The scheduler moves processes between lists. It follows fields from the special objects on to the
lists and the processes, it stores processes into lists and lists into processes, and now and then it
switches to another process. So whatever is kept by such stores and by switches is kept by a signal, a
wait and a look at the clock, as long as the fields lead to what the scheduler takes them for.
-/

namespace Smalltalk.Recycling

open Outcome Machine

/-- What the scheduler stores: what the field is meant for, and nothing but integers, lists and
processes. -/
structure Lodges (allows : Role → Value → Prop) (r : Role) (i : Nat) (x : Value) : Prop where
  field : ∀ r', r.field i = some r' → allows r' x
  plain : (∃ n, x = .small n) ∨ allows .list x ∨ allows .process x

/-- The machines of a kind lead the scheduler from field to field, and they stay of their kind when it
stores something and when it switches to another process. -/
structure Attends (nil : Value) (allows : Role → Value → Prop) (I : Machine → Prop) : Prop where
  allows_nil : ∀ r, allows r nil
  nil_eq : ∀ {m}, I m → m.specials.nil = nil
  special : ∀ {m i r}, I m → Role.array.field i = some r → allows r (m.specials.get m.memory i)
  follow : ∀ {m w i x r r'}, I m → r ≠ .context → allows r w → r.field i = some r' →
    m.memory.cell w i = some x → allows r' x
  store : ∀ {m v i x y r}, I m → r = .list ∨ r = .process → allows r v →
    m.memory.cell v i = some y → Lodges allows r i x → I (m.setCell v i x)
  transferTo : ∀ {m process}, I m → allows .process process →
    Gives (Action.transferTo process) m fun _ m' => I m'
  interrupts : ∀ {m} (i : Interrupts), I m → I { m with interrupts := i }

theorem gives_isEmptyList {m : Machine} {list : Value} {Q : Bool → Machine → Prop}
    (hQ : ∀ b, Q b m) : Gives (Action.isEmptyList list) m Q :=
  .bind (Machine.gives_fetch fun _ _ => .bind (gives_nil (.pure (hQ _))))

variable {nil : Value} {allows : Role → Value → Prop} {I : Machine → Prop} {m m' : Machine}
  {r r' : Role} {v w x process list lists : Value} {i k : Nat}

/-- A process where a process is meant. -/
theorem Lodges.of_process (hr : r.field i = some .process) (hx : allows .process x) :
    Lodges allows r i x := ⟨fun _ h => Option.some.inj (hr.symm.trans h) ▸ hx, .inr (.inr hx)⟩

/-- A list where nothing particular is meant. -/
theorem Lodges.of_list (hr : r.field i = none) (hx : allows .list x) : Lodges allows r i x :=
  ⟨fun _ h => (nomatch hr.symm.trans h), .inr (.inl hx)⟩

/-- An integer where nothing particular is meant. -/
theorem Lodges.of_small {n : Int} (hr : r.field i = none) : Lodges allows r i (.small n) :=
  ⟨fun _ h => (nomatch hr.symm.trans h), .inl ⟨n, rfl⟩⟩

namespace Attends

variable (A : Attends nil allows I) (h : I m)

include A

theorem lodges_nil : Lodges allows r i nil :=
  ⟨fun r' _ => A.allows_nil r', .inr (.inl (A.allows_nil _))⟩

include h

theorem gives_fetch {Q : Value → Machine → Prop} (hne : r ≠ .context) (hw : allows r w)
    (hr : r.field i = some r') (hQ : ∀ x, allows r' x → Q x m) : Gives (Action.fetch w i) m Q :=
  Machine.gives_fetch fun x hx => hQ x (A.follow h hne hw hr hx)

theorem gives_store {Q : Unit → Machine → Prop} (hv : allows r v) (hr : r = .list ∨ r = .process)
    (hx : Lodges allows r i x) (hQ : I (m.setCell v i x) → Q () (m.setCell v i x)) :
    Gives (Action.store v i x) m Q :=
  Machine.gives_store fun _ hy => hQ (A.store h hr hv hy hx)

theorem gives_scheduler {Q : Value → Machine → Prop} (hQ : ∀ x, allows .scheduler x → Q x m) :
    Gives Action.scheduler m Q :=
  .bind (gives_special (A.gives_fetch h (by decide) (A.special h rfl) rfl hQ))

theorem gives_activeProcess {Q : Value → Machine → Prop} (hQ : ∀ x, allows .process x → Q x m) :
    Gives Action.activeProcess m Q :=
  .bind (A.gives_scheduler h fun _ hs => A.gives_fetch h (by decide) hs rfl hQ)

/-! ### Lists of processes -/

theorem linkLast (hp : allows .process process) (hl : allows .list list) :
    Gives (Action.linkLast process list) m fun _ m' => I m' := by
  -- whichever field comes first, the last field of the list and the process itself follow
  have rest : ∀ {m₁}, I m₁ → Gives (do
      Action.store list ProcessList.last process
      Action.store process Process.myList list) m₁ fun _ m' => I m' := fun h₁ =>
    .bind (A.gives_store h₁ hl (.inl rfl) (.of_process rfl hp) fun h₂ =>
      A.gives_store h₂ hp (.inr rfl) (.of_list rfl hl) id)
  refine .bind (gives_isEmptyList fun b => ?_)
  cases b with
  | true => exact .bind (A.gives_store h hl (.inl rfl) (.of_process rfl hp) rest)
  | false =>
    refine .bind (A.gives_fetch h (by decide) hl rfl fun last hlast => ?_)
    exact .bind (A.gives_store h hlast (.inr rfl) (.of_process rfl hp) rest)

theorem unlinkFirst (hl : allows .list list) :
    Gives (Action.unlinkFirst list) m fun v m' => I m' ∧ allows .process v := by
  refine .bind (gives_nil ?_)
  rw [A.nil_eq h]
  refine .bind (A.gives_fetch h (by decide) hl rfl fun first hfirst => ?_)
  refine .bind (A.gives_fetch h (by decide) hl rfl fun last hlast => ?_)
  have rest : ∀ {m₁}, I m₁ → Gives (do
      Action.store first Process.next nil
      return first) m₁ fun v m' => I m' ∧ allows .process v := fun h₁ =>
    .bind (A.gives_store h₁ hfirst (.inr rfl) A.lodges_nil fun h₂ => .pure ⟨h₂, hfirst⟩)
  refine .ite (fun _ => ?_) fun _ => ?_
  · refine .bind (A.gives_store h hl (.inl rfl) A.lodges_nil fun h₁ => ?_)
    exact .bind (A.gives_store h₁ hl (.inl rfl) A.lodges_nil rest)
  · refine .bind (A.gives_fetch h (by decide) hfirst rfl fun next hnext => ?_)
    exact .bind (A.gives_store h hl (.inl rfl) (.of_process rfl hnext) rest)

theorem makeReady (hp : allows .process process) :
    Gives (Action.makeReady process) m fun _ m' => I m' := by
  refine .bind (A.gives_scheduler h fun scheduler hs => ?_)
  refine .bind (A.gives_fetch h (by decide) hs rfl fun lists hlists => ?_)
  refine .bind (gives_fetchInt fun priority => ?_)
  refine .ite (fun _ => .bind .throw) fun _ => ?_
  exact .bind (A.gives_fetch h (by decide) hlists rfl fun list hl => A.linkLast h hp hl)

theorem unlinkHighest (hl : allows .table lists) :
    Gives (Action.unlinkHighest lists k) m fun v m' => I m' ∧ allows .process v := by
  induction k with
  | zero => exact .throw
  | succ k ih =>
    refine .bind (A.gives_fetch h (by decide) hl rfl fun list hlist => ?_)
    refine .bind (gives_isEmptyList fun b => ?_)
    cases b with
    | true => exact ih
    | false => exact A.unlinkFirst h hlist

theorem pickTop : Gives Action.pickTop m fun v m' => I m' ∧ allows .process v :=
  .bind (A.gives_scheduler h fun _ hs => .bind (A.gives_fetch h (by decide) hs rfl fun _ hl =>
    .bind (gives_object fun _ _ => A.unlinkHighest h hl)))

/-! ### Signals -/

theorem resume (hp : allows .process process) :
    Gives (Action.resume process) m fun _ m' => I m' := by
  refine .bind (A.gives_activeProcess h fun active hactive => ?_)
  refine .bind (gives_fetchInt fun wanted => .bind (gives_fetchInt fun current => ?_))
  refine .ite (fun _ => ?_) fun _ => A.makeReady h hp
  exact .bind ((A.makeReady h hactive).mono fun _ _ h₁ => A.transferTo h₁ hp)

theorem signal (hl : allows .list list) : Gives (Action.signal list) m fun _ m' => I m' := by
  refine .bind (gives_isEmptyList fun b => ?_)
  cases b with
  | true =>
    refine .bind (gives_fetchInt fun _ => .bind (gives_immediate ?_))
    exact A.gives_store h hl (.inl rfl) (.of_small rfl) id
  | false => exact .bind ((A.unlinkFirst h hl).mono fun _ _ h₁ => A.resume h₁.1 h₁.2)

theorem suspendActive : Gives Action.suspendActive m fun _ m' => I m' :=
  .bind ((A.pickTop h).mono fun _ _ h₁ => A.transferTo h₁.1 h₁.2)

theorem wait (hl : allows .list list) : Gives (Action.wait list) m fun _ m' => I m' := by
  refine .bind (gives_fetchInt fun _ => .ite (fun _ => ?_) fun _ => ?_)
  · exact A.gives_store h hl (.inl rfl) (.of_small rfl) id
  · refine .bind (A.gives_activeProcess h fun active hactive => ?_)
    exact .bind ((A.linkLast h hactive hl).mono fun _ _ h₁ => A.suspendActive h₁)

/-- A look at the clock signals special semaphores. -/
theorem checkInterrupts : Gives Action.checkInterrupts m fun _ m' => I m' := by
  refine checkInterrupts_keeps A.interrupts (fun i hi hm => ?_) h
  have hfield : Role.array.field i = some .list := by
    rw [Role.field, if_neg, if_pos hi]
    rintro rfl
    exact absurd hi (by decide)
  refine .bind (gives_special (.bind (gives_nil ?_)))
  exact .ite (fun _ => A.signal hm (A.special hm hfield)) fun _ => .pure hm

end Attends

end Smalltalk.Recycling
