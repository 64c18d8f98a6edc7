import Smalltalk.Proofs.Guests

/-!
# What enumeration shows

Enumeration answers whatever the table lists, and the table lists all contexts: those that are free,
and those that are counted and will be free when they return, whoever has got hold of them by then. An
answer that is neither is safe. It never becomes free, not even when the context it refers to returns,
as long as nothing but the machine stores into contexts: by what it does between two contexts, or by the
steps of a guest that leaves them alone.
-/

namespace Smalltalk.Lineup

open Outcome Machine Recycling

variable {K : Kinds} {U : Line} {m m' m'' m₀ m₁ m₂ : Machine} {v x : Value} {n : Nat}

/-! ### Turns -/

/-- What a machine does between two contexts, or without leaving the one it is in; or a whole step of a
guest that stores into no context. -/
inductive Turn (K : Kinds) (m : Machine) : Machine → Prop
  /-- A method is entered. -/
  | enter {receiver method : Value} {n : Nat} {m' : Machine}
      (entered : Action.enterMethod receiver method n m = .ok () m')
      (room : m'.memory.slots.size ≤ 0x100000000)
      (apart : m'.registers.context ≠ m'.specials.array) : Turn K m m'
  /-- A block is entered. -/
  | block {n : Nat} {m' : Machine} (entered : Attempt.blockValue n m = .ok () m')
      (apart : m'.registers.context ≠ m'.specials.array) : Turn K m m'
  /-- A method or a block returns. -/
  | leave {answer target : Value} {m' : Machine}
      (returned : Action.returnTo answer target m = .ok () m')
      (apart : m'.registers.context ≠ m'.specials.array) : Turn K m m'
  /-- Another process goes on, where the scheduler and the two processes are no contexts. -/
  | switch {process : Value} {m' : Machine}
      (plain : ∀ w, Action.scheduler m = .ok w m ∨ Action.activeProcess m = .ok w m ∨ w = process →
        ¬ IsContext K m w ∧ w ≠ m.specials.array)
      (transferred : Action.transferTo process m = .ok () m')
      (apart : m'.registers.context ≠ m'.specials.array) : Turn K m m'
  /-- The count starts anew, as a context was handed out. -/
  | reset : Turn K m { m with reclaimable := 0 }
  /-- Room is made. -/
  | spare {m' : Machine} (spared : m.Spares m') : Turn K m m'
  /-- Time goes by. -/
  | elapse {m' : Machine} (elapsed : m.Elapses m') : Turn K m m'
  /-- Whatever else is done leaves contexts alone. -/
  | rest {m' : Machine} (rests : Rests K m m') : Turn K m m'
  /-- An instruction is carried out. -/
  | step {role : Value → Role} {m' : Machine} (staffed : Staffed K role m)
      (abstains : Abstains K role m) (stepped : Action.step m = .ok () m')
      (room : m'.memory.slots.size ≤ 0x100000000)
      (apart : m'.registers.context ≠ m'.specials.array) : Turn K m m'

/-- A turn keeps the line, and what is clear stays so. -/
theorem Turn.keeps (h : Lined K U m) (turn : Turn K m m') : Keeps K U m m' := by
  cases turn with
  | enter entered room apart => exact h.enterMethod () m' entered room apart
  | block entered apart => exact h.blockValue () m' entered apart
  | leave returned apart =>
    obtain ⟨U', -, -, -, hlined, hclears⟩ := h.returnTo () m' returned apart
    exact ⟨U', hlined, hclears⟩
  | switch plain transferred apart =>
    exact h.transferTo (fun w hw _ => plain w hw) () m' transferred apart
  | reset => exact h.reset.keeps
  | spare spared => exact (h.spares spared).keeps
  | elapse elapsed =>
    obtain ⟨clock, interrupts, devices, rfl⟩ := elapsed
    exact ⟨U, h.alike _ rfl rfl rfl rfl rfl rfl⟩
  | rest rests => exact ⟨U, h.rests rests⟩
  | step staffed abstains stepped room apart =>
    exact (abstains.step () m' stepped).keeps room apart U h staffed

/-- Turns one after the other. -/
abbrev Turns (K : Kinds) : Machine → Machine → Prop := Relation.ReflTransGen (Turn K)

theorem Turns.keeps (h : Lined K U m) (turns : Turns K m m') : Keeps K U m m' := by
  induction turns with
  | refl => exact ⟨U, h, fun _ hx => hx⟩
  | tail _ turn ih =>
    obtain ⟨U', hlined, hclears⟩ := ih
    exact .after hclears (turn.keeps hlined)

/-- A machine at its start: no context is counted, and none is free. -/
structure Outset (K : Kinds) (m : Machine) : Prop extends Grounded K m where
  pool : ∀ large, m.pool.head large = none
  reclaimable : m.reclaimable = 0
  context : m.registers.context ≠ K.nil ∧ m.registers.context ≠ m.specials.array

theorem Outset.lined (h : Outset K m) : Lined K ⟨[], m.registers.context, fun _ => []⟩ m where
  toGrounded := h.toGrounded
  lists := ⟨h.pool, fun _ => trivial, fun _ => List.not_mem_nil⟩
  strung := trivial
  base := h.context.1
  count := h.reclaimable.symm
  once := List.nodup_nil
  kind _ hx := absurd hx List.not_mem_nil
  idle _ _ hx := absurd hx List.not_mem_nil
  top _ := List.not_mem_nil
  context := rfl
  apart := h.context.2

/-! ### Sightings -/

/-- The primitives that enumerate objects. -/
def enumerators : List PrimitiveAction :=
  [Primitive.someInstance, Primitive.nextInstance, Primitive.someObject, Primitive.nextObject]

/-- A value is answered by an enumeration: a live object, or nil or zero when there is none. -/
structure Sighted (m : Machine) (x : Value) (m' : Machine) : Prop where
  seen : m.memory.isLive x = true ∨ x = m.specials.nil ∨ x = .small 0
  ends : ∃ hint, m' = Action.pushed (Action.popped { m with memory := { m.memory with hint } } 1) x
  top : m'.memory.cell m'.registers.context m'.registers.sp = some x

/-- A query moves the position hint only, and finds live objects. -/
theorem gives_query {f : Memory → Option Value × Memory} {Q : Option Value → Machine → Prop}
    (hf : Primitive.Found m.memory (f m.memory))
    (hQ : ∀ found hint, (∀ v, found = some v → m.memory.isLive v = true) →
      Q found { m with memory := { m.memory with hint } }) : Gives (Action.query f) m Q := by
  intro found m' hrun
  obtain ⟨⟨hint, hmemory⟩, hlive⟩ := hf
  simp only [Action.query, EStateM.Result.ok.injEq] at hrun
  obtain ⟨rfl, rfl⟩ := hrun
  rw [hmemory]
  exact hQ _ hint hlive

/-- The answer takes the place of the receiver. -/
theorem gives_answer {hint : Nat}
    (seen : m.memory.isLive x = true ∨ x = m.specials.nil ∨ x = .small 0) :
    Gives (Attempt.answer 0 x) { m with memory := { m.memory with hint } } fun _ m' =>
      ∃ x, Sighted m x m' := by
  refine .bind (Attempt.gives_lift fun _ m' hpush => .pure ⟨x, seen, ?_, ?_⟩)
  · obtain ⟨-, -, rfl⟩ := Action.popThenPush_ok.1 hpush
    exact ⟨hint, rfl⟩
  · obtain ⟨-, ⟨y, hroom⟩, rfl⟩ := Action.popThenPush_ok.1 hpush
    refine (Recycling.cell_setCell ..).trans ?_
    rw [if_pos ⟨rfl, rfl⟩]
    exact congrArg (Option.map fun _ => x) hroom

/-- Each enumerator answers what it has seen. -/
theorem enumerators_sight {p : PrimitiveAction} (hp : p ∈ enumerators) :
    Gives (p n) m fun _ m' => ∃ x, Sighted m x m' := by
  have seen : ∀ {found : Option Value} {none : Value},
      (∀ v, found = some v → m.memory.isLive v = true) → none = m.specials.nil ∨ none = .small 0 →
      m.memory.isLive (found.getD none) = true ∨ found.getD none = m.specials.nil ∨
        found.getD none = .small 0 := by
    intro found none hlive hnone
    cases found with
    | none => exact .inr hnone
    | some v => exact .inl (hlive v rfl)
  have look : ∀ {f : Memory → Option Value × Memory}, Primitive.Found m.memory (f m.memory) →
      Gives (do
        let found ← (Action.query f : Attempt (Option Value))
        Attempt.answer 0 (found.getD (← Action.nil))) m fun _ m' => ∃ x, Sighted m x m' := by
    intro f hf
    refine .bind (Attempt.gives_lift (gives_query hf fun found hint hlive => ?_))
    exact .bind (Attempt.gives_lift (gives_nil (gives_answer (seen hlive (.inl rfl)))))
  simp only [enumerators, List.mem_cons, List.not_mem_nil, or_false] at hp
  rcases hp with rfl | rfl | rfl | rfl
  · exact .bind (Attempt.gives_looks Attempt.stackObject_stays fun cls =>
      look (f := fun memory => memory.firstInstance cls) (Primitive.enumerate_found ..))
  · exact .bind (Attempt.gives_looks Attempt.stackObject_stays fun after =>
      look (f := fun memory => memory.nextInstance after) (Primitive.nextInstance_found ..))
  · exact look (Primitive.enumerate_found ..)
  · refine .bind (Attempt.gives_looks Attempt.stackObject_stays fun after => ?_)
    refine .bind (Attempt.gives_lift (gives_query (Primitive.follow_found _ after none)
      fun found hint hlive => ?_))
    exact gives_answer (seen hlive (.inr rfl))

theorem later_pushed (m : Machine) (x : Value) : m.memory.Later (Action.pushed m x).memory := by
  have s : Stores m (m.setCell m.registers.context (m.registers.sp + 1) x) := .setCell
  exact s.later

/-- An answer keeps the line, and it has been given out. -/
theorem Sighted.lined (h : Lined K U m) (sighted : Sighted m x m') :
    Lined K U m' ∧ m'.memory.Issued x := by
  obtain ⟨hint, rfl⟩ := sighted.ends
  obtain ⟨h₁, -⟩ := h.alike (Action.popped { m with memory := { m.memory with hint } } 1)
    rfl rfl rfl rfl rfl rfl
  obtain ⟨h₂, -⟩ := h₁.pushed (x := x)
  have hhint : m.memory.Later { m.memory with hint } := .of_slots rfl
  have hpush := later_pushed (Action.popped { m with memory := { m.memory with hint } } 1) x
  refine ⟨h₂, (hhint.trans hpush).issued ?_⟩
  rcases sighted.seen with live | rfl | rfl
  · exact Memory.issued_of_isLive live
  · exact h.nil ▸ h.known
  · trivial

/-! ### What becomes of an answer -/

/-- The free contexts, the counted ones, which are the first of the sender chain, and what a return
makes free: the counted contexts that it leaves and that are fit for the pool, whoever refers to
them. -/
structure Surveyed (K : Kinds) (m : Machine) (free : Bool → List Value) (counted : List Value) :
    Prop where
  lists : FreeLists m free
  chain : ∃ base, counted.head?.getD base = m.registers.context ∧ Strung m.memory.cell base counted
  count : counted.length = m.reclaimable
  leave : ∀ answer target m', Action.returnTo answer target m = .ok () m' →
    m'.registers.context ≠ m'.specials.array →
      ∃ free' path, FreeLists m' free' ∧ Way m m' path ∧ ∀ large x, x ∈ free' large ↔
        x ∈ free large ∨ x ∈ path ∧ x ∈ counted ∧
          ContextPool.chainOf? m.memory x K.method = some large

theorem Lined.surveyed (h : Lined K U m) : Surveyed K m U.free U.counted where
  lists := h.lists
  chain := ⟨U.base, h.context.symm, h.strung⟩
  count := h.count
  leave answer target m' hrun apart := by
    obtain ⟨U', path, way, leaves, hlined, -⟩ := h.returnTo () m' hrun apart
    exact ⟨U'.free, path, hlined.lists, way, leaves.free⟩

/-- What an enumeration answers may be free, or it may be a method context that is counted. If it is
neither, it never becomes free. -/
theorem sighted_stays_out {p : PrimitiveAction} (start : Outset K m₀) (before : Turns K m₀ m)
    (hp : p ∈ enumerators) (ran : p n m = .ok .done m₁) :
    ∃ x free counted, Sighted m x m₁ ∧ Surveyed K m₁ free counted ∧
      ((∃ large, x ∈ free large) ∨ (x ∈ counted ∧ cls m₁ x = some K.method) ∨
        ∀ m₂, Turns K m₁ m₂ → ∃ free counted, Surveyed K m₂ free counted ∧
          ∀ large, x ∉ free large) := by
  obtain ⟨x, sighted⟩ := enumerators_sight hp _ _ ran
  obtain ⟨U, h, -⟩ := before.keeps start.lined
  obtain ⟨h₁, issued⟩ := sighted.lined h
  refine ⟨x, U.free, U.counted, sighted, h₁.surveyed, ?_⟩
  by_cases hfree : ∃ large, x ∈ U.free large
  · exact .inl hfree
  by_cases hcounted : x ∈ U.counted ∧ cls m₁ x = some K.method
  · exact .inr (.inl hcounted)
  have clear : Clear K U m₁ x := ⟨issued, fun large hx => hfree ⟨large, hx⟩, fun hx =>
    (h₁.kind x hx).resolve_left fun e => hcounted ⟨hx, e⟩⟩
  refine .inr (.inr fun m₂ turns => ?_)
  obtain ⟨U₂, h₂, hclears⟩ := turns.keeps h₁
  exact ⟨U₂.free, U₂.counted, h₂.surveyed, (hclears x clear).free⟩

theorem stair_reference : (.ref 0 0 : Value).isReference = true := rfl

theorem stair_classes : (.ref 2 0 : Value) ≠ .ref 3 0 := by decide

/-- Nil and the two classes of contexts of the stair. -/
def stairKinds : Kinds where
  nil := .ref 0 0
  method := .ref 2 0
  block := .ref 3 0
  reference := stair_reference
  distinct := stair_classes

theorem outset_stair : Outset stairKinds stair where
  nil := rfl
  method := by decide +kernel
  block := by decide +kernel
  bare := start_stair.bare
  known := Memory.issued_of_isLive (by decide +kernel)
  stocked := wellFormed_stair.toStocked
  pool large := by cases large <;> rfl
  reclaimable := rfl
  context := by decide

/-- The stair with a method that pushes its context. -/
def gallery : Machine := stair.modified (.ref 4 0) fun o => { o with body := .bytes #[137] }

theorem wellFormed_gallery : gallery.memory.WellFormed :=
  wellFormed_modify wellFormed_stair (.ref 4 0) fun o => { o with body := .bytes #[137] }

/-- Only the array of special objects is not taken for a context. -/
def galleryRole (v : Value) : Role := if v = .ref 1 0 then .array else .context

theorem staffed_gallery : Staffed stairKinds galleryRole gallery where
  array := by decide
  context := by decide
  plain v hv := by
    have hv : v = .ref 1 0 := by
      by_contra hne
      exact hv (if_neg hne)
    subst hv
    have hcls : cls gallery (.ref 1 0) = some (.ref 0 0) := by decide +kernel
    exact ⟨Memory.issued_of_isLive (by decide +kernel), by rw [IsContext, hcls]; decide⟩
  fits w i x r hw hx hr := by
    have hcheck : ∀ w ∈ gallery.memory.table.toList, ∀ o ∈ (gallery.memory.get? w).toList,
        ∀ p ∈ o.pointers.toList.zipIdx, galleryRole w ≠ .context →
          ∀ r ∈ (galleryRole w).field p.2, Allowed stairKinds galleryRole r p.1 := by
      simp only [Allowed]
      decide +kernel
    exact forall_cell (P := fun w i x => galleryRole w ≠ .context →
      ∀ r ∈ (galleryRole w).field i, Allowed stairKinds galleryRole r x)
      wellFormed_gallery.toTabled hcheck hx hw r hr

theorem abstains_gallery : Abstains stairKinds galleryRole gallery := by
  intro instruction m₁ hfetch
  have hleads : Action.fetchInstruction.leads gallery
      (fun instruction _ => decide (instruction = .pushContext)) = true := by decide +kernel
  obtain ⟨found, _, hrun, htest⟩ := Action.exists_of_leads hleads
  rw [hrun] at hfetch
  obtain ⟨rfl, rfl⟩ := EStateM.Result.ok.inj hfetch
  obtain rfl := of_decide_eq_true htest
  exact ⟨fun _ h => by simp at h, fun h => by simp at h, fun a sends => by cases sends⟩

/-- A guest may get hold of its context. -/
theorem turn_gallery : ∃ m', Action.step gallery = .ok () m' ∧ Turn stairKinds gallery m' :=
  have hstep : Action.step gallery = .ok () (landing Action.step gallery) :=
    ok_landing (by decide +kernel)
  ⟨_, hstep, .step staffed_gallery abstains_gallery hstep (by decide +kernel) (by decide +kernel)⟩

/-- The machine in a method that has been entered. -/
def upstair : Machine := landing (Action.enterMethod (.small 7) (.ref 4 0) 0) stair

/-- The machine back in the first context, which is on top of its own stack. -/
def downstair : Machine := landing (Action.returnTo (.ref 5 0) (.ref 5 0)) upstair

theorem turns_stair : Turns stairKinds stair downstair := by
  have up : Turn stairKinds stair upstair :=
    .enter (ok_landing (by decide +kernel)) (by decide +kernel) (by decide +kernel)
  have down : Turn stairKinds upstair downstair :=
    .leave (ok_landing (by decide +kernel)) (by decide +kernel)
  exact .tail (.single up) down

theorem nextInstance_downstair : ∃ m₁, Primitive.nextInstance 0 downstair = .ok .done m₁ ∧
    m₁.memory.cell m₁.registers.context m₁.registers.sp = some (.ref 6 0) ∧
    m₁.pool.small = some (.ref 6 0) := by
  have hleads : (Primitive.nextInstance 0).leads downstair (fun c m₁ => decide (c = .done ∧
      m₁.memory.cell m₁.registers.context m₁.registers.sp = some (.ref 6 0) ∧
      m₁.pool.small = some (.ref 6 0))) = true := by
    decide +kernel
  obtain ⟨_, m₁, hrun, htest⟩ := Attempt.exists_of_leads hleads
  obtain ⟨rfl, hcell, hpool⟩ := of_decide_eq_true htest
  exact ⟨m₁, hrun, hcell, hpool⟩

/-- The context of the method is free, and it is the next instance of its class. -/
theorem sighted_stays_out_stair : Outset stairKinds stair ∧ Turns stairKinds stair downstair ∧
    ∃ m₁, Primitive.nextInstance 0 downstair = .ok .done m₁ ∧ ∃ free counted,
      Sighted downstair (.ref 6 0) m₁ ∧ Surveyed stairKinds m₁ free counted ∧
        .ref 6 0 ∈ free false := by
  obtain ⟨m₁, hrun, htop, hpool⟩ := nextInstance_downstair
  obtain ⟨x, free, counted, sighted, surveyed, -⟩ :=
    sighted_stays_out outset_stair turns_stair (by simp [enumerators]) hrun
  obtain rfl := Option.some.inj (sighted.top.symm.trans htop)
  have hhead : (free false).head? = some (.ref 6 0) := (surveyed.lists.head false).symm.trans hpool
  exact ⟨outset_stair, turns_stair, m₁, hrun, free, counted, sighted, surveyed,
    List.mem_of_head? hhead⟩

end Smalltalk.Lineup
