import Smalltalk.Proofs.Resends
import Smalltalk.Proofs.Staffing

/-!
# Guests that leave contexts alone

A guest gets at contexts through `thisContext`, through blocks and through enumeration, and nothing
keeps it from storing into them. As long as it does not, and as long as it signals semaphores, waits for
semaphores and resumes processes and nothing else, each instruction keeps the line: whatever it stores
into is neither a context nor the array of special objects, and the primitives that its sends come to
try do not either.
-/

namespace Smalltalk.Lineup

open Outcome Machine Recycling

variable {K : Kinds} {role : Value → Role} {U : Line} {m m' m₁ : Machine} {t : Option Value}
  {v x : Value} {i n number : Nat} {a : Sending}

/-- Neither a context nor the array of special objects. -/
def Plain (K : Kinds) (m : Machine) (v : Value) : Prop := ¬ IsContext K m v ∧ v ≠ m.specials.array

/-- The line is kept, if the machine is not left in the array of special objects. -/
structure Carries (K : Kinds) (role : Value → Role) (m m' : Machine) : Prop where
  size : m.memory.slots.size ≤ m'.memory.slots.size
  keeps : m'.memory.slots.size ≤ 0x100000000 → m'.registers.context ≠ m'.specials.array →
    ∀ U, Lined K U m → Staffed K role m → Keeps K U m m'

theorem Upholds.carries (h : Upholds K role m m') : Carries K role m m' :=
  ⟨h.size, fun room _ U hU s => (h.keeps room U hU s).1⟩

theorem Upholds.before (h : Upholds K role m m₁) (h' : Carries K role m₁ m') : Carries K role m m' := by
  refine ⟨Nat.le_trans h.size h'.size, fun room apart U hU s => ?_⟩
  obtain ⟨⟨U₁, h₁, hclears⟩, s₁⟩ := h.keeps (Nat.le_trans h'.size room) U hU s
  exact .after hclears (h'.keeps room apart U₁ h₁ s₁)

/-! ### Answers -/

/-- An answer is put in the place of the receiver and its arguments. -/
theorem Keeps.popThenPush {u : Unit} (h : Keeps K U m m₁)
    (hrun : Action.popThenPush n x m₁ = .ok u m') : Keeps K U m m' := by
  obtain ⟨U₁, h₁, hclears⟩ := h
  obtain ⟨-, -, rfl⟩ := Action.popThenPush_ok.1 hrun
  obtain ⟨h₂, hclears₂⟩ := h₁.withRegisters (r := { m₁.registers with sp := m₁.registers.sp - n }) rfl
  obtain ⟨h₃, hclears₃⟩ := Lined.pushed (m := Action.popped m₁ n) (x := x) h₂
  exact ⟨U₁, h₃, hclears.trans (hclears₂.trans hclears₃)⟩

/-- What a primitive with groundwork leaves behind, if it stores into nothing but what is plain. -/
theorem Answered.carries (h : m.Answered (Tends K t) n m') (plain : ∀ v, t = some v → Plain K m v) :
    Carries K role m m' := by
  obtain ⟨m₁, hground, hend⟩ := h
  -- the groundwork thins the line, and what is left is done to the same object and the stack
  have thinned : m₁.memory.slots.size ≤ 0x100000000 → ∀ U, Lined K U m → ∃ U₁,
      Lined K U₁ (Action.popped m₁ n) ∧ Clears K U m U₁ (Action.popped m₁ n) ∧
        ∀ v, t = some v → Aside U₁ (Action.popped m₁ n) v := by
    intro room U hU
    have aside : ∀ v, t = some v → Aside U m v := fun v hv =>
      .of_plain hU.toFormed (plain v hv).1 (plain v hv).2
    obtain ⟨U₁, hin, h₁, hclears⟩ := hground.thins room U hU aside
    obtain ⟨h₂, hclears₂⟩ := h₁.withRegisters
      (r := { m₁.registers with sp := m₁.registers.sp - n }) rfl
    exact ⟨U₁, h₂, hclears.trans hclears₂, fun v hv => (aside v hv).inside hin hground.specials⟩
  rcases hend with hend | ⟨v, hpush⟩
  · have size := hend.remains.later.size
    refine ⟨Nat.le_trans hground.remains.later.size size, fun room _ U hU _ => ?_⟩
    obtain ⟨U₁, h₁, hclears, aside⟩ := thinned (Nat.le_trans size room) U hU
    exact .after hclears (hend.thins room U₁ h₁ aside).keeps
  · have size : m₁.memory.slots.size ≤ m'.memory.slots.size := by
      obtain ⟨-, -, rfl⟩ := Action.popThenPush_ok.1 hpush
      exact (Alters.setCell (Action.popped (Action.popped m₁ n) 1) _ _ _).later.size
    refine ⟨Nat.le_trans hground.remains.later.size size, fun room _ U hU _ => ?_⟩
    obtain ⟨U₁, h₁, hclears, -⟩ := thinned (Nat.le_trans size room) U hU
    exact Keeps.popThenPush ⟨U₁, h₁, hclears⟩ hpush

/-! ### Special objects -/

/-- A store into the array of special objects that changes no class of contexts. -/
theorem Keeps.record (h : Keeps K U m m₁) (plain : ¬ IsContext K m₁ m₁.specials.array)
    (hi : Grounded.Classless i) :
    Gives (Action.store m₁.specials.array i x) m₁ fun _ m' => Keeps K U m m' := by
  refine Machine.gives_store fun y hy => ?_
  obtain ⟨U₁, h₁, hclears⟩ := h
  obtain ⟨h₂, hclears₂⟩ := h₁.toFormed.setCell (x := x) (.inr hi) (h₁.nil_ne_of_cell hy)
    (fun hc => absurd (h₁.kind _ hc) plain) fun large hf => absurd (.inl (h₁.idle large _ hf).1) plain
  exact ⟨U₁, ⟨h₂, h₁.context, h₁.apart⟩, hclears.trans hclears₂⟩

theorem Keeps.answer (h : Keeps K U m m₁) :
    Gives (Attempt.answer n x) m₁ fun _ m' => Keeps K U m m' :=
  .bind (Attempt.gives_lift fun _ _ hpush => .pure (h.popThenPush hpush))

theorem Keeps.answerStack {depth : Nat} (h : Keeps K U m m₁) :
    Gives (do Attempt.answer n (← Attempt.stackValue depth)) m₁ fun _ m' => Keeps K U m m' :=
  .bind (Attempt.gives_looks Attempt.stackValue_stays fun _ => h.answer)

theorem gives_registerSemaphore (h : Lined K U m) (s : Staffed K role m) (hi : Grounded.Classless i) :
    Gives (Primitive.registerSemaphore i v) m fun _ m' => Keeps K U m m' := by
  refine .bind (Attempt.gives_looks (.lift Action.isInstanceOf_within) fun _ => ?_)
  refine .bind (Attempt.gives_lift (gives_nil (.bind (.get (Attempt.gives_lift ?_)))))
  exact Keeps.record ⟨U, h, fun _ hx => hx⟩ s.plain_array hi

theorem gives_lowSpaceSemaphore (h : Lined K U m) (s : Staffed K role m) :
    Gives (Primitive.lowSpaceSemaphore n) m fun _ m' => Keeps K U m m' :=
  .bind (Attempt.gives_looks Attempt.stackValue_stays fun _ =>
    .bind ((gives_registerSemaphore h s (by decide)).mono fun _ _ hkeeps => hkeeps.answerStack))

theorem gives_interruptSemaphore (h : Lined K U m) (s : Staffed K role m) :
    Gives (Primitive.interruptSemaphore n) m fun _ m' => Keeps K U m m' :=
  .bind (Attempt.gives_looks Attempt.stackValue_stays fun _ =>
    .bind ((gives_registerSemaphore h s (by decide)).mono fun _ _ hkeeps => hkeeps.answerStack))

theorem gives_signalAtMilliseconds (h : Lined K U m) (s : Staffed K role m) :
    Gives (Primitive.signalAtMilliseconds n) m fun _ m' => Keeps K U m m' := by
  refine .bind (Attempt.gives_looks Attempt.stackValue_stays fun _ => ?_)
  refine .bind (Attempt.gives_looks Attempt.stackInteger_stays fun tick => ?_)
  refine .bind ((gives_registerSemaphore h s (by decide)).mono fun _ m₁ hkeeps => ?_)
  refine .bind (Attempt.gives_looks (.lift Action.isInstanceOf_within) fun b => ?_)
  obtain ⟨U₁, h₁, hclears⟩ := hkeeps
  obtain ⟨h₂, hclears₂⟩ := h₁.alike { m₁ with interrupts := { m₁.interrupts with
    nextWakeup := if b then tick else 0 } } rfl rfl rfl rfl rfl rfl
  exact .bind (.modify (Keeps.answerStack ⟨U₁, h₂, hclears.trans hclears₂⟩))

theorem gives_beDisplay (h : Lined K U m) (s : Staffed K role m) :
    Gives (Primitive.beDisplay n) m fun _ m' => Keeps K U m m' := by
  refine .bind (Attempt.gives_looks Attempt.stackObject_stays fun _ => ?_)
  refine .bind (Attempt.gives_looks Attempt.loadForm_stays fun form => ?_)
  refine .bind fun accepted m₁ hdevices => ?_
  simp only [Attempt.onDevices, EStateM.Result.ok.injEq] at hdevices
  obtain ⟨-, rfl⟩ := hdevices
  refine .bind (Attempt.gives_looks .require fun _ => .bind (.get (.bind (Attempt.gives_lift ?_))))
  obtain ⟨h₁, hclears⟩ := h.alike { m with devices := (m.devices.setDisplay form).2 }
    rfl rfl rfl rfl rfl rfl
  exact (Keeps.record ⟨U, h₁, hclears⟩ s.plain_array (by decide)).mono fun _ _ hkeeps => .pure hkeeps

/-! ### Primitives -/

/-- The primitive with that number stores into nothing but what is plain when it is run on the machine; it
signals and waits for semaphores and resumes processes, and it renames nothing. -/
structure Heeds (K : Kinds) (role : Value → Role) (number : Nat) (m : Machine) : Prop where
  renames : number ≠ 72 ∧ number ≠ 128
  stores : number ∈ Primitive.storing → ∀ k ∈ Primitive.arities number, ∀ v,
    Primitive.receiver? k m = some v → Plain K m v
  signals : number = 85 ∨ number = 86 → ∀ v, Action.top m = .ok v m → role v = .list
  resumes : number = 87 → ∀ v, Action.top m = .ok v m → role v = .process

/-- How a primitive leaves a machine that it was tried on. -/
def Completed (K : Kinds) (role : Value → Role) (m m' : Machine) : Completion → Prop
  | .done => Carries K role m m'
  | .resend .. => Upholds K role m m'

theorem Upholds.completed {c : Completion} (h : Upholds K role m m') : Completed K role m m' c := by
  cases c with
  | done => exact h.carries
  | resend selector argCount cls => exact h

theorem gives_receiverOf {special : Nat} {Q : Value → Machine → Prop}
    (hQ : ∀ v, Action.top m = .ok v m → Q v m) : Gives (Primitive.receiverOf special) m Q := by
  refine .bind fun v m₁ hrun => ?_
  have htop := Attempt.lift_ok.1 hrun
  obtain ⟨-, rfl⟩ := Action.top_ok.1 htop
  refine .bind (Attempt.gives_looks (.lift Action.isInstanceOf_within) fun _ => ?_)
  exact .bind (Attempt.gives_looks .require fun _ => .pure (hQ v htop))

/-- What the scheduler does leaves its objects what they are. -/
theorem gives_upholds {y : Action Unit} (remains : Action.Within Remains y)
    (hy : ∀ {U}, Keeps K U m m ∧ Staffed K role m → Attends K.nil (Allowed K role)
      (fun m' => Keeps K U m m' ∧ Staffed K role m') →
      Gives y m fun _ m' => Keeps K U m m' ∧ Staffed K role m') :
    Gives y m fun _ m' => Upholds K role m m' := fun u m' hrun =>
  ⟨(remains m u m' hrun).later.size, fun _ U h s =>
    hy ⟨⟨U, h, fun _ hx => hx⟩, s⟩ (Staffed.attends K role U m) u m' hrun⟩

theorem gives_signal (hv : ∀ v, Action.top m = .ok v m → role v = .list) :
    Gives (Primitive.signal n) m fun _ m' => Upholds K role m m' := by
  refine .bind (gives_receiverOf fun v htop => .bind (Attempt.gives_lift ?_))
  exact (gives_upholds Action.signal_within fun start A => A.signal start (.inr (hv v htop))).mono
    fun _ _ h => .pure h

theorem gives_wait (hv : ∀ v, Action.top m = .ok v m → role v = .list) :
    Gives (Primitive.wait n) m fun _ m' => Upholds K role m m' := by
  refine .bind (gives_receiverOf fun v htop => .bind (Attempt.gives_lift ?_))
  exact (gives_upholds Action.wait_within fun start A => A.wait start (.inr (hv v htop))).mono
    fun _ _ h => .pure h

theorem gives_resume (hv : ∀ v, Action.top m = .ok v m → role v = .process) :
    Gives (Primitive.resume n) m fun _ m' => Upholds K role m m' := by
  refine .bind (gives_receiverOf fun v htop => ?_)
  refine .bind (Attempt.gives_looks (.lift Action.activeProcess_within) fun _ => ?_)
  refine .bind (Attempt.gives_looks .require fun _ => .bind (Attempt.gives_lift ?_))
  exact (gives_upholds Action.resume_within fun start A => A.resume start (.inr (hv v htop))).mono
    fun _ _ h => .pure h

theorem gives_suspend : Gives (Primitive.suspend n) m fun _ m' => Upholds K role m m' := by
  refine .bind (Attempt.gives_looks (.lift Action.stackValue_within) fun _ => ?_)
  refine .bind (Attempt.gives_looks (.lift Action.activeProcess_within) fun _ => ?_)
  refine .bind (Attempt.gives_looks .require fun _ => .bind (Attempt.gives_lift (gives_nil ?_)))
  refine .bind (Attempt.gives_lift fun u m₁ hpush => .bind (Attempt.gives_lift ?_))
  have hsuspended : Gives Action.suspendActive m₁ fun _ m' => Upholds K role m₁ m' :=
    gives_upholds Action.suspendActive_within fun start A => A.suspendActive start
  exact hsuspended.mono fun _ _ h =>
    .pure (IsTrans.trans _ _ _ (Stackwork.popThenPush m u m₁ hpush) h)

theorem gives_blockValue : Gives (Attempt.blockValue n) m fun _ m' => Carries K role m m' :=
  fun u m' hrun => ⟨(Attempt.blockValue_remains.ok m u m' hrun).later.size,
    fun _ apart _ h _ => h.blockValue u m' hrun apart⟩

/-- Whatever a primitive does, it takes no slots away. -/
theorem later_of_primitive {p : Primitive} {c : Completion} (hp : p ∈ Primitive.all)
    (hrun : p.action n m = .ok c m') : m.memory.Later m'.memory := by
  rcases (Primitive.all_last p hp n).ok m c m' hrun with h | ⟨-, h⟩
  · exact h.later
  · exact h.endures.later

theorem storing_eq : (Primitive.all.filter fun p => p.number ∈ Primitive.storing) = [
    ⟨61, "basicAt:put:", Primitive.basicAtPut⟩, ⟨64, "String at:put:", Primitive.stringAtPut⟩,
    ⟨69, "objectAt:put:", Primitive.objectAtPut⟩, ⟨74, "instVarAt:put:", Primitive.objectAtPut⟩,
    ⟨105, "replaceFrom:to:with:startingAt:", Primitive.replaceElements⟩] := rfl

theorem registering_eq : (Primitive.all.filter fun p => p.number ∈ Primitive.registering) = [
    ⟨102, "beDisplay", Primitive.beDisplay⟩, ⟨124, "lowSpaceSemaphore:", Primitive.lowSpaceSemaphore⟩,
    ⟨134, "interruptSemaphore:", Primitive.interruptSemaphore⟩,
    ⟨136, "signal:atMilliseconds:", Primitive.signalAtMilliseconds⟩] := rfl

/-- A primitive that stores into its receiver, which is plain. -/
theorem carries_of_storing {p : Primitive} (hp : p ∈ Primitive.all)
    (hnumber : p.number ∈ Primitive.storing)
    (plain : ∀ k ∈ Primitive.arities p.number, ∀ v, Primitive.receiver? k m = some v → Plain K m v) :
    Gives (p.action n) m fun c m' => c = .done ∧ Carries K role m m' := by
  have hmem : p ∈ Primitive.all.filter fun p => p.number ∈ Primitive.storing :=
    List.mem_filter.2 ⟨hp, decide_eq_true hnumber⟩
  rw [storing_eq] at hmem
  simp only [List.mem_cons, List.not_mem_nil, or_false] at hmem
  have write {mode : AccessMode} (h : 2 ∈ Primitive.arities p.number) :
      Gives (Primitive.writeElement mode n) m fun c m' => c = .done ∧ Carries K role m m' :=
    (Primitive.writeElement_answers (R := Tends K) (m := m) (n := n)).answered.mono fun _ _ hend =>
      ⟨hend.1, Answered.carries hend.2 (plain 2 h)⟩
  rcases hmem with rfl | rfl | rfl | rfl | rfl
  · exact write (by decide)
  · exact write (by decide)
  · exact write (by decide)
  · exact write (by decide)
  · have hanswers := Primitive.replaceElements_answers (R := Tends K) (m := m) (n := n)
    exact hanswers.answered.mono fun _ _ hend => ⟨hend.1, Answered.carries hend.2 (plain 4 (by decide))⟩

/-- A primitive that stores into the array of special objects. -/
theorem keeps_of_registering {p : Primitive} (hp : p ∈ Primitive.all)
    (hnumber : p.number ∈ Primitive.registering) (h : Lined K U m) (s : Staffed K role m) :
    Gives (p.action n) m fun _ m' => Keeps K U m m' := by
  have hmem : p ∈ Primitive.all.filter fun p => p.number ∈ Primitive.registering :=
    List.mem_filter.2 ⟨hp, decide_eq_true hnumber⟩
  rw [registering_eq] at hmem
  simp only [List.mem_cons, List.not_mem_nil, or_false] at hmem
  rcases hmem with rfl | rfl | rfl | rfl
  · exact gives_beDisplay (n := n) h s
  · exact gives_lowSpaceSemaphore (n := n) h s
  · exact gives_interruptSemaphore (n := n) h s
  · exact gives_signalAtMilliseconds (n := n) h s

/-- A primitive that switches, enters a block or hands a send on. -/
theorem completed_of_redirecting {p : Primitive} (hp : p ∈ Primitive.all)
    (hnumber : p.number ∈ Primitive.redirecting) (heeds : Heeds K role p.number m) :
    Gives (p.action n) m fun c m' => Completed K role m m' c := by
  have hmem : p ∈ Primitive.all.filter fun p => p.number ∈ Primitive.redirecting :=
    List.mem_filter.2 ⟨hp, decide_eq_true hnumber⟩
  rw [Primitive.redirecting_eq] at hmem
  simp only [List.mem_cons, List.not_mem_nil, or_false] at hmem
  have upheld {y : Attempt Completion} (hy : Gives y m fun _ m' => Upholds K role m m') :
      Gives y m fun c m' => Completed K role m m' c := hy.mono fun _ _ h => h.completed
  have entered : Gives (Primitive.blockValue n) m fun c m' => Completed K role m m' c :=
    .bind ((gives_blockValue (n := n)).mono fun _ _ h => .pure h)
  rcases hmem with rfl | rfl | rfl | rfl | rfl | rfl | rfl | rfl | rfl | rfl
  · exact absurd rfl heeds.renames.1
  · exact entered
  · exact upheld ((Stackwork.perform (n := n)).ok m)
  · exact upheld ((Stackwork.performWithArguments (n := n)).ok m)
  · exact upheld (gives_signal (n := n) (heeds.signals (.inl rfl)))
  · exact upheld (gives_wait (n := n) (heeds.signals (.inr rfl)))
  · exact upheld (gives_resume (n := n) (heeds.resumes rfl))
  · exact upheld (gives_suspend (n := n))
  · exact upheld ((Stackwork.performInSuperclass (n := n)).ok m)
  · exact absurd rfl heeds.renames.2

/-- Every primitive that is not declined keeps the line. -/
theorem all_completed {p : Primitive} (hp : p ∈ Primitive.all) (heeds : Heeds K role p.number m) :
    Gives (p.action n) m fun c m' => Completed K role m m' c := by
  intro c m' hrun
  by_cases hredirecting : p.number ∈ Primitive.redirecting
  · exact completed_of_redirecting hp hredirecting heeds c m' hrun
  obtain ⟨k, -, hanswers⟩ := Primitive.all_conform (R := Tends K) p hp hredirecting n
  obtain ⟨rfl, hanswered⟩ := (hanswers m).answered c m' hrun
  by_cases hstoring : p.number ∈ Primitive.storing
  · exact (carries_of_storing (n := n) hp hstoring (heeds.stores hstoring) .done m' hrun).2
  by_cases hregistering : p.number ∈ Primitive.registering
  · exact ⟨(later_of_primitive hp hrun).size, fun _ _ U h s =>
      keeps_of_registering hp hregistering h s _ m' hrun⟩
  · have hnone : Primitive.target p.number k m = none :=
      Primitive.Conforms.target_eq_none fun h => (List.mem_append.1 h).elim hstoring hregistering
    rw [hnone] at hanswered
    exact Answered.carries hanswered (by simp)

/-! ### Sends -/

/-- How the trial of a primitive leaves a machine. -/
def Tried (K : Kinds) (role : Value → Role) (m m' : Machine) : Action.Trial → Prop
  | .handled => Carries K role m m'
  | _ => Upholds K role m m'

theorem Upholds.tried {trial : Action.Trial} (h : Upholds K role m m') : Tried K role m m' trial := by
  cases trial with
  | handled => exact h.carries
  | resend selector argCount cls => exact h
  | unhandled => exact h

theorem Upholds.before_tried {trial : Action.Trial} (h : Upholds K role m m₁)
    (h' : Tried K role m₁ m' trial) : Tried K role m m' trial := by
  cases trial with
  | handled => exact h.before h'
  | resend selector argCount cls => exact IsTrans.trans _ _ _ h h'
  | unhandled => exact IsTrans.trans _ _ _ h h'

theorem tryPrimitive_tried (heeds : Heeds K role number m) :
    Gives (Action.tryPrimitive number n) m fun trial m' => Tried K role m m' trial := by
  unfold Action.tryPrimitive
  refine .ite (fun _ trial m' hrun => Upholds.tried (Stackwork.quickPrimitive m trial m' hrun)) fun _ => ?_
  split
  · exact .pure (Std.Refl.refl m)
  · rename_i p hp
    obtain ⟨hmem, rfl⟩ := Primitive.found_of_find? hp
    refine .bind (gives_run? ((all_completed hmem heeds).mono fun c m₁ h₁ => ?_) fun m₁ h₁ => ?_)
    · cases c with
      | done => exact .pure h₁
      | resend selector count cls => exact .pure h₁
    · have h : Upholds K role m m₁ := .of_declined hmem h₁
      exact .bind fun _ m₂ hcount => .pure (IsTrans.trans _ _ _ h (Upholds.modifyCounters _ _ _ hcount))

/-- A send finds a method with that primitive, which is tried on a machine. -/
def Tries (m : Machine) (a : Sending) (number : Nat) (m' : Machine) : Prop :=
  ∃ entry m₁, Action.findSelector a.selector a.argCount a.lookupClass m.sending = .ok entry m₁ ∧
    0 < entry.primitive ∧ number = entry.primitive ∧
    m' = { m₁ with lastPrimitiveSend := some (a.selector, a.lookupClass) }

/-- What a send, or one that it is handed on to, tries leaves contexts alone. -/
def Minds (K : Kinds) (role : Value → Role) (m : Machine) (a : Sending) : Prop :=
  ∀ s, Relation.ReflTransGen HandsOn (m, a) s → ∀ number m', Tries s.1 s.2 number m' →
    Heeds K role number m'

theorem trySend_tried (heeds : ∀ number m', Tries m a number m' → Heeds K role number m') :
    Gives (Action.trySend a) m fun (_, _, _, trial) m' => Tried K role m m' trial := by
  unfold Action.trySend
  refine .bind fun u m₁ hcount => ?_
  have h₁ : Upholds K role m m₁ := Upholds.modifyCounters m u m₁ hcount
  obtain rfl := Action.modifyCounters_ok.1 hcount
  refine .bind fun receiver m₂ hreceiver => ?_
  obtain ⟨-, -, rfl⟩ := Action.stackValue_ok.1 hreceiver
  refine .bind (gives_registers (.bind fun entry m₂ hfind => ?_))
  have h₂ : Upholds K role m m₂ := IsTrans.trans _ _ _ h₁ (Stackwork.findSelector _ entry m₂ hfind)
  by_cases hp : 0 < entry.primitive
  · simp only [hp, if_true]
    have h₃ : Upholds K role m { m₂ with lastPrimitiveSend := some (a.selector, a.lookupClass) } :=
      IsTrans.trans _ _ _ h₂ (.of_upkept ⟨rfl, rfl, rfl, rfl, .inl rfl, .inl rfl⟩)
    refine .bind (.modify (.bind (gives_registers (.bind ?_))))
    have htries := heeds entry.primitive _ ⟨entry, m₂, hfind, hp, rfl, rfl⟩
    exact (tryPrimitive_tried htries).mono fun _ _ htried => .pure (h₃.before_tried htried)
  · simp only [hp, if_false]
    exact .bind (gives_registers (.bind (.pure (.pure h₂))))

theorem sendWithin_carries {limit : Nat} (minds : Minds K role m a) :
    Gives (Action.sendWithin limit a.selector a.argCount a.lookupClass) m fun _ m' =>
      Carries K role m m' := by
  induction limit generalizing m a with
  | zero => exact .throw
  | succ limit ih =>
    rw [Action.sendWithin_succ]
    refine .bind fun ⟨receiver, entry, argCount, trial⟩ m₁ htry => ?_
    have htried := trySend_tried (minds _ .refl) _ m₁ htry
    cases trial with
    | handled => exact .pure htried
    | resend selector argCount cls =>
      have hon : HandsOn (m, a) (m₁, ⟨selector, argCount, cls⟩) := ⟨receiver, entry, _, htry⟩
      have minds₁ : Minds K role m₁ ⟨selector, argCount, cls⟩ := fun s hs =>
        minds s (.head hon hs)
      exact (ih minds₁).mono fun _ _ h => Upholds.before htried h
    | unhandled => exact fun u m' hrun => Upholds.carries (IsTrans.trans _ _ _ htried
        (Upholds.activateMethod m₁ u m' hrun))

/-- A send whose primitives leave contexts alone keeps the line. -/
theorem sendToClass_carries (minds : Minds K role m a) :
    Gives (Action.sendToClass a.selector a.argCount a.lookupClass) m fun _ m' => Carries K role m m' :=
  .bind (.get (sendWithin_carries minds))

/-! ### Instructions -/

/-- A store into a variable leaves contexts alone, but for the temporaries of the method. -/
def Beyond (K : Kinds) (m : Machine) : Variable → Prop
  | .field _ => Plain K m m.registers.receiver
  | .temporary _ => m.registers.home ≠ m.specials.array
  | .literal _ => True
  | .global i => ∀ x, m.memory.cell m.registers.method (i + 1) = some x → Plain K m x

/-- A store that changes no sender and no program counter of a context. -/
theorem carries_store (array : v ≠ m.specials.array)
    (hi : IsContext K m v → i ≠ Context.sender ∧ i ≠ Context.instructionPointer) :
    Gives (Action.store v i x) m fun _ m' => Carries K role m m' := by
  refine Machine.gives_store fun y hy => ⟨(Alters.setCell m v i x).later.size, fun _ _ U h _ => ?_⟩
  obtain ⟨h₁, hclears⟩ := h.toFormed.setCell (x := x) (.inl array) (h.nil_ne_of_cell hy)
    (fun hc => (hi (h.kind v hc)).1) fun large hf => hi (.inl (h.idle large v hf).1)
  exact ⟨U, ⟨h₁, h.context, h.apart⟩, hclears⟩

theorem Plain.carries_store (h : Plain K m v) :
    Gives (Action.store v i x) m fun _ m' => Carries K role m m' :=
  Lineup.carries_store h.2 fun hc => absurd hc h.1

theorem Beyond.carries_writeVariable {place : Variable} (h : Beyond K m place) :
    Gives (Action.writeVariable x place) m fun _ m' => Carries K role m m' := by
  cases place with
  | field index => exact .bind (gives_registers (Plain.carries_store h))
  | temporary index =>
    refine .bind (gives_registers (carries_store h fun _ => ?_))
    simp only [Context.frameStart, Context.sender, Context.instructionPointer]
    omega
  | literal index => exact .bind (gives_registers .throw)
  | global index =>
    refine .bind fun association m₁ hliteral => ?_
    obtain ⟨hassociation, rfl⟩ := Action.literal_ok hliteral
    exact (h association hassociation).carries_store

/-- An instruction stores into no context, but for the temporaries of the method, and neither does what
its send tries. -/
structure Abides (K : Kinds) (role : Value → Role) (m : Machine) (instruction : Instruction) :
    Prop where
  stores : ∀ place, instruction = .store place ∨ instruction = .popInto place → Beyond K m place
  puts : instruction = .special 1 → ∀ v, Primitive.receiver? 2 m = some v → Plain K m v
  sends : ∀ a, instruction.Sends m a → Minds K role m a

/-- The next instruction abides. -/
def Abstains (K : Kinds) (role : Value → Role) (m : Machine) : Prop :=
  ∀ instruction m₁, Action.fetchInstruction m = .ok instruction m₁ → Abides K role m₁ instruction

namespace Upholds

open Smalltalk.Action

theorem registers {r : Registers} (hr : r.context = m.registers.context) :
    Upholds K role m (m.withRegisters r) :=
  ⟨Nat.le_refl _, fun _ U h s => ⟨⟨U, h.withRegisters hr⟩,
    s.withRegisters h.stocked (hr ▸ s.context)⟩⟩

theorem modifyRegisters {f : Registers → Registers} (hf : ∀ r, (f r).context = r.context) :
    Within (Upholds K role) (modifyRegisters f) := by
  intro m u m' hrun
  obtain rfl := modifyRegisters_ok.1 hrun
  exact registers (hf _)

theorem skipByte : Within (Upholds K role) skipByte := modifyRegisters fun _ => rfl

theorem nextByte : Within (Upholds K role) nextByte := by
  refine .bind registers_within fun _ => .bind object_within fun _ => ?_
  refine .bind peekByte_within fun found => ?_
  cases found with
  | none => exact .throw
  | some byte => exact .bind skipByte fun _ => .pure

theorem jump {offset : Int} : Within (Upholds K role) (jump offset) := by
  have moved : ∀ target : Int, Within (Upholds K role)
      (Action.modifyRegisters fun r => { r with pc := target.toNat }) := fun _ =>
    modifyRegisters fun _ => rfl
  exact .bind registers_within fun _ => .ite (.bind .throw fun _ => moved _) (moved _)

theorem fetchedTo {pc : Nat} : Upholds K role m (m.fetchedTo pc) :=
  ⟨Nat.le_refl _, fun _ U h s => ⟨⟨U, h.alike _ rfl rfl rfl rfl rfl rfl⟩,
    s.of_slots h.stocked rfl rfl rfl s.context⟩⟩

theorem reset : Upholds K role m { m with reclaimable := 0 } :=
  ⟨Nat.le_refl _, fun _ _ h s => ⟨h.reset.keeps, s.of_slots h.stocked rfl rfl rfl s.context⟩⟩

theorem pushTruth {b : Bool} : Within (Upholds K role) (do Action.push (← truth b)) :=
  .bind truth_within fun _ => push

theorem answerComparison {result : Bool} : Within (Upholds K role) (answerComparison result) := by
  refine .bind popN fun _ => .bind peekByte_within fun found => ?_
  cases found with
  | none => exact pushTruth
  | some next =>
    refine .ite (.bind skipByte fun _ => .bind modifyCounters fun _ => .ite jump .pure) ?_
    refine .ite (.bind skipByte fun _ => .bind modifyCounters fun _ => ?_) pushTruth
    exact .bind nextByte fun _ => .ite jump .pure

theorem answerAtOnce {y : Value} :
    ∀ answer ∈ answerAtOnce i x y, Within (Upholds K role) answer := by
  intro answer hanswer
  unfold Action.answerAtOnce at hanswer
  split at hanswer
  · split at hanswer
    · obtain rfl := Option.some.inj hanswer
      exact answerComparison
    · split at hanswer
      · obtain rfl := Option.some.inj hanswer
        exact .bind (of_tends Groundwork.makePoint) fun _ => Stackwork.popThenPush
      · obtain ⟨v, -, rfl⟩ := Option.map_eq_some_iff.1 hanswer
        exact Stackwork.popThenPush
  · cases hanswer

theorem quickSize : Within (Upholds K role) quickSize := by
  refine .bind stackValue_within fun _ => .bind indexableSize_within fun found => ?_
  cases found with
  | none => exact .pure
  | some size =>
    refine .ite (.bind (of_tends Groundwork.positive32) fun _ => ?_) .pure
    exact .bind Stackwork.popThenPush fun _ => .pure

end Upholds

/-! #### Special selectors -/

theorem Tends.carries (h : Tends K t m m') (plain : ∀ v, t = some v → Plain K m v) :
    Carries K role m m' :=
  ⟨h.remains.later.size, fun room _ U hU _ => (h.thins room U hU fun v hv =>
    .of_plain hU.toFormed (plain v hv).1 (plain v hv).2).keeps⟩

theorem Carries.popThenPush {u : Unit} (h : Carries K role m m₁)
    (hrun : Action.popThenPush n x m₁ = .ok u m') : Carries K role m m' := by
  have hupheld : Upholds K role m₁ m' := Stackwork.popThenPush m₁ u m' hrun
  refine ⟨Nat.le_trans h.size hupheld.size, fun room apart U hU s => ?_⟩
  refine Keeps.popThenPush (h.keeps (Nat.le_trans hupheld.size room) ?_ U hU s) hrun
  obtain ⟨-, -, rfl⟩ := Action.popThenPush_ok.1 hrun
  exact apart

/-- What is carried out on the spot keeps the line. -/
theorem carries_quickly {y : Attempt Value} (hy : Gives y m fun _ m' => Carries K role m m')
    (hdeclined : Attempt.Yields Eq y) :
    Gives (Action.quickly n y) m fun _ m' => Carries K role m m' := by
  refine .bind (gives_run? (hy.mono fun v m₁ h₁ => ?_) fun m₁ hrun => ?_)
  · exact .bind fun u m₂ hpush => .pure (h₁.popThenPush hpush)
  · obtain rfl := hdeclined m m₁ hrun
    exact .pure (Upholds.carries (Std.Refl.refl m))

theorem carries_indexedAt {mode : AccessMode} :
    Gives (Attempt.indexedAt true mode) m fun _ m' => Carries K role m m' := by
  have ground : Attempt.Stays (Tends K none) (Attempt.indexedAt true mode) := by
    refine .bind Attempt.stackObject_stays fun _ => .bind Attempt.stackPositive32_stays fun _ => ?_
    refine .bind (.lift Action.isInstanceOf_within) fun _ => .bind Attempt.cachedEntry_stays fun _ => ?_
    exact .bind .require fun _ => Groundwork.elementAt
  exact fun x m' hrun => (ground.ok m x m' hrun).upholds.carries

theorem carries_indexedAtPut {mode : AccessMode}
    (plain : ∀ v, Primitive.receiver? 2 m = some v → Plain K m v) :
    Gives (Attempt.indexedAtPut true mode) m fun _ m' => Carries K role m m' := by
  intro x m' hrun
  obtain ⟨array, m₁, harray, hrun⟩ := bind_ok.1 hrun
  have hreceiver := Primitive.receiver?_of_stackObject harray
  obtain rfl : m = m₁ := Attempt.stackObject_stays.ok m array m₁ harray
  refine Tends.carries (t := some array) (Attempt.Stays.ok ?_ m x m' hrun) fun v hv => ?_
  · refine .bind Attempt.stackPositive32_stays fun _ => .bind Attempt.stackValue_stays fun _ => ?_
    refine .bind Attempt.cachedEntry_stays fun _ => .bind .require fun _ => ?_
    exact .bind Groundwork.elementPut fun _ => .pure
  · exact plain v (hreceiver.trans hv)

theorem carries_quickBlock :
    Gives (do return (← (Attempt.blockValue n).run?).isSome) m fun _ m' => Carries K role m m' := by
  refine .bind (gives_run? ((gives_blockValue (n := n)).mono fun _ _ h => .pure h) fun m₁ hrun => ?_)
  obtain rfl := Attempt.blockValue_yields (R := Eq) m m₁ hrun
  exact .pure (Upholds.carries (Std.Refl.refl m))

theorem carries_quickSpecial (puts : i = 1 → ∀ v, Primitive.receiver? 2 m = some v → Plain K m v) :
    Gives (Action.quickSpecial i) m fun _ m' => Carries K role m m' := by
  have upheld {α : Type} {y : Action α} (hy : Action.Within (Upholds K role) y) :
      Gives y m fun _ m' => Carries K role m m' := fun a m' hrun => (hy m a m' hrun).carries
  have blockCopy : Attempt.Stays (Tends K none) Attempt.blockCopy := Groundwork.blockCopy
  unfold Action.quickSpecial
  split
  · exact carries_quickly carries_indexedAt Attempt.indexedAt_true_yields
  · exact carries_quickly (carries_indexedAtPut (puts rfl)) Attempt.indexedAtPut_true_yields
  · exact upheld .quickSize
  · refine upheld (.bind Action.stackValue_within fun _ => .bind Action.stackValue_within fun _ => ?_)
    exact .bind Action.truth_within fun _ => .bind Stackwork.popThenPush fun _ => .pure
  · refine upheld (.bind Action.stackValue_within fun _ => .bind Action.classOf_within fun _ => ?_)
    exact .bind Stackwork.popThenPush fun _ => .pure
  · exact carries_quickly (fun x m' hrun => (blockCopy.ok m x m' hrun).upholds.carries)
      Attempt.blockCopy_yields
  · exact carries_quickBlock
  · exact carries_quickBlock
  · exact .pure (Upholds.carries (Std.Refl.refl m))

/-! ### Steps -/

theorem carries_returnTo {target : Value} :
    Gives (Action.returnTo x target) m fun _ m' => Carries K role m m' := by
  intro u m' hrun
  have remains : m.Remains m' := Action.returnTo_within m u m' hrun
  refine ⟨remains.later.size, fun _ apart U h _ => ?_⟩
  obtain ⟨U', -, -, -, hlined, hclears⟩ := h.returnTo u m' hrun apart
  exact ⟨U', hlined, hclears⟩

/-- An instruction that abides keeps the line, or it sends something. -/
theorem Abides.execute {instruction : Instruction} (abides : Abides K role m instruction) :
    Gives (Action.execute instruction) m fun _ m' =>
      Carries K role m m' ∨ ∃ a, instruction.Sends m a := by
  have upheld {y : Action Unit} (hy : Action.Within (Upholds K role) y) :
      Gives y m fun _ m' => Carries K role m m' ∨ ∃ a, instruction.Sends m a :=
    fun a m' hrun => .inl (hy m a m' hrun).carries
  cases instruction with
  | push place => exact upheld (.bind Action.readVariable_within fun _ => Upholds.push)
  | pushConstant c => exact upheld (.bind Action.constantValue_within fun _ => Upholds.push)
  | pushContext =>
    refine .bind (.modify (.bind (gives_registers fun u m' hpush => .inl ?_)))
    exact Upholds.carries (IsTrans.trans _ _ _ Upholds.reset (Upholds.push _ u m' hpush))
  | store place =>
    refine .bind fun x m₁ htop => ?_
    obtain ⟨-, rfl⟩ := Action.top_ok.1 htop
    exact (abides.stores place (.inl rfl)).carries_writeVariable.mono fun _ _ h => .inl h
  | popInto place =>
    refine .bind fun x m₁ hpop => ?_
    obtain ⟨-, -, rfl⟩ := Action.pop_ok.1 hpop
    have hbeyond : Beyond K (Action.popped m 1) place := abides.stores place (.inr rfl)
    exact hbeyond.carries_writeVariable.mono fun _ _ h => .inl (Upholds.popped.before h)
  | returnConstant c =>
    refine .bind fun x m₁ hconstant => ?_
    obtain rfl : m = m₁ := Action.constantValue_within m x m₁ hconstant
    refine .bind (gives_registers (.bind fun target m₁ hfetch => ?_))
    obtain ⟨-, rfl⟩ := Action.fetch_ok.1 hfetch
    exact carries_returnTo.mono fun _ _ h => .inl h
  | returnTop =>
    refine .bind fun x m₁ hpop => .bind (gives_registers (.bind fun target m₂ hfetch => ?_))
    obtain ⟨-, -, rfl⟩ := Action.pop_ok.1 hpop
    obtain ⟨-, rfl⟩ := Action.fetch_ok.1 hfetch
    exact carries_returnTo.mono fun _ _ h => .inl (Upholds.popped.before h)
  | blockReturn =>
    refine .bind fun x m₁ hpop => .bind (gives_registers (.bind fun target m₂ hfetch => ?_))
    obtain ⟨-, -, rfl⟩ := Action.pop_ok.1 hpop
    obtain ⟨-, rfl⟩ := Action.fetch_ok.1 hfetch
    exact carries_returnTo.mono fun _ _ h => .inl (Upholds.popped.before h)
  | send index argCount => exact fun _ _ hrun => .inr (Action.execute_send_late Action.late_ok hrun)
  | sendSuper index argCount =>
    exact fun _ _ hrun => .inr (Action.execute_sendSuper_late Action.late_ok hrun)
  | pop => exact upheld (.bind Upholds.pop fun _ => .pure)
  | duplicate => exact upheld (.bind Action.stackValue_within fun _ => Upholds.push)
  | jump offset => exact upheld Upholds.jump
  | longJump offset => exact upheld (.bind Upholds.jump fun _ => .ite Upholds.checkInterrupts .pure)
  | jumpIf condition offset =>
    intro u m' hrun
    rcases Action.jumpIf_late Action.late_ok hrun with hsends | ⟨x, m₁, hpop, hend⟩
    · exact .inr hsends
    have hpopped : Upholds K role m m₁ := Upholds.pop m x m₁ hpop
    rcases hend with hjump | hend
    · exact .inl (Upholds.carries (IsTrans.trans _ _ _ hpopped (Upholds.jump m₁ u m' hjump.symm)))
    · obtain rfl := (EStateM.Result.ok.inj hend).2
      exact .inl hpopped.carries
  | arithmetic index =>
    intro u m' hrun
    rcases Action.arithmetic_late Action.late_ok hrun with hsends | ⟨x, y, answer, hanswer, hrun⟩
    · exact .inr hsends
    · exact .inl (Upholds.carries (Upholds.answerAtOnce answer hanswer m u m' hrun))
  | special index =>
    intro u m' hrun
    rcases Action.special_late Action.late_ok hrun with hsends | ⟨m₁, hquick, hend⟩
    · exact .inr hsends
    · obtain rfl := (EStateM.Result.ok.inj hend).2
      refine .inl (carries_quickSpecial (fun hindex => ?_) true _ hquick)
      exact abides.puts (congrArg Instruction.special hindex)

/-- A step of a guest that abstains keeps the line. -/
theorem Abstains.step (abstains : Abstains K role m) :
    Gives Action.step m fun _ m' => Carries K role m m' := by
  rw [Action.step_eq]
  refine .bind fun instruction m₁ hfetch u m' hrun => ?_
  have abides := abstains instruction m₁ hfetch
  obtain ⟨pc, rfl⟩ := Action.fetchInstruction_ok hfetch
  have hfetched : Upholds K role m (m.fetchedTo pc) := .fetchedTo
  refine hfetched.before ?_
  rcases abides.execute u m' hrun with hcarries | ⟨a, sends⟩
  · exact hcarries
  · rw [Action.execute_sends sends] at hrun
    exact sendToClass_carries (abides.sends a sends) u m' hrun

end Smalltalk.Lineup
