import Smalltalk.Proofs.Immediates

/-!
# Saturated semaphores

A signal that nobody waits for adds one to the count of the semaphore, and nothing asks before whether
the sum is still an immediate integer. So a signal panics if the count is the greatest integer already.
All else that is done with processes and semaphores only moves values around that are in range.
-/

namespace Smalltalk

open Outcome Rejects

/-- Nobody waits for the semaphore, and its count is the greatest integer. -/
structure Machine.Saturated (m : Machine) (semaphore : Value) : Prop where
  idle : m.memory.cell semaphore ProcessList.first = some m.specials.nil
  count : m.memory.cell semaphore ProcessList.excessSignals = some (.small Value.smallMax)

/-- The number is the count of a saturated semaphore after one more signal. -/
def Machine.Overruns (m : Machine) (n : Int) : Prop :=
  n = Value.smallMax + 1 ∧ ∃ semaphore, m.Saturated semaphore

namespace Action

variable {R : Int → Machine → Prop} {slack i n : Nat} {v process list semaphore : Value}

/-! ### Lists of processes -/

/-- A list that can be asked whether it is empty is no integer. -/
theorem keeps_isEmptyList : Keeps R slack (isEmptyList list) fun _ => list.Ranged :=
  .next keeps_fetch fun _ hfirst => .next keeps_nil fun _ _ => .answer hfirst.1.1

theorem keeps_scheduler : Keeps R slack scheduler fun v => v.Ranged :=
  .next keeps_special fun _ _ => keeps_fetch.mono fun _ _ h => ⟨h.1, h.2.2⟩

theorem keeps_activeProcess : Keeps R slack activeProcess fun v => v.Ranged :=
  .next keeps_scheduler fun _ _ => keeps_fetch.mono fun _ _ h => ⟨h.1, h.2.2⟩

theorem keeps_linkLast (hprocess : process.Ranged) :
    Keeps R slack (linkLast process list) fun _ => True := by
  refine .next keeps_isEmptyList fun empty hlist => ?_
  have linked : Keeps R slack (do
      store list ProcessList.last process
      store process Process.myList list) fun _ => True :=
    .next (keeps_store hprocess) fun _ _ => .done (keeps_store hlist)
  refine .ite (fun _ => .next (keeps_store hprocess) fun _ _ => linked) fun _ => ?_
  exact .next keeps_fetch fun _ _ => .next (keeps_store hprocess) fun _ _ => linked

theorem keeps_unlinkFirst : Keeps R slack (unlinkFirst list) fun v => v.Ranged := by
  refine .next keeps_nil fun nil hnil => .next keeps_fetch fun first hfirst => ?_
  refine .next keeps_fetch fun last _ => ?_
  have unlinked : Keeps R slack (do
      store first Process.next nil
      return first) fun v => v.Ranged :=
    .next (keeps_store hnil) fun _ _ => .answer hfirst.2
  refine .ite (fun _ => ?_) fun _ => ?_
  · exact .next (keeps_store hnil) fun _ _ => .next (keeps_store hnil) fun _ _ => unlinked
  · exact .next keeps_fetch fun next hnext => .next (keeps_store hnext.2) fun _ _ => unlinked

theorem keeps_makeReady (hprocess : process.Ranged) :
    Keeps R slack (makeReady process) fun _ => True := by
  refine .next keeps_scheduler fun _ _ => .next keeps_fetch fun lists _ => .next keeps_fetchInt fun k _ => ?_
  refine .ite (fun _ => ends_throw rfl) fun _ => ?_
  exact .next keeps_fetch fun list _ => keeps_linkLast hprocess

theorem keeps_unlinkHighest : Keeps R slack (unlinkHighest v n) fun v => v.Ranged := by
  induction n with
  | zero => exact ends_throw rfl
  | succ n ih =>
    exact .next keeps_fetch fun _ _ => .next keeps_isEmptyList fun _ _ =>
      .ite (fun _ => ih) fun _ => keeps_unlinkFirst

theorem keeps_pickTop : Keeps R slack pickTop fun v => v.Ranged :=
  .next keeps_scheduler fun _ _ => .next keeps_fetch fun _ _ => .next keeps_object fun _ _ =>
    keeps_unlinkHighest

/-! ### Switching processes -/

theorem ends_transferTo (hprocess : process.Ranged) : Ends (faulted R)
    (Machine.Ranged slack) (transferTo process)
    (keeping (Machine.Ranged 0) fun _ => True) := by
  refine .next keeps_scheduler fun scheduler _ => .next keeps_fetch fun old _ => ?_
  refine .next (keeps_store hprocess) fun _ _ => .next keeps_registers fun r hr => ?_
  refine .next (keeps_store hr.context) fun _ _ => .next keeps_fetch fun context hcontext => ?_
  refine .next (ends_activate hcontext.2) fun _ _ => .next keeps_nil fun nil hnil => ?_
  refine .next (keeps_store hnil) fun _ _ => .next (keeps_modify fun _ => ?_) fun _ _ =>
    keeps_modifyCounters
  exact ⟨rfl, rfl, rfl, fun _ hv => hv, rfl⟩

theorem ends_resume (hprocess : process.Ranged) : Ends (faulted R)
    (Machine.Ranged slack) (resume process) (keeping (Machine.Ranged 0) fun _ => True) := by
  refine .next keeps_activeProcess fun active hactive => .next keeps_fetchInt fun wanted _ => ?_
  refine .next keeps_fetchInt fun current _ => .ite (fun _ => ?_) fun _ => ?_
  · exact .next (keeps_makeReady hactive) fun _ _ => ends_transferTo hprocess
  · exact (keeps_makeReady hprocess).mono fun _ _ h => ⟨h.1.mono (Nat.zero_le _), trivial⟩

theorem ends_suspendActive : Ends (faulted R) (Machine.Ranged slack) suspendActive
    (keeping (Machine.Ranged 0) fun _ => True) :=
  .next keeps_pickTop fun _ hprocess => ends_transferTo hprocess

/-- A wait only counts down. -/
theorem ends_wait : Ends (faulted R) (Machine.Ranged slack) (wait semaphore)
    (keeping (Machine.Ranged 0) fun _ => True) := by
  refine .next keeps_fetchInt fun k hk => .ite (fun hpos => ?_) fun _ => ?_
  · refine (keeps_store ?_).mono fun _ _ h => ⟨h.1.mono (Nat.zero_le _), trivial⟩
    have hrange := Value.inRange_iff.1 hk.2.inRange
    exact Value.ranged_small (Value.inRange_iff.2 (by omega))
  · refine .next keeps_activeProcess fun active hactive => .next (keeps_linkLast hactive) fun _ _ => ?_
    exact .next keeps_pickTop fun process hprocess => ends_transferTo hprocess

/-! ### Signals -/

section
variable {m m' : Machine}

theorem isEmptyList_ok {b : Bool} (h : isEmptyList list m = .ok b m') :
    m' = m ∧ (b = true ↔ m.memory.cell list ProcessList.first = some m.specials.nil) := by
  obtain ⟨first, m₁, hfirst, h⟩ := bind_ok.1 h
  obtain ⟨hcell, rfl⟩ := fetch_ok.1 hfirst
  obtain ⟨nil, m₁, hnil, h⟩ := bind_ok.1 h
  obtain ⟨rfl, rfl⟩ := nil_ok.1 hnil
  obtain ⟨rfl, rfl⟩ := pure_ok.1 h
  rw [hcell]
  simp

/-- The process that waited is resumed. -/
theorem ends_wake : Ends (faulted R) (Machine.Ranged slack)
    (do resume (← unlinkFirst semaphore)) (keeping (Machine.Ranged 0) fun _ => True) :=
  .next keeps_unlinkFirst fun _ hprocess => ends_resume hprocess

theorem immediate_error {k : Int} {e : Fault} (h : immediate k m = .error e m') : m = m' := by
  by_cases hk : Value.InRange k
  · rw [immediate, Value.immediate_of_inRange hk] at h
    cases h
  · rw [immediate, Value.immediate_of_not hk] at h
    exact (EStateM.Result.error.inj h).2

/-- A signal panics at a number that is not immediate exactly if the semaphore is saturated. -/
theorem signal_panics_iff {k : Int} (h : m.Ranged slack) :
    signal semaphore m = .error (.panic (.notImmediate k)) m' ↔
      m.Saturated semaphore ∧ k = Value.smallMax + 1 ∧ m' = m := by
  have accepted {α : Type} {y : Action α} {m₁ : Machine} [Observes y]
      (hrun : y m₁ = .error (.panic (.notImmediate k)) m') : False :=
    Option.some_ne_none _ (Observes.of_error hrun).2
  constructor
  · intro hrun
    rcases bind_error.1 hrun with hrun | ⟨empty, m₁, hempty, hrun⟩
    · exact (accepted hrun).elim
    obtain ⟨rfl, hidle⟩ := isEmptyList_ok hempty
    cases empty with
    | true =>
      rcases bind_error.1 hrun with hrun | ⟨count, m₂, hcount, hrun⟩
      · exact (accepted hrun).elim
      obtain ⟨hcell, rfl⟩ := fetchInt_ok.1 hcount
      have hrange := (h.cell hcell).inRange
      rcases bind_error.1 hrun with hrun | ⟨v, m₃, himmediate, hrun⟩
      · rw [immediate] at hrun
        by_cases hnext : Value.InRange (count + 1)
        · rw [Value.immediate_of_inRange hnext] at hrun
          cases hrun
        · rw [Value.immediate_of_not hnext] at hrun
          obtain ⟨hk, rfl⟩ := EStateM.Result.error.inj hrun
          simp only [Fault.panic.injEq, Panic.notImmediate.injEq] at hk
          have hfull : count = Value.smallMax := by
            simp only [Value.InRange] at hrange hnext
            omega
          exact ⟨⟨hidle.1 rfl, hfull ▸ hcell⟩, hfull ▸ hk.symm, rfl⟩
      · obtain ⟨hnext, rfl, rfl⟩ := immediate_ok.1 himmediate
        have hstore := (keeps_store (R := fun _ _ => False) (Value.ranged_small hnext)).error h hrun
        exact (hstore.2 k rfl).elim
    | false => exact ((ends_wake (R := fun _ _ => False)).error h hrun |>.2 k rfl).elim
  · rintro ⟨hsaturated, rfl, rfl⟩
    have hempty : isEmptyList semaphore m' = .ok true m' := by
      refine (bind_of_ok (fetch_ok.2 ⟨hsaturated.idle, rfl⟩)).trans ?_
      exact congrArg (EStateM.Result.ok · m') (decide_eq_true rfl)
    have hcount := fetchInt_ok.2 ⟨hsaturated.count, rfl⟩
    have hnext : ¬Value.InRange (Value.smallMax + 1) := by decide
    unfold signal
    rw [bind_of_ok hempty, if_pos rfl, bind_of_ok hcount, immediate, Value.immediate_of_not hnext]
    rfl

/-- A signal keeps a machine in range, and rejects a number only if the semaphore is saturated. -/
theorem ends_signal (hR : ∀ n m, m.Overruns n → R n m) : Ends (faulted R) (Machine.Ranged slack)
    (signal semaphore) (keeping (Machine.Ranged 0) fun _ => True) := by
  have hends : Ends (faulted fun _ _ => True) (Machine.Ranged slack) (signal semaphore)
      (keeping (Machine.Ranged 0) fun _ => True) := by
    refine .next keeps_isEmptyList fun empty _ => .ite (fun _ => ?_) fun _ => ends_wake
    refine .next keeps_fetchInt fun k _ => .next (J := Machine.Ranged slack) (P := Value.Ranged)
      ⟨fun m hm => ?_⟩ fun v hv => ?_
    · cases hrun : immediate (k + 1) m with
      | ok v m' =>
        obtain ⟨hk, rfl, rfl⟩ := immediate_ok.1 hrun
        exact ⟨hm, Value.ranged_small hk⟩
      | error e m' =>
        obtain rfl := immediate_error hrun
        exact ⟨hm.memory, fun _ _ => trivial⟩
    · exact (keeps_store hv).mono fun _ _ h => ⟨h.1.mono (Nat.zero_le _), trivial⟩
  refine ⟨fun m hm => ?_⟩
  cases hrun : signal semaphore m with
  | ok _ m' => exact hends.ok hm hrun
  | error e m' =>
    refine ⟨(hends.error hm hrun).1, fun n hn => hR n m' ?_⟩
    obtain rfl := Fault.rejected?_eq_some.1 hn
    obtain ⟨hsaturated, rfl, rfl⟩ := (signal_panics_iff hm).1 hrun
    exact ⟨rfl, semaphore, hsaturated⟩

end

/-- So does the signal of a special semaphore, if there is one. -/
theorem ends_signalSpecial (hR : ∀ n m, m.Overruns n → R n m) : Ends (faulted R)
    (Machine.Ranged slack) (signalSpecial i) (keeping (Machine.Ranged 0) fun _ => True) :=
  .next keeps_glance fun _ _ => .next keeps_glance fun _ _ =>
    .ite (fun _ => ends_signal hR) fun _ => .pure fun _ hm => ⟨hm.mono (Nat.zero_le _), trivial⟩

theorem keeps_modifyInterrupts {g : Interrupts → Interrupts} :
    Keeps R slack (modifyInterrupts g) fun _ => True :=
  keeps_modify (g := fun m => { m with interrupts := g m.interrupts }) fun _ =>
    ⟨rfl, rfl, rfl, fun _ hv => hv, rfl⟩

/-- A semaphore that is due: its mark is taken off and it is signalled. -/
theorem ends_due {β : Type} {Q : β → Machine → Prop} {g : Interrupts → Interrupts} {rest : Action β}
    (hR : ∀ n m, m.Overruns n → R n m) (hrest : Ends (faulted R) (Machine.Ranged 0) rest Q) :
    Ends (faulted R) (Machine.Ranged slack) (do
      modifyInterrupts g
      signalSpecial i
      rest) Q :=
  .next keeps_modifyInterrupts fun _ _ => .next (ends_signalSpecial hR) fun _ _ => hrest

/-- A look at the clock signals at most three semaphores. -/
theorem ends_checkInterrupts (hR : ∀ n m, m.Overruns n → R n m) : Ends (faulted R)
    (Machine.Ranged slack) checkInterrupts (keeping (Machine.Ranged 0) fun _ => True) := by
  have timer (slack : Nat) (now : Int) : Ends (faulted R) (Machine.Ranged slack) (do
      let wakeup := (← get).interrupts.nextWakeup
      if wakeup ≠ 0 ∧ wakeup ≤ now then
        modifyInterrupts fun i => { i with nextWakeup := 0 }
        signalSpecial Special.timerSemaphore : Action Unit)
      (keeping (Machine.Ranged 0) fun _ => True) := by
    refine .next keeps_glance fun m _ => .ite (fun _ => ?_) fun _ => ?_
    · exact .next keeps_modifyInterrupts fun _ _ => ends_signalSpecial hR
    · exact .pure fun _ hm => ⟨hm.mono (Nat.zero_le _), trivial⟩
  have user (slack : Nat) (now : Int) : Ends (faulted R) (Machine.Ranged slack) (do
      if (← get).interrupts.pending then
        modifyInterrupts fun i => { i with pending := false }
        signalSpecial Special.interruptSemaphore
      let wakeup := (← get).interrupts.nextWakeup
      if wakeup ≠ 0 ∧ wakeup ≤ now then
        modifyInterrupts fun i => { i with nextWakeup := 0 }
        signalSpecial Special.timerSemaphore : Action Unit)
      (keeping (Machine.Ranged 0) fun _ => True) :=
    .next keeps_glance fun m _ => .ite (fun _ => ends_due hR (timer 0 now)) fun _ => timer slack now
  refine .next keeps_glance fun before _ => .ite (fun _ => ?_) fun _ => ?_
  · exact .next keeps_modifyInterrupts fun _ _ => .pure fun _ hm => ⟨hm.mono (Nat.zero_le _), trivial⟩
  refine .next keeps_glance fun now _ => .next keeps_glance fun settings _ => ?_
  refine .next keeps_glance fun sampled _ => .next keeps_modifyInterrupts fun _ _ => ?_
  exact .ite (fun _ => ends_due hR (user 0 _)) fun _ => user slack _

end Action

end Smalltalk
