import Smalltalk.Proofs.Blocks
import Smalltalk.Proofs.Endurance
import Smalltalk.Proofs.Faults
import Smalltalk.Proofs.Flushing
import Smalltalk.Proofs.Sends

/-!
# Sends that are handed on

A perform does not run a method: it hands the send on, with other arguments, and the send that it is
handed on to may find a perform again. Each time something is taken off the stack: the selector, or
the selector and the array whose elements become the arguments. So the handing on comes to an end,
unless an array comes up again among its own elements, or a send that is not understood puts a new
message on the stack.
-/

namespace Smalltalk

open Outcome

namespace Action

variable {R : Value → Machine → Prop}

instance : Honest R fetchInstruction := by
  unfold fetchInstruction
  refine .after fun bytecode => .after fun _ => ?_
  refine .join (fun jp => .branch (.after jp) (.after jp)) fun x => ?_
  refine .join (fun jp => .branch (.after jp) (.after jp)) fun y => ?_
  split <;> infer_instance

theorem answerAtOnce_honest {i : Nat} {x y : Value} :
    ∀ answer ∈ answerAtOnce i x y, Honest R answer := by
  intro answer hanswer
  unfold answerAtOnce at hanswer
  split at hanswer
  · split at hanswer
    · obtain rfl := Option.some.inj hanswer
      infer_instance
    · split at hanswer
      · obtain rfl := Option.some.inj hanswer
        infer_instance
      · obtain ⟨v, -, rfl⟩ := Option.map_eq_some_iff.1 hanswer
        infer_instance
  · cases hanswer

/-- A send up to where its primitive has been tried: the receiver, the method with the number of
arguments it was found for, and what became of the primitive. -/
def trySend (a : Sending) : Action (Value × CacheEntry × Nat × Trial) := do
  modifyCounters fun c => { c with sends := c.sends + 1 }
  let receiver ← stackValue a.argCount
  let before := (← registers).sp
  let entry ← findSelector a.selector a.argCount a.lookupClass
  if 0 < entry.primitive then
    modify fun m => { m with lastPrimitiveSend := some (a.selector, a.lookupClass) }
  let argCount := a.argCount + (← registers).sp - before
  let trial ← if 0 < entry.primitive then tryPrimitive entry.primitive argCount
    else pure .unhandled
  return (receiver, entry, argCount, trial)

theorem sendWithin_succ (limit : Nat) (a : Sending) :
    sendWithin (limit + 1) a.selector a.argCount a.lookupClass = (do
      let (receiver, entry, argCount, trial) ← trySend a
      match trial with
      | .handled => return
      | .resend selector argCount lookupClass => sendWithin limit selector argCount lookupClass
      | .unhandled => activateMethod receiver entry.method argCount) := by
  rw [sendWithin, trySend]
  simp only [bind_assoc, pure_bind]
  refine bind_congr fun _ => bind_congr fun receiver => bind_congr fun r => bind_congr fun entry => ?_
  by_cases h : 0 < entry.primitive
  · simp only [h, if_true, bind_assoc]
    exact bind_congr fun _ => bind_congr fun r' => bind_congr fun trial => (pure_bind _ _).symm
  · simp only [h, if_false, bind_assoc, pure_bind]

instance {a : Sending} : Honest R (trySend a) := by
  unfold trySend
  infer_instance

end Action

/-- In one machine the primitive of a send hands on another send, in another machine. -/
def HandsOn (s t : Machine × Sending) : Prop :=
  ∃ receiver entry argCount, Action.trySend s.2 s.1 =
    .ok (receiver, entry, argCount, .resend t.2.selector t.2.argCount t.2.lookupClass) t.1

/-- A send is handed on, by each send of a list to the next one, and by the last to the end. -/
inductive Handed : List (Machine × Sending) → Machine × Sending → Machine × Sending → Prop
  | here {s} : Handed [] s s
  | on {way s t u} : HandsOn s t → Handed way t u → Handed (s :: way) s u

namespace Action

variable {R : Value → Machine → Prop} {m m' : Machine} {a : Sending} {selector : Value} {n : Nat}

/-- A send runs out of handings on exactly when it is handed on as often as it may be. -/
theorem sendWithin_endless : sendWithin n a.selector a.argCount a.lookupClass m =
      .error (.endlessResend selector) m' ↔
    ∃ way b, Handed way (m, a) (m', b) ∧ way.length = n ∧ b.selector = selector := by
  induction n generalizing m a with
  | zero =>
    constructor
    · intro h
      rw [sendWithin] at h
      obtain ⟨e, rfl⟩ := EStateM.Result.error.inj h
      exact ⟨[], a, .here, rfl, Fault.endlessResend.inj e⟩
    · rintro ⟨way, b, h, hlength, rfl⟩
      obtain rfl := List.length_eq_zero_iff.1 hlength
      cases h
      rfl
  | succ n ih =>
    rw [sendWithin_succ]
    constructor
    · intro h
      rcases bind_error.1 h with h | ⟨⟨receiver, entry, argCount, trial⟩, m₁, htry, h⟩
      · exact (Raises.error (P := Fault.Founded fun _ _ => False) h).elim
      · cases trial with
        | handled => exact nomatch h
        | unhandled => exact (Raises.error (P := Fault.Founded fun _ _ => False) h).elim
        | resend selector argCount cls =>
          obtain ⟨way, b, hway, hlength, hb⟩ := (ih (a := ⟨selector, argCount, cls⟩)).1 h
          exact ⟨(m, a) :: way, b, .on ⟨_, _, _, htry⟩ hway, by rw [List.length_cons, hlength], hb⟩
    · rintro ⟨way, b, h, hlength, rfl⟩
      cases h with
      | here => exact absurd hlength (by simp)
      | on hon hway =>
        obtain ⟨receiver, entry, argCount, htry⟩ := hon
        refine bind_error.2 (.inr ⟨_, _, htry, ?_⟩)
        exact ih.2 ⟨_, b, hway, Nat.succ.inj hlength, rfl⟩

/-- How often a send may be handed on does not matter unless it is handed on as often. -/
theorem sendWithin_more {k : Nat} (h : ∀ selector m',
      sendWithin n a.selector a.argCount a.lookupClass m ≠ .error (.endlessResend selector) m') :
    sendWithin (n + k) a.selector a.argCount a.lookupClass m =
      sendWithin n a.selector a.argCount a.lookupClass m := by
  induction n generalizing m a with
  | zero => exact absurd rfl (h a.selector m)
  | succ n ih =>
    have hsucc (limit : Nat) := congrFun (sendWithin_succ limit a) m
    rw [Nat.succ_add, hsucc, hsucc]
    rw [hsucc] at h
    cases htry : trySend a m with
    | error e m₁ => rw [bind_of_error htry, bind_of_error htry]
    | ok outcome m₁ =>
      obtain ⟨receiver, entry, argCount, trial⟩ := outcome
      rw [bind_of_ok htry] at h
      rw [bind_of_ok htry, bind_of_ok htry]
      cases trial with
      | resend selector argCount cls => exact ih (a := ⟨selector, argCount, cls⟩) h
      | handled | unhandled => rfl

instance {argCount : Nat} {cls : Value} :
    Honest (fun _ _ => True) (sendWithin n selector argCount cls) := by
  induction n generalizing selector argCount cls with
  | zero => exact Raises.throw fun _ => trivial
  | succ n ih =>
    have heq := sendWithin_succ n ⟨selector, argCount, cls⟩
    dsimp only at heq
    rw [heq]
    refine .after fun outcome => ?_
    split <;> infer_instance

instance {argCount : Nat} {cls : Value} :
    Honest (fun _ _ => True) (sendToClass selector argCount cls) where
  error h := Raises.error (P := Fault.Founded fun _ _ => True)
    (x := sendWithin _ selector argCount cls) h

/-- A step faults only with a reason. -/
theorem step_honest : Honest (fun _ _ => True) step := inferInstance

/-- Only an instruction that sends something hands it on. -/
theorem execute_endless {instruction : Instruction}
    (h : execute instruction m = .error (.endlessResend selector) m') :
    ∃ a, instruction.Sends m a := by
  have late : Late (.error (.endlessResend selector) m' : EStateM.Result Fault Machine Unit) :=
    fun f _ e => ⟨selector, (EStateM.Result.error.inj e).1.symm⟩
  -- what sends nothing would contradict the fault
  have never {x : Action Unit} (hx : Honest (fun _ _ => False) x) {m : Machine}
      (h : x m = .error (.endlessResend selector) m') : False := hx.error h
  cases instruction with
  | send index argCount => exact execute_send_late late h
  | sendSuper index argCount => exact execute_sendSuper_late late h
  | arithmetic index =>
    rcases arithmetic_late late h with hsends | ⟨x, y, answer, hanswer, hend⟩
    · exact hsends
    · exact (never (answerAtOnce_honest answer hanswer) hend).elim
  | special index =>
    rcases special_late late h with hsends | ⟨m₁, -, hend⟩
    · exact hsends
    · exact nomatch hend
  | jumpIf condition offset =>
    rcases jumpIf_late late h with hsends | ⟨x, m₁, -, hjump | hend⟩
    · exact hsends
    · exact (never inferInstance hjump.symm).elim
    · exact nomatch hend
  | _ => exact (never (by unfold execute; infer_instance) h).elim

end Action

/-! ### Which primitives hand on -/

namespace Attempt

/-- An attempt that hands nothing on. -/
class Finishes (x : Attempt Completion) : Prop where
  done : ∀ {m c m'}, x m = .ok c m' → c = .done

variable {α : Type} {n : Nat} {v : Value}

instance {x : Attempt α} {f : α → Attempt Completion} [hf : ∀ a, Finishes (f a)] :
    Finishes (x >>= f) where
  done h := by
    obtain ⟨a, _, -, h⟩ := bind_ok.1 h
    exact (hf a).done h

instance : Finishes (pure .done) := ⟨fun h => (pure_ok.1 h).1.symm⟩

instance : Finishes decline := ⟨fun h => nomatch h⟩

instance {p : Prop} [Decidable p] {x y : Attempt Completion} [Finishes x] [Finishes y] :
    Finishes (if p then x else y) := by
  split <;> infer_instance

instance : Finishes (answer n v) := by unfold answer; infer_instance

instance {b : Bool} : Finishes (answerTruth n b) := by unfold answerTruth; infer_instance

end Attempt

namespace Primitive

open Attempt

variable {m m' : Machine} {n k : Nat} {v cls : Value}

/-- Only the performs hand a send on. -/
theorem performs_of_resend {p : Primitive} (hp : p ∈ all)
    (hrun : p.action n m = .ok (.resend v k cls) m') :
    p = ⟨83, "perform:", perform⟩ ∨ p = ⟨84, "perform:withArguments:", performWithArguments⟩ ∨
      p = ⟨100, "perform:withArguments:inSuperclass:", performInSuperclass⟩ := by
  -- an attempt that ends in `.done` would contradict the run
  have never : ∀ {x : Attempt Completion}, x m = .ok (.resend v k cls) m' → Finishes x → False :=
    fun hrun hx => nomatch hx.done hrun
  by_cases hnumber : p.number ∈ redirecting
  · have hmem : p ∈ all.filter fun p => p.number ∈ redirecting :=
      List.mem_filter.2 ⟨hp, decide_eq_true hnumber⟩
    rw [redirecting_eq] at hmem
    simp only [List.mem_cons, List.not_mem_nil, or_false] at hmem
    rcases hmem with rfl | rfl | rfl | rfl | rfl | rfl | rfl | rfl | rfl | rfl
    · exact (never hrun (by unfold becomeForward arrayBecome; infer_instance)).elim
    · exact (never hrun (by unfold blockValue; infer_instance)).elim
    · exact .inl rfl
    · exact .inr (.inl rfl)
    · exact (never hrun (by unfold signal; infer_instance)).elim
    · exact (never hrun (by unfold wait; infer_instance)).elim
    · exact (never hrun (by unfold resume; infer_instance)).elim
    · exact (never hrun (by unfold suspend; infer_instance)).elim
    · exact .inr (.inr rfl)
    · exact (never hrun (by unfold becomeBoth arrayBecome; infer_instance)).elim
  · obtain ⟨k', -, hanswers⟩ := all_conform (R := fun _ => Machine.Remains) p hp hnumber n
    exact nomatch ((hanswers m).answered _ m' hrun).1

end Primitive

/-! ### What is on the stack -/

/-- The pointer fields of the object that a value refers to. -/
def Memory.fields (memory : Memory) (v : Value) : List Value :=
  ((memory.get? v).map fun o => o.pointers.toList).getD []

namespace Machine

variable {m m' m'' : Machine} {v w x : Value} {xs : List Value} {n : Nat}

/-- The fields of the active context up to the top of the stack. -/
def stacked (m : Machine) : List Value :=
  (List.range (m.registers.sp + 1)).filterMap (m.memory.cell m.registers.context)

/-- The same context is active, and all other objects are as they were. -/
structure Beside (m m' : Machine) : Prop where
  context : m'.registers.context = m.registers.context
  get? : ∀ v, v ≠ m.registers.context → m'.memory.get? v = m.memory.get? v
  room : m'.room = m.room

theorem Beside.refl (m : Machine) : Beside m m := ⟨rfl, fun _ _ => rfl, rfl⟩

theorem Beside.trans (h : Beside m m') (h' : Beside m' m'') : Beside m m'' where
  context := h'.context.trans h.context
  get? v hv := by rw [h'.get? v (h.context ▸ hv), h.get? v hv]
  room := h'.room.trans h.room

theorem beside_popped (m : Machine) (n : Nat) : Beside m (Action.popped m n) :=
  ⟨rfl, fun _ _ => rfl, rfl⟩

/-- What is taken off the stack stood at its end. -/
theorem stacked_popped (h : n ≤ m.registers.sp) : m.stacked =
    (Action.popped m n).stacked ++ (List.range' (m.registers.sp - n + 1) n).filterMap
      (m.memory.cell m.registers.context) := by
  have hsplit : List.range (m.registers.sp + 1) =
      List.range (m.registers.sp - n + 1) ++ List.range' (m.registers.sp - n + 1) n := by
    have hsp : m.registers.sp + 1 = m.registers.sp - n + 1 + n := by omega
    rw [hsp, List.range_eq_range', List.range_eq_range', ← List.range'_append_1, Nat.zero_add]
  rw [stacked, hsplit, List.filterMap_append]
  rfl

/-- What is pushed stands at the end of the stack. -/
theorem pushed_beside (h : Action.push x m = .ok () m') :
    Beside m m' ∧ m'.stacked = m.stacked ++ [x] := by
  obtain ⟨hcell, rfl⟩ := Action.push_ok.1 h
  have hcells : (Action.pushed m x).memory.cell =
      Cells.set m.memory.cell m.registers.context (m.registers.sp + 1) x := cell_setCell hcell
  refine ⟨⟨rfl, fun v hv => ?_, ?_⟩, ?_⟩
  · change (m.memory.setField _ _ _).get? v = _
    rw [Memory.get?_setField, if_neg hv]
  · change (((m.memory.setField _ _ _).get? m.registers.context).map fun o => o.pointers.size).getD 0 = _
    rw [room, Memory.get?_setField, if_pos rfl]
    cases m.memory.get? m.registers.context with
    | none => rfl
    | some o => simp [Object.setPointer]
  · have hbelow : ∀ i ∈ List.range (m.registers.sp + 1),
        Cells.set m.memory.cell m.registers.context (m.registers.sp + 1) x m.registers.context i =
          m.memory.cell m.registers.context i := fun i hi =>
      Cells.set_of_index_ne (Nat.ne_of_lt (List.mem_range.1 hi))
    rw [stacked, hcells]
    change (List.range (m.registers.sp + 1 + 1)).filterMap (Cells.set m.memory.cell
      m.registers.context (m.registers.sp + 1) x m.registers.context) = _
    rw [List.range_succ, List.filterMap_append, List.filterMap_congr hbelow, List.filterMap_cons,
      Cells.set_same]
    rfl

theorem pushAll_beside (h : xs.forM (fun x => (liftM (Action.push x) : Attempt Unit)) m = .ok () m') :
    Beside m m' ∧ m'.stacked = m.stacked ++ xs := by
  induction xs generalizing m with
  | nil =>
    obtain ⟨-, rfl⟩ := pure_ok.1 h
    exact ⟨.refl m, (List.append_nil _).symm⟩
  | cons x xs ih =>
    obtain ⟨_, m₁, hpush, h⟩ := bind_ok.1 h
    obtain ⟨hbeside, hstacked⟩ := pushed_beside (Attempt.lift_ok.1 hpush)
    obtain ⟨hbeside', hstacked'⟩ := ih h
    refine ⟨hbeside.trans hbeside', ?_⟩
    rw [hstacked', hstacked, List.append_assoc, List.singleton_append]

/-- The topmost values stand at the end of the stack. -/
theorem stackValues_stacked {xs : List Value} (h : Action.stackValues n m = .ok xs m')
    (hn : n ≤ m.registers.sp) : (List.range' (m.registers.sp - n + 1) n).filterMap
      (m.memory.cell m.registers.context) = xs := by
  induction n generalizing xs m' with
  | zero =>
    obtain ⟨rfl, -⟩ := pure_ok.1 h
    rfl
  | succ n ih =>
    obtain ⟨x, rest, rfl, hx, hrest⟩ := Action.stackValues_succ h
    obtain ⟨-, hcell, -⟩ := Action.stackValue_ok.1 hx
    have hstart : m.registers.sp - (n + 1) + 1 = m.registers.sp - n := by omega
    rw [hstart, List.range'_succ, List.filterMap_cons, hcell, ih hrest (by omega)]

/-! ### What a perform does to the stack -/

/-- What is taken off the stack and put on it when a send is handed on: the selector is dropped, or
selector and array are replaced by the elements of the array. -/
inductive Relays (m m' : Machine) : Option Value → Prop
  | drop {base rest : List Value} {selector : Value} (before : m.stacked = base ++ selector :: rest)
    (after : m'.stacked = base ++ rest) : Relays m m' none
  | spread {base rest : List Value} {selector array : Value}
    (before : m.stacked = base ++ selector :: array :: rest)
    (after : m'.stacked = base ++ m.memory.fields array) (live : m.memory.isLive array = true)
    (fits : (m.memory.fields array).length ≤ m.room) : Relays m m' (some array)

theorem Alike.trans (h : Alike m m') (h' : Alike m' m'') : Alike m m'' :=
  ⟨h'.memory.trans h.memory, h'.specials.trans h.specials, h'.registers.trans h.registers,
    h'.pool.trans h.pool⟩

theorem Alike.beside (h : Alike m m') : Beside m m' where
  context := by rw [h.registers]
  get? v _ := by rw [h.memory]
  room := by rw [room, room, h.memory, h.registers]

theorem Alike.stacked (h : Alike m m') : m'.stacked = m.stacked := by
  rw [Machine.stacked, Machine.stacked, h.memory, h.registers]

theorem Relays.of_alike {array? : Option Value} (h : Relays m' m'' array?) (alike : Alike m m') :
    Relays m m'' array? := by
  have hfields : ∀ v, m'.memory.fields v = m.memory.fields v := fun v => by rw [alike.memory]
  have hroom : m'.room = m.room := alike.beside.room
  cases h with
  | drop before after => exact .drop (alike.stacked ▸ before) after
  | spread before after live fits =>
    rw [hfields] at after fits
    rw [alike.memory] at live
    exact .spread (alike.stacked ▸ before) after live (hroom ▸ fits)

/-- The last steps of a perform: the operands go off the stack and the arguments are pushed. -/
theorem gives_handOn {selector cls : Value} {arguments : List Value} {count : Nat} :
    Gives (do
      Action.popN count
      arguments.forM fun x => Action.push x
      return .resend selector n cls : Attempt Completion) m fun _ m' =>
        count ≤ m.registers.sp ∧ Beside m m' ∧
          m'.stacked = (Action.popped m count).stacked ++ arguments := by
  refine .bind (Attempt.gives_lift fun u m₁ hpop => ?_)
  obtain ⟨hcount, rfl⟩ := Action.popN_ok.1 hpop
  refine .bind fun _ m₂ hpush => .pure ?_
  obtain ⟨hbeside, hstacked⟩ := pushAll_beside hpush
  exact ⟨hcount, (beside_popped m count).trans hbeside, hstacked⟩

/-- A perform with its arguments on the stack drops the selector. -/
theorem perform_relays : Gives (Primitive.perform n) m fun _ m' => Beside m m' ∧ Relays m m' none := by
  unfold Primitive.perform
  cases n with
  | zero => exact .throw
  | succ count =>
    refine .bind (Recycling.gives_stackObject fun selector hle hselector => ?_)
    refine .bind (Attempt.gives_looks Attempt.stackValue_stays fun receiver => ?_)
    refine .bind (Attempt.gives_looks (.lift Action.classOf_within) fun cls => ?_)
    refine .bind (Attempt.checkArity_gives.mono fun _ m₁ alike => ?_)
    refine .bind (Attempt.gives_lift fun arguments m₂ harguments => ?_)
    obtain ⟨rfl, -, -⟩ := Action.stackValues_ok harguments
    refine gives_handOn.mono fun _ m' ⟨hcount, hbeside, hstacked⟩ => ?_
    have hbefore : m.stacked = (Action.popped m₁ (count + 1)).stacked ++ selector :: arguments := by
      have hstart : m₁.registers.sp - (count + 1) + 1 = m₁.registers.sp - count := by omega
      rw [← alike.memory, ← alike.registers] at hselector
      rw [← alike.stacked, stacked_popped hcount, hstart, List.range'_succ, List.filterMap_cons,
        hselector, stackValues_stacked harguments (by omega)]
    exact ⟨alike.beside.trans hbeside, .drop hbefore hstacked⟩

/-- A perform with its arguments in an array drops selector and array and pushes the elements. -/
theorem performWithArray_relays {cls : Value} {extra : Nat} :
    Gives (Attempt.performWithArray cls extra) m fun _ m' => Beside m m' ∧
      Relays m m' (m.memory.cell m.registers.context (m.registers.sp - extra)) := by
  refine .bind (Recycling.gives_stackObject fun selector hle hselector => ?_)
  refine .bind (Recycling.gives_stackObject fun array _ harray => ?_)
  refine .bind (Attempt.gives_lift (gives_object fun o ho => ?_))
  refine .bind (Attempt.gives_require fun _ => .bind (Attempt.gives_lift (gives_registers ?_)))
  refine .bind (Attempt.gives_lift (gives_object fun c hc => .bind (Attempt.gives_require fun hroom => ?_)))
  refine .bind (Attempt.checkArity_gives.mono fun _ m₁ alike => ?_)
  refine gives_handOn.mono fun _ m' ⟨hcount, hbeside, hstacked⟩ => ?_
  refine ⟨alike.beside.trans hbeside, ?_⟩
  have hfields : m.memory.fields array = o.pointers.toList := by
    rw [Memory.fields, ho, Option.map_some, Option.getD_some]
  have hbefore : m.stacked = (Action.popped m₁ (extra + 2)).stacked ++ selector :: array ::
      (List.range' (m.registers.sp - extra + 1) extra).filterMap
        (m.memory.cell m.registers.context) := by
    rw [alike.registers] at hcount
    have hselectorAt : m.registers.sp - (extra + 2) + 1 = m.registers.sp - (extra + 1) := by omega
    have harrayAt : m.registers.sp - (extra + 1) + 1 = m.registers.sp - extra := by omega
    have hpopped : (Action.popped m₁ (extra + 2)).stacked = (Action.popped m (extra + 2)).stacked := by
      simp only [stacked, Action.popped, withRegisters_memory, withRegisters_registers, alike.memory,
        alike.registers]
    rw [hpopped, stacked_popped hcount, hselectorAt, List.range'_succ, List.filterMap_cons, hselector,
      harrayAt, List.range'_succ, List.filterMap_cons, harray]
  rw [harray]
  refine .spread hbefore (hfields ▸ hstacked) (Memory.isLive_of_get? ho) ?_
  rw [hfields, room, hc, Option.map_some, Option.getD_some]
  simp only [Array.length_toList] at hroom ⊢
  omega

theorem performWithArguments_relays : Gives (Primitive.performWithArguments n) m fun _ m' =>
    Beside m m' ∧ Relays m m' (m.memory.cell m.registers.context m.registers.sp) :=
  .bind (Attempt.gives_looks Attempt.stackValue_stays fun _ =>
    .bind (Attempt.gives_looks (.lift Action.classOf_within) fun _ => performWithArray_relays))

theorem performInSuperclass_relays : Gives (Primitive.performInSuperclass n) m fun _ m' =>
    Beside m m' ∧ Relays m m' (m.memory.cell m.registers.context (m.registers.sp - 1)) := by
  refine .bind (Attempt.gives_looks Attempt.stackObject_stays fun _ => ?_)
  refine .bind (Attempt.gives_looks Attempt.stackValue_stays fun _ => ?_)
  refine .bind (Attempt.gives_looks (.lift Action.classOf_within) fun _ => ?_)
  refine .bind (Attempt.gives_looks (.lift Action.isAncestor_within) fun _ => ?_)
  exact .bind (Attempt.gives_require fun _ => performWithArray_relays)

end Machine

/-! ### How a send is handed on -/

/-- The array that a primitive takes the arguments of a send out of. -/
def Machine.argumentArray (m : Machine) (number : Nat) : Option Value :=
  if number = 84 then m.memory.cell m.registers.context m.registers.sp
  else if number = 100 then m.memory.cell m.registers.context (m.registers.sp - 1)
  else none

/-- The method that a send finds. -/
def Finds (s : Machine × Sending) (e : CacheEntry) : Prop :=
  ∃ cache, cachedLookup s.1.memory s.2.lookupClass s.2.selector s.1.specials.nil s.1.methodCache =
    .ok (some e) cache

theorem Finds.unique {s : Machine × Sending} {e e' : CacheEntry} (h : Finds s e) (h' : Finds s e') :
    e = e' := by
  obtain ⟨cache, h⟩ := h
  obtain ⟨cache', h'⟩ := h'
  rw [h] at h'
  exact Option.some.inj (EStateM.Result.ok.inj h').1

/-- A send is understood. -/
def Understood (s : Machine × Sending) : Prop := ∃ e, Finds s e

/-- A send comes to a perform that takes its arguments out of an array. -/
def Spreads (s : Machine × Sending) (array : Value) : Prop :=
  ∃ e, Finds s e ∧ s.1.argumentArray e.primitive = some array

namespace Action

open Machine

variable {m m' : Machine} {v cls : Value} {i k n : Nat} {s t : Machine × Sending}

theorem lookup_of_cachedLookup {selector : Value} {e : Option CacheEntry} {cache : MethodCache}
    (h : cachedLookup m.memory cls selector m.specials.nil m.methodCache = .ok e cache) :
    lookup selector cls m = .ok e { m with methodCache := cache } := by
  unfold lookup
  dsimp only
  rw [h]

theorem quickPrimitive_handles : Gives (quickPrimitive i) m fun trial _ =>
    ∀ v k cls, trial ≠ .resend v k cls := by
  refine .ite (fun _ => .pure fun _ _ _ e => absurd e (by simp)) fun _ => .bind (.get ?_)
  split
  · exact .bind fun _ _ _ => .pure fun _ _ _ e => absurd e (by simp)
  · refine .bind fun _ _ _ => .bind fun found _ _ => ?_
    dsimp only
    split
    · exact .bind fun _ _ _ => .pure fun _ _ _ e => absurd e (by simp)
    · exact .pure fun _ _ _ e => absurd e (by simp)

/-- A perform takes something off the stack. -/
theorem performs_relay {p : Primitive} (hp : p ∈ Primitive.all)
    (hrun : p.action n m = .ok (.resend v k cls) m') :
    Beside m m' ∧ Relays m m' (m.argumentArray p.number) := by
  rcases Primitive.performs_of_resend hp hrun with rfl | rfl | rfl
  · exact perform_relays (n := n) _ _ hrun
  · exact performWithArguments_relays (n := n) _ _ hrun
  · exact performInSuperclass_relays (n := n) _ _ hrun

/-- A primitive that hands a send on takes something off the stack. -/
theorem tryPrimitive_relays : Gives (tryPrimitive i n) m fun trial m' =>
    ∀ v k cls, trial = .resend v k cls → Beside m m' ∧ Relays m m' (m.argumentArray i) := by
  unfold tryPrimitive
  refine .ite (fun _ => quickPrimitive_handles.mono fun _ _ h v k cls e => absurd e (h v k cls))
    fun _ => ?_
  split
  · exact .pure fun _ _ _ e => absurd e (by simp)
  · rename_i p hp
    refine .bind (gives_run? (fun c m₁ hrun => ?_) fun m₁ _ => .bind fun _ _ _ =>
      .pure fun _ _ _ e => absurd e (by simp))
    cases c with
    | done => exact .pure fun _ _ _ e => absurd e (by simp)
    | resend v k cls =>
      have hrelays := performs_relay (Primitive.mem_all_of_find? hp) hrun
      rw [Primitive.number_of_find? hp] at hrelays
      exact .pure fun _ _ _ _ => hrelays

/-- A send that is understood goes on with the method that it finds. -/
theorem findSelector_finds {a : Sending} {e : CacheEntry} (hfind : Finds (m, a) e) :
    Gives (findSelector a.selector a.argCount a.lookupClass) m fun entry m' =>
      entry = e ∧ Alike m m' := by
  obtain ⟨cache, hfind⟩ := hfind
  refine .bind fun found m₁ hlookup => ?_
  rw [lookup_of_cachedLookup hfind] at hlookup
  obtain ⟨rfl, rfl⟩ := EStateM.Result.ok.inj hlookup
  exact .pure ⟨rfl, ⟨rfl, rfl, rfl, rfl⟩⟩

/-- A send that is understood and handed on takes something off the stack. -/
theorem trySend_relays {a : Sending} {e : CacheEntry} (hfind : Finds (m, a) e) :
    Gives (trySend a) m fun outcome m' => ∀ v k cls, outcome.2.2.2 = .resend v k cls →
      Beside m m' ∧ Relays m m' (m.argumentArray e.primitive) := by
  unfold trySend
  refine .bind fun _ m₁ hcount => ?_
  obtain ⟨alike, hfind⟩ : Alike m m₁ ∧ Finds (m₁, a) e := by
    obtain rfl := modifyCounters_ok.1 hcount
    exact ⟨⟨rfl, rfl, rfl, rfl⟩, hfind⟩
  refine .bind fun receiver m₂ hreceiver => ?_
  obtain ⟨-, -, rfl⟩ := stackValue_ok.1 hreceiver
  refine .bind (gives_registers (.bind ((findSelector_finds hfind).mono fun entry m₂ h => ?_)))
  obtain ⟨rfl, alike'⟩ := h
  have tried : ∀ {m₃ : Machine} {argCount : Nat}, Alike m m₃ →
      Gives (do
        let trial ← if 0 < entry.primitive then tryPrimitive entry.primitive argCount
          else pure .unhandled
        return (receiver, entry, argCount, trial) : Action (Value × CacheEntry × Nat × Trial)) m₃
        fun outcome m' => ∀ v k cls, outcome.2.2.2 = .resend v k cls →
          Beside m m' ∧ Relays m m' (m.argumentArray entry.primitive) := by
    intro m₃ argCount alike
    refine .ite (fun _ => .bind (tryPrimitive_relays.mono fun trial m' h => .pure ?_))
      fun _ => .bind (.pure (.pure nofun))
    intro v k cls e
    obtain ⟨hbeside, hrelays⟩ := h v k cls e
    have harray : m₃.argumentArray entry.primitive = m.argumentArray entry.primitive := by
      rw [argumentArray, argumentArray, alike.memory, alike.registers]
    exact ⟨alike.beside.trans hbeside, harray ▸ hrelays.of_alike alike⟩
  have alike : Alike m m₂ := alike.trans alike'
  refine .ite (fun _ => .bind (.modify (.bind (gives_registers (tried ?_)))))
    fun _ => .bind (gives_registers (tried alike))
  exact ⟨alike.memory, alike.specials, alike.registers, alike.pool⟩

/-- Who hands an understood send on takes something off the stack. -/
theorem relays_of_handsOn (h : HandsOn s t) (hs : Understood s) : Beside s.1 t.1 ∧
    ∃ array?, Relays s.1 t.1 array? ∧ ∀ array, Spreads s array ↔ array? = some array := by
  obtain ⟨e, hfind⟩ := hs
  obtain ⟨receiver, entry, argCount, hrun⟩ := h
  obtain ⟨hbeside, hrelays⟩ := trySend_relays hfind _ _ hrun _ _ _ rfl
  refine ⟨hbeside, _, hrelays, fun array => ⟨?_, fun harray => ⟨e, hfind, harray⟩⟩⟩
  rintro ⟨e', hfind', harray⟩
  rwa [hfind.unique hfind']

end Action

end Smalltalk
