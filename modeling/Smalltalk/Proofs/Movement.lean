import Mathlib.Logic.Relation
import Smalltalk.Proofs.Conduct
import Smalltalk.Proofs.Refusal

/-!
# Instructions that send nothing

Most instructions move values between fields and the stack, jump or return, and a jump back may let
another process run. All this comes down to stores into fields and to changes of the registers, the
counters, the pool and the interrupt state. A relation between machines that allows these changes
holds between the machine before and after any such instruction.
-/

namespace Smalltalk

open Outcome

/-- An instruction that sends nothing, whatever its operands are. -/
def Instruction.isPlain : Instruction → Bool
  | .send .. | .sendSuper .. | .jumpIf .. | .arithmetic _ | .special _ => false
  | _ => true

/-- What is done to fields and to the machine itself without a send. -/
class Machine.Fieldwork (R : Machine → Machine → Prop) : Prop extends Std.Refl R, IsTrans Machine R where
  setCell : ∀ {m v i x}, R m (m.setCell v i x)
  withRegisters : ∀ {m r}, R m (m.withRegisters r)
  counters : ∀ {m : Machine} {counters}, R m { m with counters }
  interrupts : ∀ {m : Machine} {interrupts}, R m { m with interrupts }
  reclaimable : ∀ {m : Machine} {reclaimable}, R m { m with reclaimable }
  pool : ∀ {m : Machine} {pool}, R m { m with pool }

/-- What is done to fields and to the machine itself by a signal, which may switch to another process. -/
class Machine.Errands (R : Machine → Machine → Prop) : Prop extends Std.Refl R, IsTrans Machine R where
  setCell : ∀ {m v i x}, R m (m.setCell v i x)
  withRegisters : ∀ {m r}, R m (m.withRegisters r)
  switched : ∀ {m : Machine}, R m { m with
    counters := { m.counters with processSwitches := m.counters.processSwitches + 1 } }
  interrupts : ∀ {m : Machine} {interrupts}, R m { m with interrupts }
  reclaimable : ∀ {m : Machine} {reclaimable}, R m { m with reclaimable }

instance {R : Machine → Machine → Prop} [Machine.Fieldwork R] : Machine.Errands R where
  setCell := Machine.Fieldwork.setCell
  withRegisters := Machine.Fieldwork.withRegisters
  switched := Machine.Fieldwork.counters
  interrupts := Machine.Fieldwork.interrupts
  reclaimable := Machine.Fieldwork.reclaimable

namespace Action

open Machine

variable {α β : Type} {R : Machine → Machine → Prop} {v x : Value} {i n : Nat} {m m' : Machine}

/-- Where several branches go on in the same way, that way is looked at once. -/
theorem Within.join {jp : α → Action β} {z : Action β} (hz : (∀ a, Within R (jp a)) → Within R z)
    (hjp : ∀ a, Within R (jp a)) : Within R z := hz hjp

theorem Within.forM [Std.Refl R] [IsTrans Machine R] {γ : Type} {xs : List γ} {g : γ → Action PUnit}
    (hg : ∀ a, Within R (g a)) : Within R (xs.forM g) := by
  induction xs with
  | nil => exact .pure
  | cons a xs ih => exact .bind (hg a) fun _ => ih

/-! ### Looking around -/

section
variable [Std.Refl R] [IsTrans Machine R]

theorem scheduler_within : Within R scheduler := .bind special_within fun _ => fetch_within

theorem isEmptyList_within : Within R (isEmptyList v) :=
  .bind fetch_within fun _ => .bind nil_within fun _ => .pure

theorem senderPathWithin_within {target : Value} {hops : Nat} :
    Within R (senderPathWithin target hops v) := by
  induction hops generalizing v with
  | zero =>
    unfold senderPathWithin
    exact .ite .pure (.bind nil_within fun _ => .ite (.bind .throw fun _ => .throw) .throw)
  | succ hops ih =>
    unfold senderPathWithin
    refine .ite .pure (.bind nil_within fun _ => .ite (.bind .throw fun _ => ?_) ?_)
    · exact .bind fetch_within fun _ => .bind ih fun _ => .pure
    · exact .bind fetch_within fun _ => .bind ih fun _ => .pure

theorem peekByte_within : Within R peekByte :=
  .bind registers_within fun _ => .bind object?_within fun _ => .pure

theorem literal_within : Within R (literal i) := .bind registers_within fun _ => fetch_within

theorem readVariable_within {place : Variable} : Within R (readVariable place) := by
  cases place with
  | field index => exact .bind registers_within fun _ => fetch_within
  | temporary index => exact .bind registers_within fun _ => fetch_within
  | literal index => exact literal_within
  | global index => exact .bind literal_within fun _ => fetch_within

theorem constantValue_within {c : Constant} : Within R (constantValue c) := by
  cases c with
  | receiver => exact .bind registers_within fun _ => .pure
  | true => exact truth_within
  | false => exact truth_within
  | nil => exact nil_within
  | integer n => exact .pure

end

section
variable [Errands R]

/-! ### Fields and registers -/

theorem store_within : Within R (store v i x) := by
  intro m u m' hrun
  obtain ⟨-, rfl⟩ := store_ok.1 hrun
  exact Errands.setCell

theorem modifyRegisters_within {f : Registers → Registers} : Within R (modifyRegisters f) := by
  intro m u m' hrun
  obtain rfl := modifyRegisters_ok.1 hrun
  exact Errands.withRegisters

theorem modifyReclaimable_within {f : Machine → Nat} :
    Within R (modify fun m => { m with reclaimable := f m } : Action Unit) := by
  intro m u m' hrun
  obtain rfl := modify_ok.1 hrun
  exact Errands.reclaimable

theorem push_within : Within R (push x) :=
  .bind registers_within fun _ => .bind store_within fun _ => modifyRegisters_within

theorem popN_within : Within R (popN n) := by
  intro m u m' hrun
  obtain ⟨-, rfl⟩ := popN_ok.1 hrun
  exact Errands.withRegisters

theorem pop_within : Within R pop := by
  intro m x m' hrun
  obtain ⟨-, -, rfl⟩ := pop_ok.1 hrun
  exact Errands.withRegisters

theorem popThenPush_within : Within R (popThenPush n x) :=
  .bind popN_within fun _ => push_within

theorem loadRegisters_within : Within R (loadRegisters v) := by
  intro m u m' hrun
  obtain ⟨r, rfl, -⟩ := loadRegisters_ok hrun
  exact Errands.withRegisters

theorem saveRegisters_within : Within R saveRegisters :=
  .bind registers_within fun _ => .bind ofExcept_within fun _ => .bind ofExcept_within fun _ =>
    .bind store_within fun _ => store_within

theorem activate_within : Within R (activate v) :=
  .bind saveRegisters_within fun _ => .bind modifyRegisters_within fun _ => loadRegisters_within

theorem writeVariable_within {place : Variable} : Within R (writeVariable x place) := by
  cases place with
  | field index => exact .bind registers_within fun _ => store_within
  | temporary index => exact .bind registers_within fun _ => store_within
  | literal index => exact .bind registers_within fun _ => .throw
  | global index => exact .bind literal_within fun _ => store_within

/-! ### Processes -/

theorem linkLast_within {process list : Value} : Within R (linkLast process list) := by
  refine .bind isEmptyList_within fun _ => .join (fun jp => .ite (.bind store_within jp)
    (.bind fetch_within fun _ => .bind store_within jp)) fun _ => ?_
  exact .bind store_within fun _ => store_within

theorem unlinkFirst_within : Within R (unlinkFirst v) := by
  refine .bind nil_within fun _ => .bind fetch_within fun _ => .bind fetch_within fun _ => ?_
  refine .join (fun jp => .ite (.bind store_within fun _ => .bind store_within jp)
    (.bind fetch_within fun _ => .bind store_within jp)) fun _ => ?_
  exact .bind store_within fun _ => .pure

theorem makeReady_within : Within R (makeReady v) := by
  refine .bind scheduler_within fun _ => .bind fetch_within fun _ => .bind fetchInt_within fun _ => ?_
  refine .ite (.bind .throw fun _ => ?_) ?_
  · exact .bind fetch_within fun _ => linkLast_within
  · exact .bind fetch_within fun _ => linkLast_within

theorem transferTo_within : Within R (transferTo v) := by
  refine .bind scheduler_within fun _ => .bind fetch_within fun _ => .bind store_within fun _ => ?_
  refine .bind registers_within fun _ => .bind store_within fun _ => .bind fetch_within fun _ => ?_
  refine .bind activate_within fun _ => .bind nil_within fun _ => .bind store_within fun _ => ?_
  refine .bind modifyReclaimable_within fun _ m u m' hrun => ?_
  obtain rfl := modifyCounters_ok.1 hrun
  exact Errands.switched

theorem unlinkHighest_within {count : Nat} : Within R (unlinkHighest v count) := by
  induction count with
  | zero => exact .throw
  | succ count ih =>
    exact .bind fetch_within fun _ => .bind isEmptyList_within fun _ => .ite ih unlinkFirst_within

theorem pickTop_within : Within R pickTop :=
  .bind scheduler_within fun _ => .bind fetch_within fun _ => .bind object_within fun _ =>
    unlinkHighest_within

theorem resume_within : Within R (resume v) := by
  refine .bind activeProcess_within fun _ => .bind fetchInt_within fun _ => ?_
  refine .bind fetchInt_within fun _ => .ite ?_ makeReady_within
  exact .bind makeReady_within fun _ => transferTo_within

theorem signal_within : Within R (signal v) := by
  refine .bind isEmptyList_within fun _ => .ite ?_ (.bind unlinkFirst_within fun _ => resume_within)
  exact .bind fetchInt_within fun _ => .bind ofExcept_within fun _ => store_within

theorem wait_within : Within R (wait v) := by
  refine .bind fetchInt_within fun _ => .ite store_within ?_
  refine .bind activeProcess_within fun _ => .bind linkLast_within fun _ => ?_
  exact .bind pickTop_within fun _ => transferTo_within

theorem suspendActive_within : Within R suspendActive :=
  .bind pickTop_within fun _ => transferTo_within

theorem signalSpecial_within : Within R (signalSpecial i) :=
  .bind special_within fun _ => .bind nil_within fun _ => .ite signal_within .pure

theorem checkInterrupts_within : Within R checkInterrupts := fun m u m' hrun =>
  checkInterrupts_keeps (P := R m) (fun _ h => IsTrans.trans _ _ _ h Errands.interrupts)
    (fun _ _ h _ _ hsignal => IsTrans.trans _ _ _ h (signalSpecial_within _ _ _ hsignal))
    (Std.Refl.refl m) u m' hrun

end

section
variable [Fieldwork R]

theorem modifyCounters_within {f : Counters → Counters} : Within R (modifyCounters f) := by
  intro m u m' hrun
  obtain rfl := modifyCounters_ok.1 hrun
  exact Fieldwork.counters

/-! ### Returns -/

theorem recycleContext_within : Within R (recycleContext v) := by
  refine .bind special_within fun cls => .bind nil_within fun nil m u m' hrun => ?_
  simp only [onPool, EStateM.Result.ok.injEq, true_and] at hrun
  rw [← hrun]
  cases hchain : ContextPool.chainOf? m.memory v cls with
  | none =>
    simp only [ContextPool.recycle, hchain]
    exact Fieldwork.pool
  | some large =>
    simp only [ContextPool.recycle, hchain]
    have hlinked : R m (m.setCell v Context.sender ((m.pool.head large).getD nil)) := Fieldwork.setCell
    exact IsTrans.trans _ _ _ hlinked (Fieldwork.pool (m := m.setCell v Context.sender _))

theorem sever_within : Within R (sever v) := by
  refine .bind nil_within fun _ => .bind store_within fun _ => .bind store_within fun _ => ?_
  refine .bind get_within fun _ => .ite (.bind modifyReclaimable_within fun _ => ?_) .pure
  exact recycleContext_within

theorem returnTo_within {target : Value} : Within R (returnTo x target) := by
  have rest : Within R (do
      let path ← senderPath target
      path.forM sever
      modifyRegisters fun r => { r with context := target }
      loadRegisters target
      push x) := by
    refine .bind (.bind get_within fun _ => .bind registers_within fun _ => senderPathWithin_within) fun _ => ?_
    refine .bind (.forM fun _ => sever_within) fun _ => .bind modifyRegisters_within fun _ => ?_
    exact .bind loadRegisters_within fun _ => push_within
  refine .bind nil_within fun _ => .ite (.bind .throw fun _ => ?_) ?_
  · exact .bind fetch_within fun _ => .ite (.bind .throw fun _ => rest) rest
  · exact .bind fetch_within fun _ => .ite (.bind .throw fun _ => rest) rest

/-! ### Jumps -/

theorem nextByte_within : Within R nextByte := by
  refine .bind registers_within fun _ => .bind object_within fun _ => .bind peekByte_within fun found => ?_
  cases found with
  | none => exact .throw
  | some byte => exact .bind modifyRegisters_within fun _ => .pure

theorem jump_within {offset : Int} : Within R (jump offset) :=
  .bind registers_within fun _ => .ite (.bind .throw fun _ => modifyRegisters_within)
    modifyRegisters_within

theorem answerComparison_within {result : Bool} : Within R (answerComparison result) := by
  have answer : Within R (do push (← truth result)) := .bind truth_within fun _ => push_within
  refine .bind popN_within fun _ => .bind peekByte_within fun found => ?_
  cases found with
  | none => exact answer
  | some next =>
    refine .ite ?_ (.ite ?_ answer)
    · refine .bind modifyRegisters_within fun _ => .bind modifyCounters_within fun _ => ?_
      exact .ite jump_within .pure
    · refine .bind modifyRegisters_within fun _ => .bind modifyCounters_within fun _ => ?_
      exact .bind nextByte_within fun _ => .ite jump_within .pure

end

/-! ### Steps -/

/-- The instruction at the program counter, which is moved past it. -/
def fetchInstruction : Action Instruction := do
  let bytecode ← nextByte
  countBytecode
  let x ← if 1 ≤ Instruction.operandCount bytecode then nextByte else pure 0
  let y ← if 2 ≤ Instruction.operandCount bytecode then nextByte else pure 0
  match Instruction.decode? bytecode x y with
  | some instruction => return instruction
  | none => throw (.badBytecode bytecode ((← registers).pc - 1))

/-- A step fetches an instruction and executes it. -/
theorem step_eq : step = fetchInstruction >>= execute := by
  simp only [step, fetchInstruction, bind_assoc]
  refine bind_congr fun bytecode => bind_congr fun _ => ?_
  split <;> split <;> simp only [bind_assoc, pure_bind]
  all_goals
    repeat refine bind_congr fun _ => ?_
    generalize Instruction.decode? bytecode _ _ = found
    cases found with
    | none => rfl
    | some instruction => exact (pure_bind instruction execute).symm

variable [Fieldwork R]

theorem fetchInstruction_within : Within R fetchInstruction := by
  refine .bind nextByte_within fun bytecode => .bind modifyCounters_within fun _ => ?_
  refine .join (fun jp => .ite (.bind nextByte_within jp) (.bind .pure jp)) fun first => ?_
  refine .join (fun jp => .ite (.bind nextByte_within jp) (.bind .pure jp)) fun second => ?_
  split
  · exact .pure
  · exact .bind registers_within fun _ => .throw

theorem execute_within {instruction : Instruction} (h : instruction.isPlain = true) :
    Within R (execute instruction) := by
  cases instruction with
  | push place => exact .bind readVariable_within fun _ => push_within
  | pushConstant c => exact .bind constantValue_within fun _ => push_within
  | pushContext =>
    exact .bind modifyReclaimable_within fun _ => .bind registers_within fun _ => push_within
  | store place => exact .bind stackValue_within fun _ => writeVariable_within
  | popInto place => exact .bind pop_within fun _ => writeVariable_within
  | returnConstant c =>
    exact .bind constantValue_within fun _ => .bind registers_within fun _ =>
      .bind fetch_within fun _ => returnTo_within
  | returnTop | blockReturn =>
    exact .bind pop_within fun _ => .bind registers_within fun _ =>
      .bind fetch_within fun _ => returnTo_within
  | pop => exact .bind pop_within fun _ => .pure
  | duplicate => exact .bind stackValue_within fun _ => push_within
  | jump offset => exact jump_within
  | longJump offset => exact .bind jump_within fun _ => .ite checkInterrupts_within .pure
  | send | sendSuper | jumpIf | arithmetic | special => exact absurd h (by simp [Instruction.isPlain])

end Action

/-- A step with an instruction that sends nothing. -/
def Machine.PlainStep (m m' : Machine) : Prop :=
  Action.step m = .ok () m' ∧
    ∃ instruction m₁, Action.fetchInstruction m = .ok instruction m₁ ∧ instruction.isPlain = true

/-- What fieldwork keeps is kept by instructions that send nothing, however many there are. -/
theorem Machine.Fieldwork.of_plain {R : Machine → Machine → Prop} [Fieldwork R] {m m' : Machine}
    (h : Relation.ReflTransGen PlainStep m m') : R m m' := by
  induction h with
  | refl => exact Std.Refl.refl m
  | tail _ hlast ih =>
    obtain ⟨hstep, instruction, m₁, hfetch, hplain⟩ := hlast
    rw [Action.step_eq, bind_of_ok hfetch] at hstep
    have hfetched : R _ m₁ := Action.fetchInstruction_within _ _ _ hfetch
    have hexecuted := Action.execute_within (R := R) hplain _ _ _ hstep
    exact IsTrans.trans _ _ _ ih (IsTrans.trans _ _ _ hfetched hexecuted)

end Smalltalk
