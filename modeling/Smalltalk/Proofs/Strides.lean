import Smalltalk.Proofs.Captures
import Smalltalk.Proofs.Resends

/-!
# Steps that keep to the deal

The operations of a run are what a machine does when it executes instructions: an instruction is
fetched, and then it moves values, hands the active context out, makes a block or enters one, returns,
or sends something to a method that is activated. So a machine that does nothing else, step by step,
goes through such a run, and no context that it has captured is recycled.
-/

namespace Smalltalk.Recycling

open Outcome Machine

variable {T : Roles} {L : Ledger} {m m' m₀ m₁ : Machine} {a : Sending} {e entry : CacheEntry}
  {receiver : Value} {n argCount : Nat} {instruction : Instruction}

/-! ### Sends -/

/-- Where a send that is understood comes to its primitive, nothing but notes has changed. -/
theorem findSelector_advances (hfind : Finds (m, a) e) :
    Gives (Action.findSelector a.selector a.argCount a.lookupClass) m fun _ m' =>
      Advances m m' ∧ m'.reclaimable = m.reclaimable := by
  obtain ⟨cache, hfind⟩ := hfind
  refine .bind fun found m₁ hlookup => ?_
  rw [Action.lookup_of_cachedLookup hfind] at hlookup
  obtain ⟨rfl, rfl⟩ := EStateM.Result.ok.inj hlookup
  exact .pure ⟨⟨rfl, rfl, rfl, m.registers.pc, rfl⟩, rfl⟩

/-- A send that is left to its method has only taken notes before its primitive was tried. -/
theorem trySend_unhandled (hfind : Finds (m, a) e) :
    Gives (Action.trySend a) m fun (receiver, entry, argCount, trial) m' => trial = .unhandled →
      ∃ m₁, Advances m m₁ ∧ m₁.reclaimable = m.reclaimable ∧
        Action.stackValue argCount m₁ = .ok receiver m₁ ∧ (entry.primitive = 0 ∧ m' = m₁ ∨
          Action.tryPrimitive entry.primitive argCount m₁ = .ok .unhandled m') := by
  unfold Action.trySend
  refine .bind fun _ m₁ hcount => ?_
  obtain rfl := Action.modifyCounters_ok.1 hcount
  have hsending : Advances m m.sending := ⟨rfl, rfl, rfl, m.registers.pc, rfl⟩
  refine .bind fun receiver m₂ hreceiver => ?_
  obtain ⟨hle, hcell, rfl⟩ := Action.stackValue_ok.1 hreceiver
  refine .bind (gives_registers (.bind fun entry m₂ hlookup => ?_))
  obtain ⟨e₂, hreclaimable⟩ := findSelector_advances (m := m.sending) hfind entry m₂ hlookup
  -- the receiver is where it was, below as many arguments
  have found : ∀ {m₃ : Machine}, Advances m m₃ →
      Action.stackValue (a.argCount + m₃.registers.sp - m.registers.sp) m₃ = .ok receiver m₃ := by
    intro m₃ e₃
    obtain ⟨pc, hpc⟩ := e₃.registers
    have hsp : m₃.registers.sp = m.registers.sp := by rw [hpc]
    have hcontext : m₃.registers.context = m.registers.context := by rw [hpc]
    rw [hsp, Nat.add_sub_cancel]
    refine Action.stackValue_ok.2 ⟨by rwa [hsp], ?_, rfl⟩
    rw [e₃.memory, hcontext, hsp]
    exact hcell
  have e₁ := hsending.trans e₂
  by_cases hp : 0 < entry.primitive
  · simp only [hp, if_true]
    have e₃ : Advances m { m₂ with lastPrimitiveSend := some (a.selector, a.lookupClass) } :=
      ⟨e₁.memory, e₁.specials, e₁.pool, e₁.registers⟩
    refine .bind (.modify (.bind (gives_registers (.bind fun trial m₃ htry => .pure fun he => ?_))))
    subst he
    exact ⟨_, e₃, hreclaimable, found e₃, .inr htry⟩
  · simp only [hp, if_false]
    refine .bind (gives_registers (.bind (.pure (.pure fun _ => ?_))))
    exact ⟨m₂, e₁, hreclaimable, found e₁, .inl ⟨Nat.eq_zero_of_not_pos hp, rfl⟩⟩

/-! ### Instructions -/

/-- An instruction that carries out one of the operations of a run. -/
inductive Operates (T : Roles) (m : Machine) : Instruction → Prop
  | move {instruction : Instruction} (moves : Moves T m instruction) : Operates T m instruction
  | answer : Operates T m .pushContext
  | blockCopy {m' : Machine} (made : Action.quickly 2 Attempt.blockCopy m = .ok true m') :
      Operates T m (.special 8)
  | blockValue {n : Nat} {m' : Machine} (hn : n < 2) (entered : Attempt.blockValue n m = .ok () m')
      (unchained : ∀ block, m.memory.cell m.registers.context (m.registers.sp - n) = some block →
        ¬ OnChain m.memory.cell m.registers.context block) : Operates T m (.special (9 + n))
  | leave {instruction : Instruction} (hreturns : returns instruction = true) :
      Operates T m instruction
  /-- A send is understood, and its method is activated. -/
  | send {instruction : Instruction} {a : Sending} {e : CacheEntry} (sends : instruction.Sends m a)
      (finds : Finds (m, a) e) (unhandled : ∀ outcome m', Action.trySend a m = .ok outcome m' →
        outcome.2.2.2 = .unhandled) : Operates T m instruction

theorem sendToClass_run (hrun : Run T m₀ L m) (finds : Finds (m, a) e)
    (unhandled : ∀ outcome m', Action.trySend a m = .ok outcome m' → outcome.2.2.2 = .unhandled) :
    Gives (Action.sendToClass a.selector a.argCount a.lookupClass) m fun _ m' =>
      m'.memory.slots.size ≤ 0x100000000 → ∃ L', Run T m₀ L' m' := by
  refine .bind (.get ?_)
  cases m.resendLimit with
  | zero => exact .throw
  | succ limit =>
    rw [Action.sendWithin_succ]
    refine .bind fun ⟨receiver, entry, argCount, trial⟩ m₂ htry => ?_
    obtain rfl := unhandled _ m₂ htry
    obtain ⟨m₁, advances, hreclaimable, found, declined⟩ := trySend_unhandled finds _ m₂ htry rfl
    refine .bind fun _ m₃ entered u m' checked room => ?_
    have later : m₃.Remains m' := Action.checkInterrupts_within m₃ u m' checked
    have hnoted := hrun.step (.advance advances hreclaimable)
    exact ⟨_, hnoted.step (.activate found declined entered
      (Nat.le_trans later.later.size room) checked)⟩

/-- What was carried out on the spot is all that is done. -/
theorem execute_taken {i : Nat} (hquick : Action.quickSpecial i m = .ok true m₁)
    (executed : Action.execute (.special i) m = .ok () m') : m₁ = m' := by
  obtain ⟨taken, m₂, hquick', executed⟩ := bind_ok.1 executed
  rw [hquick] at hquick'
  obtain ⟨rfl, rfl⟩ := EStateM.Result.ok.inj hquick'
  exact (pure_ok.1 executed).2

theorem quickSpecial_block (hn : n < 2) (entered : Attempt.blockValue n m = .ok () m₁) :
    Action.quickSpecial (9 + n) m = .ok true m₁ := by
  have htaken : (Attempt.blockValue n).run? m = .ok (some ()) m₁ := by
    simp only [Attempt.run?, entered]
  obtain rfl | rfl : n = 0 ∨ n = 1 := by omega
  · exact bind_of_ok htaken
  · exact bind_of_ok htaken

/-- Each instruction that carries out an operation goes on with the run. -/
theorem Operates.run (operates : Operates T m instruction) (start : Start T m₀) (hrun : Run T m₀ L m)
    (executed : Action.execute instruction m = .ok () m')
    (room : m'.memory.slots.size ≤ 0x100000000) : ∃ L', Run T m₀ L' m' := by
  cases operates with
  | move moves => exact ⟨_, hrun.step (.move moves executed)⟩
  | answer => exact ⟨_, hrun.step (.answer executed)⟩
  | blockCopy made =>
    obtain rfl := execute_taken (i := 8) made executed
    exact ⟨_, hrun.step (.blockCopy made room)⟩
  | blockValue hn entered unchained =>
    obtain rfl := execute_taken (quickSpecial_block hn entered) executed
    exact ⟨_, hrun.step (.blockValue entered unchained)⟩
  | leave hreturns =>
    obtain ⟨D, hD⟩ := hrun.runs start
    obtain ⟨path, way, -⟩ := hD.execute_return hreturns () m' executed
    exact ⟨_, hrun.step (.leave hreturns executed way)⟩
  | send sends finds unhandled =>
    rw [Action.execute_sends sends] at executed
    exact sendToClass_run hrun finds unhandled () m' executed room

/-! ### Steps -/

/-- A step whose instruction carries out an operation of a run. -/
structure Stride (T : Roles) (m m' : Machine) : Prop where
  stepped : Action.step m = .ok () m'
  operates : ∀ instruction m₁, Action.fetchInstruction m = .ok instruction m₁ →
    Operates T m₁ instruction
  room : m'.memory.slots.size ≤ 0x100000000

theorem Stride.run (stride : Stride T m m') (start : Start T m₀) (hrun : Run T m₀ L m) :
    ∃ L', Run T m₀ L' m' := by
  have hstep := stride.stepped
  rw [Action.step_eq] at hstep
  obtain ⟨instruction, m₁, hfetch, hstep⟩ := bind_ok.1 hstep
  have operates := stride.operates instruction m₁ hfetch
  obtain ⟨pc, rfl⟩ := Action.fetchInstruction_ok hfetch
  have hfetched : Run T m₀ L (m.fetchedTo pc) := hrun.step (.advance ⟨rfl, rfl, rfl, pc, rfl⟩ rfl)
  exact operates.run start hfetched hstep stride.room

/-- A machine that carries out such instructions, step after step, goes through a run. -/
theorem run_of_strides (start : Start T m₀) (strides : Relation.ReflTransGen (Stride T) m₀ m) :
    ∃ L, Run T m₀ L m := by
  induction strides with
  | refl => exact ⟨_, .start⟩
  | tail _ stride ih =>
    obtain ⟨L, hrun⟩ := ih
    exact stride.run start hrun

end Smalltalk.Recycling
