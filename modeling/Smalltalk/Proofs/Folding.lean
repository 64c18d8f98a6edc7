import Smalltalk.Proofs.Exactness

/-!
# Comparisons before a jump

A comparison of two integers looks at the byte that follows it. If that begins a conditional jump,
the jump is taken or passed in the same step and the truth value is never pushed. This is the same
as pushing the truth value and jumping in a step of its own: the two machines differ in the slot
above the stack, where the popped truth value is left. Both fault alike when the second byte of a
long jump is missing, and before any other byte the truth value is pushed.
-/

namespace Smalltalk

open Outcome

variable {m q : Machine} {v x : Value} {i k : Nat} {condition result : Bool}

/-! ### Bytes -/

namespace Machine

/-- The machine after a jump over `k` bytes. -/
def jumped (m : Machine) (k : Nat) : Machine :=
  m.withRegisters { m.registers with pc := m.registers.pc + k }

/-- A store into a pointer field leaves the bytes of the method alone. -/
theorem nextByte?_setCell : (m.setCell v i x).nextByte? = m.nextByte? := by
  change (((m.memory.setField v i x).get? m.registers.method).bind Object.bytes?).bind _ = _
  have hbytes (o : Object) : (o.setPointer i x).bytes? = o.bytes? := rfl
  rw [Memory.get?_setField]
  split_ifs with h
  · rw [← h, Option.bind_map, Function.comp_def]
    simp only [hbytes]
    rfl
  · rfl

/-- The conditional jump at the program counter: the truth value it jumps on, its distance, and the
machine after it was fetched. -/
inductive Jumps (m : Machine) : Bool → Nat → Machine → Prop
  | short {byte : UInt8} (next : m.nextByte? = some byte) (low : 152 ≤ byte) (high : byte ≤ 159) :
    Jumps m false (byte.toNat - 152 + 1) m.fetched
  | long {byte operand : UInt8} (next : m.nextByte? = some byte) (low : 168 ≤ byte)
    (high : byte ≤ 175) (present : m.fetched.nextByte? = some operand) :
    Jumps m (decide (byte < 172)) (byte.toNat % 4 * 256 + operand.toNat) m.fetched.skipped

theorem nextByte?_pushed : (Action.pushed m x).nextByte? = m.nextByte? := nextByte?_setCell

namespace Jumps

/-- Fetching a jump leaves the stack alone. -/
theorem fixed (h : m.Jumps condition k q) : q.memory = m.memory ∧ q.specials = m.specials ∧
    q.registers.context = m.registers.context ∧ q.registers.sp = m.registers.sp := by
  cases h <;> exact ⟨rfl, rfl, rfl, rfl⟩

/-- A jump is the same with another value on the stack. -/
theorem pushed (h : m.Jumps condition k q) :
    (Action.pushed m x).Jumps condition k (Action.pushed q x) := by
  cases h with
  | short next low high => exact .short (nextByte?_pushed.trans next) low high
  | long next low high present =>
    exact .long (nextByte?_pushed.trans next) low high
      ((nextByte?_pushed (m := m.fetched)).trans present)

end Jumps

end Machine

open Machine

namespace Action

theorem nextByte_of_none (live : m.memory.isLive m.registers.method = true) (h : m.nextByte? = none) :
    nextByte m = .error (.malformed .instructionStream m.registers.method) m := by
  obtain ⟨o, ho⟩ := Memory.isLive_iff.1 live
  have hpeek : peekByte m = .ok none m := congrArg (EStateM.Result.ok · m) h
  unfold nextByte
  rw [bind_of_ok (registers_ok.2 ⟨rfl, rfl⟩), bind_of_ok (object_ok.2 ⟨ho, rfl⟩), bind_of_ok hpeek]
  rfl

theorem jump_eq : jump k m = .ok () (m.jumped k) := by
  unfold jump
  rw [bind_of_ok (registers_ok.2 ⟨rfl, rfl⟩), if_neg (by omega)]
  rfl

/-! ### Jumping in a step of its own -/

/-- The bytes between two others, counted from the lower one. -/
theorem exists_offset {low high byte : UInt8} (hlow : low ≤ byte) (hhigh : byte ≤ high) :
    ∃ offset ≤ high.toNat - low.toNat, byte = UInt8.ofNat (low.toNat + offset) := by
  have hlow := UInt8.le_iff_toNat_le.1 hlow
  have hhigh := UInt8.le_iff_toNat_le.1 hhigh
  refine ⟨byte.toNat - low.toNat, by omega, ?_⟩
  rw [Nat.add_sub_cancel' hlow, UInt8.ofNat_toNat]

theorem decode_short {byte : UInt8} (low : 152 ≤ byte) (high : byte ≤ 159) :
    Instruction.operandCount byte = 0 ∧
      Instruction.decode? byte 0 0 = some (.jumpIf false (byte.toNat - 152 + 1 : Nat)) := by
  obtain ⟨offset, hoffset, rfl⟩ := exists_offset low high
  have hoffset : offset ≤ 7 := hoffset
  interval_cases offset <;> exact ⟨rfl, rfl⟩

theorem decode_long {byte operand : UInt8} (low : 168 ≤ byte) (high : byte ≤ 175) :
    Instruction.operandCount byte = 1 ∧ Instruction.decode? byte operand 0 =
      some (.jumpIf (decide (byte < 172)) (byte.toNat % 4 * 256 + operand.toNat : Nat)) := by
  obtain ⟨offset, hoffset, rfl⟩ := exists_offset low high
  have hoffset : offset ≤ 7 := hoffset
  interval_cases offset <;> exact ⟨rfl, rfl⟩

/-- The operand of a long jump is fetched after the jump is counted. -/
theorem fetchInstruction_long {byte : UInt8} (next : m.nextByte? = some byte) (low : 168 ≤ byte)
    (high : byte ≤ 175) : fetchInstruction m = (do
      let operand ← nextByte
      return Instruction.jumpIf (decide (byte < 172)) (byte.toNat % 4 * 256 + operand.toNat : Nat)) m.fetched := by
  have hcounted : countBytecode m.skipped = .ok () m.fetched := rfl
  have hcount : Instruction.operandCount byte = 1 := (@decode_long byte 0 low high).1
  unfold fetchInstruction
  rw [bind_of_ok (nextByte_of_some next), bind_of_ok hcounted]
  simp only [hcount, Nat.reduceLeDiff, if_true, if_false, pure_bind,
    (decode_long low high).2]

/-- A conditional jump is fetched with its operand. -/
theorem fetchInstruction_jump (h : m.Jumps condition k q) :
    fetchInstruction m = .ok (.jumpIf condition k) q := by
  cases h with
  | short next low high =>
    exact fetchInstruction_eq next (decode_short low high).1 (decode_short low high).2
  | long next low high present =>
    rw [fetchInstruction_long next low high, bind_of_ok (nextByte_of_some present)]
    rfl

/-- A truth value is taken off the stack and decides about the jump. -/
theorem jumpIf_pushed (distinct : m.specials.trueObject ≠ m.specials.falseObject)
    (hcell : ∃ y, m.memory.cell m.registers.context (m.registers.sp + 1) = some y) :
    jumpIf condition k (pushed m (m.specials.truth result)) =
      .ok () ((if result = condition then m.jumped k else m).setCell m.registers.context
        (m.registers.sp + 1) (m.specials.truth result)) := by
  have hpop : pop (pushed m (m.specials.truth result)) = .ok (m.specials.truth result)
      (m.setCell m.registers.context (m.registers.sp + 1) (m.specials.truth result)) := by
    refine pop_ok.2 ⟨?_, Nat.succ_pos _, rfl⟩
    simp only [pushed, withRegisters_registers, withRegisters_memory]
    rw [cell_setCell hcell, Cells.set_same]
  unfold jumpIf
  rw [bind_of_ok hpop, bind_of_ok (truth_ok.2 ⟨rfl, rfl⟩), setCell_specials]
  by_cases h : result = condition
  · rw [if_pos (congrArg _ h), if_pos h]
    exact jump_eq
  · have hother : result = !condition := Bool.eq_not.2 h
    have hdiffers : m.specials.truth result ≠ m.specials.truth condition := by
      rw [hother]
      cases condition
      · exact distinct
      · exact distinct.symm
    rw [if_neg hdiffers, if_neg h, bind_of_ok (truth_ok.2 ⟨rfl, rfl⟩), setCell_specials,
      if_pos (congrArg _ hother)]
    rfl

/-! ### Jumping at once -/

section
variable (deep : 2 ≤ m.registers.sp)
include deep

theorem answerComparison_short {byte : UInt8} (next : m.nextByte? = some byte) (low : 152 ≤ byte)
    (high : byte ≤ 159) : answerComparison result m =
      (if !result then jump (byte.toNat - 152 + 1 : Nat) else pure ()) (popped m 2).fetched := by
  have hpop : popN 2 m = .ok () (popped m 2) := popN_ok.2 ⟨deep, rfl⟩
  have hpeek : peekByte (popped m 2) = .ok (some byte) (popped m 2) :=
    congrArg (EStateM.Result.ok · (popped m 2)) next
  have hskip : skipByte (popped m 2) = .ok () (popped m 2).skipped := rfl
  have hcount : countBytecode (popped m 2).skipped = .ok () (popped m 2).fetched := rfl
  unfold answerComparison
  rw [bind_of_ok hpop, bind_of_ok hpeek]
  simp only [low, high, and_self, if_true]
  rw [bind_of_ok hskip, bind_of_ok hcount]

/-- A comparison before a long jump counts the jump and fetches its operand. -/
theorem answerComparison_long {byte : UInt8} (next : m.nextByte? = some byte) (low : 168 ≤ byte)
    (high : byte ≤ 175) : answerComparison result m = (do
      let operand ← nextByte
      if result = decide (byte < 172) then
        jump (byte.toNat % 4 * 256 + operand.toNat : Nat)) (popped m 2).fetched := by
  have hshort : ¬(152 ≤ byte ∧ byte ≤ 159) := fun h => absurd (UInt8.le_trans low h.2) (by decide)
  have hpop : popN 2 m = .ok () (popped m 2) := popN_ok.2 ⟨deep, rfl⟩
  have hpeek : peekByte (popped m 2) = .ok (some byte) (popped m 2) :=
    congrArg (EStateM.Result.ok · (popped m 2)) next
  have hskip : skipByte (popped m 2) = .ok () (popped m 2).skipped := rfl
  have hcount : countBytecode (popped m 2).skipped = .ok () (popped m 2).fetched := rfl
  unfold answerComparison
  rw [bind_of_ok hpop, bind_of_ok hpeek]
  simp only [hshort, low, high, and_self, if_true, if_false]
  rw [bind_of_ok hskip, bind_of_ok hcount]

/-- A comparison before anything else pushes its result. -/
theorem answerComparison_other (h : ∀ byte, m.nextByte? = some byte →
      ¬(152 ≤ byte ∧ byte ≤ 159) ∧ ¬(168 ≤ byte ∧ byte ≤ 175)) :
    answerComparison result m = push (m.specials.truth result) (popped m 2) := by
  have hpop : popN 2 m = .ok () (popped m 2) := popN_ok.2 ⟨deep, rfl⟩
  have hpeek : peekByte (popped m 2) = .ok m.nextByte? (popped m 2) := rfl
  have htruth : truth result (popped m 2) = .ok (m.specials.truth result) (popped m 2) := rfl
  unfold answerComparison
  rw [bind_of_ok hpop, bind_of_ok hpeek]
  cases hnext : m.nextByte? with
  | none => exact bind_of_ok htruth
  | some byte =>
    simp only [h byte hnext, if_false]
    exact bind_of_ok htruth

/-- A jump that follows takes the result of the comparison at once. -/
theorem answerComparison_jump (h : (popped m 2).Jumps condition k q) :
    answerComparison result m = .ok () (if result = condition then q.jumped k else q) := by
  cases h with
  | short next low high =>
    rw [answerComparison_short deep next low high]
    cases result
    · exact jump_eq
    · rfl
  | long next low high present =>
    rw [answerComparison_long deep next low high, bind_of_ok (nextByte_of_some present)]
    split_ifs
    · exact jump_eq
    · rfl

/-- Taking the result at once leads where pushing it and stepping over the jump leads, but for the
slot above the stack. -/
theorem answerComparison_folds (distinct : m.specials.trueObject ≠ m.specials.falseObject)
    (slot : ∃ y, m.memory.cell m.registers.context (m.registers.sp - 2 + 1) = some y)
    (h : (popped m 2).Jumps condition k q) : ∃ m', answerComparison result m = .ok () m' ∧
      step (pushed (popped m 2) (m.specials.truth result)) = .ok ()
        (m'.setCell m'.registers.context (m'.registers.sp + 1) (m.specials.truth result)) := by
  obtain ⟨hmemory, hspecials, hcontext, hsp⟩ := h.fixed
  have hspecials : q.specials = m.specials := hspecials
  have slot : ∃ y, q.memory.cell q.registers.context (q.registers.sp + 1) = some y := by
    rw [hmemory, hcontext, hsp]
    exact slot
  have distinct : q.specials.trueObject ≠ q.specials.falseObject := hspecials ▸ distinct
  refine ⟨_, answerComparison_jump deep h, ?_⟩
  rw [step_eq, bind_of_ok (fetchInstruction_jump h.pushed), ← hspecials]
  refine (jumpIf_pushed distinct slot).trans ?_
  split_ifs
  · rfl
  · rfl

/-- Both fault when the operand of a long jump is missing. -/
theorem answerComparison_missing {byte : UInt8} (next : m.nextByte? = some byte) (low : 168 ≤ byte)
    (high : byte ≤ 175) (missing : m.fetched.nextByte? = none) :
    ∃ m₁ m₂, answerComparison result m = .error (.malformed .instructionStream m.registers.method) m₁ ∧
      step (pushed (popped m 2) x) = .error (.malformed .instructionStream m.registers.method) m₂ := by
  have live : m.memory.isLive m.registers.method = true := by
    obtain ⟨_, hbytes, -⟩ := Option.bind_eq_some_iff.1 next
    obtain ⟨o, ho, -⟩ := Option.bind_eq_some_iff.1 hbytes
    exact Memory.isLive_of_get? ho
  refine ⟨(popped m 2).fetched, (pushed (popped m 2) x).fetched, ?_, ?_⟩
  · rw [answerComparison_long deep next low high]
    exact bind_of_error (nextByte_of_none (m := (popped m 2).fetched) live missing)
  · have live : (pushed (popped m 2) x).memory.isLive m.registers.method = true :=
      (Memory.isLive_setField ..).trans live
    rw [step_eq]
    refine bind_of_error ?_
    rw [fetchInstruction_long ((nextByte?_pushed (m := popped m 2)).trans next) low high]
    exact bind_of_error (nextByte_of_none (m := (pushed (popped m 2) x).fetched) live
      ((nextByte?_pushed (m := (popped m 2).fetched)).trans missing))

end

section
variable {a b : Int} (receiver : stackValue 1 m = .ok (.small a) m)
  (argument : stackValue 0 m = .ok (.small b) m) (compares : comparisonResult i a b = some result)
include receiver argument compares

/-- Two integers on the stack are compared. -/
theorem arithmetic_comparison : arithmetic i m = answerComparison result m := by
  unfold arithmetic
  rw [bind_of_ok receiver, bind_of_ok argument]
  simp only [compares]

theorem step_eq_answerComparison (next : m.nextByte? = some (176 + UInt8.ofNat i)) :
    step m = answerComparison result m.fetched := by
  have hi : i < 16 := by
    unfold comparisonResult at compares
    split at compares <;> simp_all
  rw [step_eq, bind_of_ok (fetchInstruction_arithmetic hi next)]
  exact arithmetic_comparison (stackValue_fetched receiver) (stackValue_fetched argument) compares

end

/-- A bytecode that compares two integers folds into a conditional jump that follows: one step leads
where pushing the truth value and stepping over the jump leads, except that the slot above the stack
keeps the truth value there. Both fault when the operand of a long jump is missing. Before any other
byte, and at the end of the method, the truth value is pushed. -/
theorem step_comparison {a b : Int} (distinct : m.specials.trueObject ≠ m.specials.falseObject)
    (compares : comparisonResult i a b = some result) (next : m.nextByte? = some (176 + UInt8.ofNat i))
    (deep : 2 ≤ m.registers.sp) (receiver : stackValue 1 m = .ok (.small a) m)
    (argument : stackValue 0 m = .ok (.small b) m) :
    let compared := pushed (popped m.fetched 2) (m.specials.truth result)
    (∀ byte, m.fetched.nextByte? = some byte → 152 ≤ byte ∧ byte ≤ 159 ∨
        (168 ≤ byte ∧ byte ≤ 175) ∧ m.fetched.fetched.nextByte? ≠ none →
      ∃ m', step m = .ok () m' ∧ step compared = .ok () (m'.setCell m'.registers.context
        (m'.registers.sp + 1) (m.specials.truth result))) ∧
    (∀ byte, m.fetched.nextByte? = some byte → 168 ≤ byte ∧ byte ≤ 175 →
        m.fetched.fetched.nextByte? = none →
      ∃ m₁ m₂, step m = .error (.malformed .instructionStream m.registers.method) m₁ ∧
        step compared = .error (.malformed .instructionStream m.registers.method) m₂) ∧
    ((∀ byte, m.fetched.nextByte? = some byte →
        ¬(152 ≤ byte ∧ byte ≤ 159) ∧ ¬(168 ≤ byte ∧ byte ≤ 175)) →
      step m = .ok () compared) := by
  intro compared
  have slot : ∃ y, m.memory.cell m.registers.context (m.registers.sp - 2 + 1) = some y := by
    obtain ⟨-, hcell, -⟩ := stackValue_ok.1 receiver
    exact ⟨_, (show m.registers.sp - 2 + 1 = m.registers.sp - 1 by omega) ▸ hcell⟩
  have deep : 2 ≤ m.fetched.registers.sp := deep
  rw [step_eq_answerComparison receiver argument compares next]
  refine ⟨fun byte hbyte hpresent => ?_, fun byte hbyte ⟨low, high⟩ hmissing => ?_, fun hother => ?_⟩
  · rcases hpresent with hrange | ⟨hrange, hoperand⟩
    · exact answerComparison_folds deep distinct slot (.short hbyte hrange.1 hrange.2)
    · obtain ⟨operand, hoperand⟩ := Option.ne_none_iff_exists'.1 hoperand
      exact answerComparison_folds deep distinct slot (.long hbyte hrange.1 hrange.2 hoperand)
  · exact answerComparison_missing deep hbyte low high hmissing
  · rw [answerComparison_other deep hother]
    exact push_ok.2 ⟨slot, rfl⟩

/-- Three is less than five, and a long jump on true follows: the comparison takes it, and so does a
step of its own after the truth value was pushed. -/
theorem step_comparison_abacus :
    let m := abacus #[178, 169, 4] 3 5
    let compared := pushed (popped m.fetched 2) (.ref 5 0)
    ∃ m', step m = .ok () m' ∧ m'.registers.pc = 263 ∧ m'.registers.sp = 5 ∧
      step compared = .ok () (m'.setCell (.ref 3 0) 6 (.ref 5 0)) := by
  intro m compared
  obtain ⟨receiver, argument⟩ := stackValues_abacus #[178, 169, 4] 3 5
  obtain ⟨hfolds, -, -⟩ := step_comparison (i := 2) (by decide) rfl (by decide +kernel) (by decide)
    receiver argument
  have hbyte : m.fetched.nextByte? = some 169 := by decide +kernel
  have hoperand : m.fetched.fetched.nextByte? = some 4 := by decide +kernel
  obtain ⟨m', hstep, hsame⟩ := hfolds 169 hbyte
    (.inr ⟨by decide, fun h => absurd (hoperand.symm.trans h) (by simp)⟩)
  have hrun : leads step m (fun _ m' => decide (m'.registers.pc = 263 ∧ m'.registers.sp = 5 ∧
      m'.registers.context = .ref 3 0)) = true := by
    decide +kernel
  obtain ⟨_, m₁, hstep₁, hregisters⟩ := exists_of_leads hrun
  obtain ⟨-, rfl⟩ := EStateM.Result.ok.inj (hstep₁.symm.trans hstep)
  obtain ⟨hpc, hsp, hcontext⟩ := of_decide_eq_true hregisters
  rw [hcontext, hsp] at hsame
  exact ⟨m₁, hstep, hpc, hsp, hsame⟩

end Action

end Smalltalk
