import Smalltalk.Proofs.Faults
import Smalltalk.Proofs.Movement

/-!
# The bytecodes that send

A send names its selector by a literal and takes the class of the receiver to start the lookup at; a
send to super starts above the class that the active method belongs to. The special selectors stand in
a table, with the number of their arguments, and they are sent only when there is no answer on the
spot. A conditional jump sends a selector to what is no truth value. However it is made, a send is one
and the same action on selector, number of arguments and class.
-/

namespace Smalltalk

open Outcome

/-- What a send is asked for. -/
structure Sending where
  selector : Value
  argCount : Nat
  lookupClass : Value
  deriving DecidableEq, Repr

variable {m m' : Machine} {a : Sending} {receiver x y : Value} {i n : Nat} {instruction : Instruction}

/-- How an arithmetic selector is answered on the spot, if it is. -/
def Action.answerAtOnce (i : Nat) : Value → Value → Option (Action Unit)
  | .small x, .small y =>
    match comparisonResult i x y with
    | some result => some (answerComparison result)
    | none =>
      if i = 11 then
        some do
          let point ← makePoint (.small x) (.small y)
          popThenPush 2 point
      else
        ((arithmeticResult i x y).bind Value.ofInt?).map (popThenPush 2)
  | _, _ => none

namespace Machine

/-- The receiver below so many arguments is of that class. -/
def ClassBelow (m : Machine) (n : Nat) (cls : Value) : Prop :=
  ∃ receiver, Action.stackValue n m = .ok receiver m ∧ Action.classOf receiver m = .ok cls m

/-- The special selector with that number is sent. -/
structure CallsSpecial (m : Machine) (i : Nat) (a : Sending) : Prop where
  selector : m.memory.cell (m.specials.get m.memory Special.specialSelectors) (i * 2) = some a.selector
  argCount : m.memory.cell (m.specials.get m.memory Special.specialSelectors) (i * 2 + 1) =
    some (.small a.argCount)
  cls : m.ClassBelow a.argCount a.lookupClass

/-- The machine after an instruction was fetched, at the bytecode after it. -/
def fetchedTo (m : Machine) (pc : Nat) : Machine :=
  { m with
    registers := { m.registers with pc }
    counters := { m.counters with bytecodes := m.counters.bytecodes + 1 } }

end Machine

/-- What an instruction sends, if it sends something. -/
inductive Instruction.Sends (m : Machine) (a : Sending) : Instruction → Prop
  | send {i : Nat} : m.memory.cell m.registers.method (i + 1) = some a.selector →
      m.ClassBelow a.argCount a.lookupClass → Sends m a (.send i a.argCount)
  | sendSuper {i : Nat} {association owner : Value} :
      m.memory.cell m.registers.method (i + 1) = some a.selector →
      m.memory.cell m.registers.method m.registers.literalCount = some association →
      m.memory.cell association Association.value = some owner →
      m.memory.cell owner Class.superclass = some a.lookupClass → Sends m a (.sendSuper i a.argCount)
  | arithmetic {i : Nat} {x y : Value} : Action.stackValue 1 m = .ok x m →
      Action.stackValue 0 m = .ok y m → Action.answerAtOnce i x y = none → m.CallsSpecial i a →
      Sends m a (.arithmetic i)
  | special {i : Nat} {m' : Machine} : Action.quickSpecial i m = .ok false m' →
      m.CallsSpecial (i + 16) a → Sends m a (.special i)
  | jumpIf {condition : Bool} {offset : Int} {x : Value} :
      m.memory.cell m.registers.context m.registers.sp = some x → 0 < m.registers.sp →
      (∀ b, x ≠ m.specials.truth b) → m.specials.get m.memory Special.mustBeBoolean = a.selector →
      a.argCount = 0 → m.ClassBelow 0 a.lookupClass → Sends m a (.jumpIf condition offset)

namespace Action

/-! ### Answers on the spot -/

/-- Without an answer on the spot an arithmetic selector is sent. -/
theorem arithmetic_atOnce : arithmetic i = (do
    let x ← stackValue 1
    let y ← stackValue 0
    (answerAtOnce i x y).getD (sendSpecial i)) := by
  unfold arithmetic
  refine bind_congr fun x => bind_congr fun y => ?_
  cases x with
  | ref => rfl
  | small j =>
    cases y with
    | ref => rfl
    | small k =>
      dsimp only [answerAtOnce]
      cases comparisonResult i j k with
      | some result => rfl
      | none =>
        dsimp only
        split
        · rfl
        · cases (arithmeticResult i j k).bind Value.ofInt? <;> rfl

theorem arithmetic_declined (hx : stackValue 1 m = .ok x m) (hy : stackValue 0 m = .ok y m)
    (h : answerAtOnce i x y = none) : arithmetic i m = sendSpecial i m := by
  rw [arithmetic_atOnce, bind_of_ok hx, bind_of_ok hy, h]
  rfl

/-- An attempt that is declined on the spot has left nothing behind. -/
theorem quickly_declined {attempt : Attempt Value} (hdeclined : Attempt.Yields Eq attempt)
    (h : quickly n attempt m = .ok false m') : m = m' := by
  obtain ⟨found, m₁, hrun, h⟩ := bind_ok.1 h
  cases found with
  | none =>
    obtain ⟨-, rfl⟩ := pure_ok.1 h
    simp only [Attempt.run?] at hrun
    split at hrun
    · cases hrun
    · rename_i herror
      obtain ⟨-, rfl⟩ := EStateM.Result.ok.inj hrun
      exact hdeclined _ _ herror
    · cases hrun
  | some v =>
    obtain ⟨_, _, -, h⟩ := bind_ok.1 h
    exact absurd (pure_ok.1 h).1 (by simp)

theorem quickSize_declined (h : quickSize m = .ok false m') : m = m' := by
  obtain ⟨x, m₁, hx, h⟩ := bind_ok.1 h
  obtain ⟨-, -, rfl⟩ := stackValue_ok.1 hx
  obtain ⟨found, m₂, hsize, h⟩ := bind_ok.1 h
  obtain rfl := indexableSize_within (R := Eq) m found m₂ hsize
  cases found with
  | none => exact (pure_ok.1 h).2
  | some size =>
    dsimp only at h
    split at h
    · obtain ⟨_, _, -, h⟩ := bind_ok.1 h
      obtain ⟨_, _, -, h⟩ := bind_ok.1 h
      exact absurd (pure_ok.1 h).1 (by simp)
    · exact (pure_ok.1 h).2

theorem quickBlock_declined
    (h : (do return (← (Attempt.blockValue n).run?).isSome) m = .ok false m') : m = m' := by
  obtain ⟨found, m₁, hrun, h⟩ := bind_ok.1 h
  obtain ⟨hnone, rfl⟩ := pure_ok.1 h
  simp only [Attempt.run?] at hrun
  split at hrun
  · obtain ⟨rfl, -⟩ := EStateM.Result.ok.inj hrun
    cases hnone
  · rename_i herror
    obtain ⟨-, rfl⟩ := EStateM.Result.ok.inj hrun
    exact Attempt.blockValue_yields _ _ herror
  · cases hrun

/-- What declines on the spot has left nothing behind. -/
theorem quickSpecial_declined (h : quickSpecial i m = .ok false m') : m = m' := by
  unfold quickSpecial at h
  split at h
  · exact quickly_declined Attempt.indexedAt_true_yields h
  · exact quickly_declined Attempt.indexedAtPut_true_yields h
  · exact quickSize_declined h
  · obtain ⟨_, _, -, h⟩ := bind_ok.1 h
    obtain ⟨_, _, -, h⟩ := bind_ok.1 h
    obtain ⟨_, _, -, h⟩ := bind_ok.1 h
    obtain ⟨_, _, -, h⟩ := bind_ok.1 h
    exact absurd (pure_ok.1 h).1 (by simp)
  · obtain ⟨_, _, -, h⟩ := bind_ok.1 h
    obtain ⟨_, _, -, h⟩ := bind_ok.1 h
    obtain ⟨_, _, -, h⟩ := bind_ok.1 h
    exact absurd (pure_ok.1 h).1 (by simp)
  · exact quickly_declined Attempt.blockCopy_yields h
  · exact quickBlock_declined h
  · exact quickBlock_declined h
  · exact (pure_ok.1 h).2

/-! ### One action -/

theorem send_eq (h : m.ClassBelow n a.lookupClass) :
    send a.selector n m = sendToClass a.selector n a.lookupClass m := by
  obtain ⟨receiver, hreceiver, hcls⟩ := h
  unfold send
  rw [bind_of_ok hreceiver, bind_of_ok hcls]

theorem literal_eq {selector : Value} (h : m.memory.cell m.registers.method (i + 1) = some selector) :
    literal i m = .ok selector m := fetch_ok.2 ⟨h, rfl⟩

theorem sendSpecial_eq (h : m.CallsSpecial i a) :
    sendSpecial i m = sendToClass a.selector a.argCount a.lookupClass m := by
  have hselector : specialSelector (i * 2) m = .ok a.selector m := fetch_ok.2 ⟨h.selector, rfl⟩
  have hspecial : special Special.specialSelectors m =
      .ok (m.specials.get m.memory Special.specialSelectors) m := rfl
  have hargCount : fetchInt (m.specials.get m.memory Special.specialSelectors) (i * 2 + 1) m =
      .ok a.argCount m := fetchInt_ok.2 ⟨h.argCount, rfl⟩
  unfold sendSpecial
  rw [bind_of_ok hselector, bind_of_ok hspecial, bind_of_ok hargCount, if_neg (by omega),
    Int.toNat_natCast]
  exact send_eq h.cls

/-- What is no truth value is put back onto the stack. -/
theorem jumpIf_eq {condition : Bool} {offset : Int}
    (hx : m.memory.cell m.registers.context m.registers.sp = some x) (hsp : 0 < m.registers.sp)
    (hne : ∀ b, x ≠ m.specials.truth b) : jumpIf condition offset m =
      send (m.specials.get m.memory Special.mustBeBoolean) 0 m := by
  have hpop : pop m = .ok x (popped m 1) := pop_ok.2 ⟨hx, hsp, rfl⟩
  have htruth (b : Bool) : truth b (popped m 1) = .ok (m.specials.truth b) (popped m 1) := rfl
  have hpush : push x (popped m 1) = .ok () m := push_popped (n := 0) hsp hx
  have hspecial : special Special.mustBeBoolean m =
      .ok (m.specials.get m.memory Special.mustBeBoolean) m := rfl
  unfold jumpIf
  rw [bind_of_ok hpop, bind_of_ok (htruth condition), if_neg (hne condition),
    bind_of_ok (htruth !condition), if_neg (hne !condition), bind_of_ok hpush, bind_of_ok hspecial]

/-- An instruction that sends comes down to one action. -/
theorem execute_sends (h : instruction.Sends m a) :
    execute instruction m = sendToClass a.selector a.argCount a.lookupClass m := by
  cases h with
  | send selector cls => exact (bind_of_ok (literal_eq selector)).trans (send_eq cls)
  | sendSuper selector association owner superclass =>
    refine (bind_of_ok (literal_eq selector)).trans ?_
    unfold sendSuper
    rw [bind_of_ok (registers_ok.2 ⟨rfl, rfl⟩), bind_of_ok (fetch_ok.2 ⟨association, rfl⟩),
      bind_of_ok (fetch_ok.2 ⟨owner, rfl⟩), bind_of_ok (fetch_ok.2 ⟨superclass, rfl⟩)]
  | arithmetic hx hy hnone calls => exact (arithmetic_declined hx hy hnone).trans (sendSpecial_eq calls)
  | special hdeclined calls =>
    obtain rfl := quickSpecial_declined hdeclined
    refine (bind_of_ok hdeclined).trans ?_
    exact sendSpecial_eq calls
  | jumpIf hx hsp hne selector argCount cls =>
    refine (jumpIf_eq hx hsp hne).trans ?_
    rw [selector, argCount]
    exact send_eq cls

/-! ### Which instructions send -/

/-- A result that is no fault, but for a send that has been handed on too often. -/
def Late {α : Type} (r : EStateM.Result Fault Machine α) : Prop :=
  ∀ f m', r = .error f m' → ∃ selector, f = .endlessResend selector

theorem late_ok {α : Type} {x : α} : Late (.ok x m) := fun _ _ h => by cases h

/-- A part that hands nothing on has been got past. -/
theorem bind_late {α β : Type} {x : Action α} {f : α → Action β} {r : EStateM.Result Fault Machine β}
    [hx : Honest (fun _ _ => False) x] (late : Late r) (h : (x >>= f) m = r) :
    ∃ v m₁, x m = .ok v m₁ ∧ f v m₁ = r := by
  cases hrun : x m with
  | ok v m₁ => exact ⟨v, m₁, rfl, (bind_of_ok hrun).symm.trans h⟩
  | error e m₁ =>
    obtain ⟨selector, rfl⟩ := late e m₁ (h.symm.trans (bind_of_error hrun))
    exact (hx.error hrun).elim

variable {r : EStateM.Result Fault Machine Unit} {selector : Value}

theorem send_late (late : Late r) (h : send selector n m = r) : ∃ cls, m.ClassBelow n cls := by
  obtain ⟨receiver, _, hreceiver, h⟩ := bind_late late h
  obtain ⟨-, -, rfl⟩ := stackValue_ok.1 hreceiver
  obtain ⟨cls, _, hcls, -⟩ := bind_late late h
  obtain ⟨-, rfl⟩ := classOf_ok.1 hcls
  exact ⟨cls, receiver, hreceiver, hcls⟩

theorem literal_ok {x : Value} (h : literal i m = .ok x m') :
    m.memory.cell m.registers.method (i + 1) = some x ∧ m = m' := by
  obtain ⟨_, _, hregisters, h⟩ := bind_ok.1 h
  obtain ⟨rfl, rfl⟩ := registers_ok.1 hregisters
  exact fetch_ok.1 h

theorem sendSuper_late (late : Late r) (h : sendSuper selector n m = r) : ∃ association owner cls,
    m.memory.cell m.registers.method m.registers.literalCount = some association ∧
      m.memory.cell association Association.value = some owner ∧
      m.memory.cell owner Class.superclass = some cls := by
  obtain ⟨_, _, hregisters, h⟩ := bind_late late h
  obtain ⟨rfl, rfl⟩ := registers_ok.1 hregisters
  obtain ⟨association, _, hrun, h⟩ := bind_late late h
  obtain ⟨hassociation, rfl⟩ := fetch_ok.1 hrun
  obtain ⟨owner, _, hrun, h⟩ := bind_late late h
  obtain ⟨howner, rfl⟩ := fetch_ok.1 hrun
  obtain ⟨cls, _, hrun, -⟩ := bind_late late h
  obtain ⟨hcls, rfl⟩ := fetch_ok.1 hrun
  exact ⟨association, owner, cls, hassociation, howner, hcls⟩

theorem sendSpecial_late (late : Late r) (h : sendSpecial i m = r) : ∃ a, m.CallsSpecial i a := by
  obtain ⟨selector, _, hrun, h⟩ := bind_late late h
  obtain ⟨hselector, rfl⟩ := fetch_ok.1 hrun
  obtain ⟨_, _, hspecial, h⟩ := bind_late late h
  obtain ⟨rfl, rfl⟩ := special_ok.1 hspecial
  obtain ⟨argCount, _, hrun, h⟩ := bind_late late h
  obtain ⟨hcount, rfl⟩ := fetchInt_ok.1 hrun
  split at h
  · obtain ⟨_, _, hthrow, -⟩ := bind_late late h
    exact (throw_ok.1 hthrow).elim
  · rename_i hle
    obtain ⟨cls, hcls⟩ := send_late late h
    refine ⟨⟨selector, argCount.toNat, cls⟩, hselector, ?_, hcls⟩
    rw [hcount, Int.toNat_of_nonneg (not_lt.1 hle)]

theorem execute_send_late (late : Late r) (h : execute (.send i n) m = r) :
    ∃ a, Instruction.Sends m a (.send i n) := by
  obtain ⟨selector, _, hliteral, h⟩ := bind_late late h
  obtain ⟨hselector, rfl⟩ := literal_ok hliteral
  obtain ⟨cls, hcls⟩ := send_late late h
  exact ⟨⟨selector, n, cls⟩, .send hselector hcls⟩

theorem execute_sendSuper_late (late : Late r) (h : execute (.sendSuper i n) m = r) :
    ∃ a, Instruction.Sends m a (.sendSuper i n) := by
  obtain ⟨selector, _, hliteral, h⟩ := bind_late late h
  obtain ⟨hselector, rfl⟩ := literal_ok hliteral
  obtain ⟨association, owner, cls, hassociation, howner, hcls⟩ := sendSuper_late late h
  exact ⟨⟨selector, n, cls⟩, .sendSuper hselector hassociation howner hcls⟩

/-- An arithmetic selector that is not sent is answered on the spot. -/
theorem arithmetic_late (late : Late r) (h : arithmetic i m = r) :
    (∃ a, Instruction.Sends m a (.arithmetic i)) ∨
      ∃ x y answer, answerAtOnce i x y = some answer ∧ answer m = r := by
  rw [arithmetic_atOnce] at h
  obtain ⟨x, _, hx, h⟩ := bind_late late h
  obtain ⟨y, _, hy, h⟩ := bind_late late h
  obtain ⟨-, -, rfl⟩ := stackValue_ok.1 hx
  obtain ⟨-, -, rfl⟩ := stackValue_ok.1 hy
  cases hanswer : answerAtOnce i x y with
  | some answer =>
    rw [hanswer] at h
    exact .inr ⟨x, y, answer, hanswer, h⟩
  | none =>
    rw [hanswer] at h
    obtain ⟨a, calls⟩ := sendSpecial_late late h
    exact .inl ⟨a, .arithmetic hx hy hanswer calls⟩

/-- A special selector that is not sent is carried out on the spot. -/
theorem special_late (late : Late r) (h : execute (.special i) m = r) :
    (∃ a, Instruction.Sends m a (.special i)) ∨
      ∃ m₁, quickSpecial i m = .ok true m₁ ∧ r = .ok () m₁ := by
  obtain ⟨taken, m₁, hquick, h⟩ := bind_late late h
  cases taken with
  | true => exact .inr ⟨m₁, hquick, h.symm⟩
  | false =>
    obtain rfl := quickSpecial_declined hquick
    obtain ⟨a, calls⟩ := sendSpecial_late late h
    exact .inl ⟨a, .special hquick calls⟩

/-- A conditional jump that comes to a send has found no truth value. -/
theorem jumpIf_late {condition : Bool} {offset : Int} (late : Late r)
    (h : jumpIf condition offset m = r) : (∃ a, Instruction.Sends m a (.jumpIf condition offset)) ∨
      ∃ x m₁, pop m = .ok x m₁ ∧ (r = jump offset m₁ ∨ r = .ok () m₁) := by
  obtain ⟨x, m₁, hpop, h⟩ := bind_late late h
  have htruth (b : Bool) : truth b m₁ = .ok (m₁.specials.truth b) m₁ := rfl
  rw [bind_of_ok (htruth condition)] at h
  split at h
  · exact .inr ⟨x, m₁, hpop, .inl h.symm⟩
  rename_i hne
  rw [bind_of_ok (htruth !condition)] at h
  split at h
  · exact .inr ⟨x, m₁, hpop, .inr h.symm⟩
  rename_i hne'
  obtain ⟨hx, hsp, rfl⟩ := pop_ok.1 hpop
  have hpush : push x (popped m 1) = .ok () m := push_popped (n := 0) hsp hx
  have hspecial : special Special.mustBeBoolean m =
      .ok (m.specials.get m.memory Special.mustBeBoolean) m := rfl
  have hsend : send (m.specials.get m.memory Special.mustBeBoolean) 0 m = r := by
    rw [← h]
    exact ((bind_of_ok hpush).trans (bind_of_ok hspecial)).symm
  obtain ⟨cls, hcls⟩ := send_late late hsend
  refine .inl ⟨⟨m.specials.get m.memory Special.mustBeBoolean, 0, cls⟩, .jumpIf hx hsp ?_ rfl rfl hcls⟩
  intro b
  cases b <;> cases condition
  · exact hne
  · exact hne'
  · exact hne'
  · exact hne

end Action

/-! ### Fetching -/

/-- The machine after a byte was passed. -/
def Machine.skipped (m : Machine) : Machine :=
  m.withRegisters { m.registers with pc := m.registers.pc + 1 }

namespace Action

theorem nextByte_ok {byte : UInt8} (h : nextByte m = .ok byte m') : m' = m.skipped := by
  obtain ⟨_, _, hregisters, h⟩ := bind_ok.1 h
  obtain ⟨rfl, rfl⟩ := registers_ok.1 hregisters
  obtain ⟨_, _, hobject, h⟩ := bind_ok.1 h
  obtain ⟨-, rfl⟩ := object_ok.1 hobject
  obtain ⟨found, m₁, hpeek, h⟩ := bind_ok.1 h
  obtain rfl := peekByte_within (R := Eq) m found m₁ hpeek
  cases found with
  | none => exact (throw_ok.1 h).elim
  | some byte =>
    obtain ⟨_, _, hskip, h⟩ := bind_ok.1 h
    obtain rfl := modifyRegisters_ok.1 hskip
    exact (pure_ok.1 h).2.symm

/-- Nothing but the program counter and the number of bytecodes changes. -/
theorem fetchInstruction_ok (h : fetchInstruction m = .ok instruction m') :
    ∃ pc, m' = m.fetchedTo pc := by
  obtain ⟨bytecode, m₁, hbyte, h⟩ := bind_ok.1 h
  obtain rfl := nextByte_ok hbyte
  obtain ⟨_, m₂, hcount, h⟩ := bind_ok.1 h
  obtain rfl := modifyCounters_ok.1 hcount
  have operand {α : Type} {p : Prop} [Decidable p] {jp : UInt8 → Action α} {b : α} {m : Machine}
      (h : (if p then nextByte >>= jp else pure 0 >>= jp) m = .ok b m') :
      ∃ x pc, jp x (m.withRegisters { m.registers with pc }) = .ok b m' := by
    split at h
    · obtain ⟨x, m₁, hbyte, h⟩ := bind_ok.1 h
      obtain rfl := nextByte_ok hbyte
      exact ⟨x, _, h⟩
    · exact ⟨0, m.registers.pc, h⟩
  obtain ⟨x, pc, h⟩ := operand h
  obtain ⟨y, pc', h⟩ := operand h
  beta_reduce at h
  generalize Instruction.decode? bytecode x y = found at h
  cases found with
  | some instruction => exact ⟨pc', (pure_ok.1 h).2.symm⟩
  | none =>
    obtain ⟨_, _, -, h⟩ := bind_ok.1 h
    exact (throw_ok.1 h).elim

end Action

end Smalltalk
