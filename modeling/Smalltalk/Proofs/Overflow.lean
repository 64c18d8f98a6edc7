import Smalltalk.Proofs.Peripherals
import Smalltalk.Proofs.Resends

/-!
# Steps that stay in range

A step moves values, runs a primitive, or enters a method, and may look at the clock last. Positions in a
method are in range as long as methods are not too long. So from a machine in range a step or a primitive
comes to one in range again; and if it panics at a number that is not immediate, a semaphore was signalled
when its count was the greatest integer.
-/

namespace Smalltalk

open Outcome Rejects

/-- The number is the count of a saturated semaphore, unless the raster engine counts beyond all immediate
integers. -/
def Miscount (n : Int) (m : Machine) : Prop := m.devices.Counts → m.Overruns n

/-! ### Operands of instructions -/

/-- An integer constant is in range. -/
def Constant.IsModest : Constant → Prop
  | .integer n => Value.InRange n
  | _ => True

/-- An instruction has no great integers in it. -/
def Instruction.IsModest : Instruction → Prop
  | .pushConstant c | .returnConstant c => c.IsModest
  | .jump offset | .longJump offset | .jumpIf _ offset => offset ≤ 1024
  | _ => True

theorem Instruction.isModest_constant {index : Nat} (h : index < 8) : (constant index).IsModest := by
  unfold constant
  split
  all_goals first
    | trivial
    | exact Value.inRange_iff.2 (by omega)

theorem Instruction.isModest_ite {c : Prop} [Decidable c] {a b : Option Instruction}
    (ha : c → ∀ i, a = some i → i.IsModest) (hb : ¬c → ∀ i, b = some i → i.IsModest) :
    ∀ i, (if c then a else b) = some i → i.IsModest := by
  split
  · exact ha ‹_›
  · exact hb ‹_›

theorem Instruction.isModest_of_decode? {bytecode x y : UInt8} :
    ∀ i, decode? bytecode x y = some i → i.IsModest := by
  have hb := bytecode.toNat_lt
  have hx := x.toNat_lt
  have hdouble : (ofDouble x y).IsModest := by
    unfold ofDouble
    split <;> trivial
  unfold decode?
  dsimp only
  repeat' refine isModest_ite (fun _ => ?_) fun _ => ?_
  all_goals rintro i ⟨⟩
  all_goals first
    | with_reducible exact hdouble
    | simp only [IsModest]
  all_goals first
    | with_reducible exact isModest_constant (by omega)
    | omega

namespace Action

variable {α β : Type} {y : Action α} {f : α → Action β} {P : α → Prop} {Q : β → Machine → Prop}
  {I J : Machine → Prop} {slack k n limit number : Nat} {v x cls selector receiver method target : Value}

/-- An action leaves a machine in range. A number that is rejected is the count of a saturated semaphore,
unless the raster engine miscounts. -/
abbrev Confines (slack : Nat) (y : Action α) : Prop :=
  Ends (faulted Miscount) (Machine.Ranged slack) y fun _ m => m.Ranged 0

theorem confines (hy : Ends (faulted Miscount) (Machine.Ranged slack) y (keeping (Machine.Ranged k) P)) :
    Confines slack y := hy.mono fun _ _ h => h.1.mono (Nat.zero_le _)

theorem checkInterrupts_confines : Confines slack checkInterrupts :=
  confines (ends_checkInterrupts fun _ _ h _ => h)

/-! ### Sends -/

theorem keeps_createMessage (hselector : selector.Ranged) (hcls : cls.Ranged) :
    Keeps Miscount slack (createMessage selector n cls) fun v => v.Ranged := by
  refine .next keeps_stackValues fun arguments harguments => ?_
  refine .next keeps_special fun arrayClass harrayClass => ?_
  refine .next (keeps_allocate ⟨harrayClass, ?_, fun x hx => ?_⟩) fun array harray => ?_
  · exact harguments.2
  · exact harguments.1 x (List.mem_toArray.1 hx)
  have hmessage : Keeps (fun _ _ => False) slack (do instantiate (← special Special.classMessage) 0)
      fun v => v.Ranged := .next keeps_special fun _ _ => keeps_instantiate (Nat.zero_le _)
  refine .next (keeps_withPins hmessage) fun message hmessage => ?_
  refine .next (keeps_store hselector) fun _ _ => ?_
  refine .next (keeps_store harray) fun _ _ => .next keeps_glance fun _ _ => ?_
  exact .ite (fun _ => .next (keeps_store hcls) fun _ _ => .answer hmessage) fun _ =>
    .answer hmessage

theorem keeps_findSelector (hselector : selector.Ranged) (hcls : cls.Ranged) :
    Keeps Miscount slack (findSelector selector n cls) fun _ => True := by
  refine .next keeps_lookup fun found _ => ?_
  cases found with
  | some e => exact .answer trivial
  | none =>
    refine .next keeps_glance fun report _ => .ite (fun _ => ends_throw rfl) fun _ => ?_
    refine .next keeps_modifyCounters fun _ _ => ?_
    refine .next (keeps_createMessage hselector hcls) fun message hmessage => ?_
    refine .next (keeps_popThenPush hmessage) fun _ _ => .next keeps_lookup fun found _ => ?_
    cases found with
    | some e => exact .answer trivial
    | none => exact ends_throw rfl

/-- A method starts at its first byte, with a frame that its context has room for. -/
theorem ends_enterMethod (hreceiver : receiver.Ranged) : Ends (faulted Miscount) (Machine.Ranged slack)
    (enterMethod receiver method n) (keeping (Machine.Ranged 0) fun _ => True) := by
  refine .next keeps_get fun before _ => .next (P := fun _ => method.Ranged)
    (keeps_look fun header m _ hrun => ?_) fun header hmethod => ?_
  · exact Value.Ranged.of_isLive (Machine.isLive_of_header (ofExcept_ok.1 hrun).1)
  refine .next (keeps_withPins keeps_allocateContext) fun context hcontext => ?_
  refine .next keeps_nil fun nil hnil => ?_
  refine .next keeps_registers fun r hr => .next keeps_stackValues fun frame hframe => ?_
  have found : Ends (faulted Miscount) (Machine.Ranged slack) (object context) fun o m =>
      m.Ranged slack ∧ m.memory.get? context = some o :=
    keeps_object.of_ok fun _ _ _ _ h hrun => ⟨h.1, (object_ok.1 hrun).2 ▸ (object_ok.1 hrun).1⟩
  refine .bind found fun o => .ite (fun _ => .throw fun _ hm => faulted_of_accepts hm.1.memory rfl)
    fun hsize => ?_
  have hfits : Context.receiver + max frame.toArray.size (header.tempCount + 1) ≤ o.pointers.size := by
    rw [List.size_toArray]
    exact not_lt.1 hsize
  have filled : Ends (faulted Miscount) (fun m => m.Ranged slack ∧ m.memory.get? context = some o)
      (modifyMemory fun m => m.modify context fun o =>
        fillFrame o r.context method nil frame.toArray header.tempCount)
      (keeping (Machine.Ranged slack) fun _ => True) := by
    refine ⟨fun m hm => ⟨hm.1.withMemory (hm.1.memory.modify fun o' ho' => ?_), trivial⟩⟩
    obtain rfl : o = o' := Option.some.inj (hm.2.symm.trans ho')
    exact (hm.1.memory _ _ ho').fillFrame hr.context hmethod hnil
      (fun x hx => hframe.1 x (List.mem_toArray.1 hx)) hfits
  refine .next filled fun _ _ => .next keeps_popN fun _ _ => ?_
  refine .next (keeps_modify fun _ => ⟨rfl, rfl, rfl, fun _ hv => hv, rfl⟩) fun _ _ => ?_
  refine .next keeps_saveRegisters fun _ _ => .next (ends_modifyRegisters fun _ _ => ?_) fun _ _ =>
    keeps_saveRegisters
  have hliterals := header.literalCount_lt
  have htemps := header.tempCount_lt
  have hreceiver' : Context.receiver = 5 := rfl
  refine ⟨hcontext, hcontext, hmethod, hreceiver, hliterals, ?_, ?_⟩ <;> dsimp only <;> omega

theorem activateMethod_confines (hreceiver : receiver.Ranged) :
    Confines slack (activateMethod receiver method n) :=
  .next (ends_enterMethod hreceiver) fun _ _ => checkInterrupts_confines

theorem keeps_quickPrimitive : Keeps Miscount slack (quickPrimitive number) fun t : Trial =>
    t = .handled ∨ t = .unhandled := by
  refine .ite (fun _ => .answer (.inl rfl)) fun _ => .next keeps_get fun m hm => ?_
  have answered : ∀ {v : Value}, v.Ranged → Keeps Miscount slack (do
      popThenPush 1 v
      return .handled) fun t : Trial => t = .handled ∨ t = .unhandled := fun hv =>
    .next (keeps_popThenPush hv) fun _ _ => .answer (.inl rfl)
  cases hconstant : quickConstant m.specials number with
  | some v =>
    refine answered ?_
    have f := hm.outfitted
    unfold quickConstant at hconstant
    split at hconstant
    · exact Option.some.inj hconstant ▸ f.trueObject
    · exact Option.some.inj hconstant ▸ f.falseObject
    · exact Option.some.inj hconstant ▸ f.nil
    iterate 4 exact Option.some.inj hconstant ▸ Value.ranged_small (by decide)
    · cases hconstant
  | none =>
    refine .next keeps_glance fun receiver _ => .next (P := fun found => ∀ o, found = some o → o.Ranged)
      (keeps_look fun _ _ hm hrun o ho => hm.memory _ _ ((object?_ok.1 hrun).1.trans ho)) fun found hfound => ?_
    cases hfield : found.bind fun o => o.pointers[number - 264]? with
    | some v =>
      obtain ⟨o, ho, hv⟩ := Option.bind_eq_some_iff.1 hfield
      exact answered ((hfound o ho).field hv)
    | none => exact .answer (.inr rfl)

/-- How the trial of a primitive leaves a machine. -/
def Tried (slack : Nat) : Trial → Machine → Prop
  | .handled, m => m.Ranged 0
  | .resend selector _ cls, m => m.Ranged slack ∧ selector.Ranged ∧ cls.Ranged
  | .unhandled, m => m.Ranged slack

/-- What is left by an attempt that may be declined. -/
def Judged {α : Type} (slack : Nat) (Q : α → Machine → Prop) : Option α → Machine → Prop
  | some a, m => Q a m
  | none, m => m.Ranged slack

theorem ends_run? {z : Attempt α} {R : α → Machine → Prop} (hz : Ends (refused Miscount slack) I z R) :
    Ends (faulted Miscount) I z.run? (Judged slack R) := by
  refine ⟨fun m hm => ?_⟩
  unfold Attempt.run?
  cases hrun : z m with
  | ok a m' => exact hz.ok hm hrun
  | error e m' =>
    have hend := hz.error hm hrun
    cases e with
    | declined => exact hend
    | fault f => exact hend

theorem ends_action {p : Primitive} (hp : p ∈ Primitive.all) (hslack : 2 ≤ slack) :
    Ends (faulted Miscount) (Machine.Ranged slack) (p.action n).run?
      (Judged slack fun c m => m.Concluded slack c) := by
  refine ends_run? ((Primitive.all_conclude hslack p hp n).weaken fun e m he => ?_)
  cases e with
  | declined => exact he
  | fault f => exact ⟨he.1, fun k hk hcounts => (he.2 k hk hcounts).2⟩

theorem ends_tryPrimitive (hslack : 2 ≤ slack) : Ends (faulted Miscount) (Machine.Ranged slack)
    (tryPrimitive number n) (Tried slack) := by
  refine .ite (fun _ => ?_) fun _ => ?_
  · refine keeps_quickPrimitive.mono fun t m h => ?_
    obtain ⟨hm, rfl | rfl⟩ := h
    · exact hm.mono (Nat.zero_le _)
    · exact hm
  cases hfind : Primitive.find? number with
  | none => exact .pure fun _ hm => hm
  | some p =>
    refine .bind (ends_action (Primitive.mem_all_of_find? hfind) hslack) fun found => ?_
    match found with
    | some .done => exact .pure fun _ hm => hm
    | some (.resend selector count cls) => exact .pure fun _ hm => hm
    | none =>
      exact .next (J := Machine.Ranged slack) keeps_modifyCounters fun _ _ => .pure fun _ hm => hm

/-- A send may be handed on, but each time the machine is in range. -/
theorem sendWithin_confines (hslack : 2 ≤ slack) (hselector : selector.Ranged) (hcls : cls.Ranged) :
    Confines slack (sendWithin limit selector n cls) := by
  induction limit generalizing selector n cls with
  | zero => exact ends_throw rfl
  | succ limit ih =>
    refine .next keeps_modifyCounters fun _ _ => .next keeps_stackValue fun receiver hreceiver => ?_
    refine .next keeps_glance fun before _ => .next (keeps_findSelector hselector hcls) fun entry _ => ?_
    -- both branches go on in the same way
    refine .join (fun rest => .ite (fun _ => .next (keeps_modify fun _ => ?_) fun u _ => rest u) fun _ => rest ())
      fun _ => ?_
    · exact ⟨rfl, rfl, rfl, fun _ hv => hv, rfl⟩
    refine .next keeps_glance fun r _ => ?_
    refine .join (fun rest => .ite (fun _ => .bind (ends_tryPrimitive hslack) rest) fun _ =>
      .bind (.pure fun _ hm => hm) rest) fun trial => ?_
    rcases trial with _ | ⟨selector, count, cls⟩ | _
    · exact .pure fun _ hm => hm
    · exact ⟨fun m hm => (ih hm.2.1 hm.2.2).run m hm.1⟩
    · exact activateMethod_confines hreceiver

theorem sendToClass_confines (hslack : 2 ≤ slack) (hselector : selector.Ranged) (hcls : cls.Ranged) :
    Confines slack (sendToClass selector n cls) :=
  .next keeps_glance fun _ _ => sendWithin_confines hslack hselector hcls

theorem send_confines (hslack : 2 ≤ slack) (hselector : selector.Ranged) :
    Confines slack (send selector n) :=
  .next keeps_glance fun _ _ => .next keeps_classOf fun _ hcls => sendToClass_confines hslack hselector hcls

theorem sendSuper_confines (hslack : 2 ≤ slack) (hselector : selector.Ranged) :
    Confines slack (sendSuper selector n) :=
  .next keeps_glance fun _ _ => .next keeps_glance fun _ _ => .next keeps_glance fun _ _ =>
    .next keeps_fetch fun _ hcls => sendToClass_confines hslack hselector hcls.2

theorem sendSpecial_confines (hslack : 2 ≤ slack) : Confines slack (sendSpecial n) := by
  have selected : Keeps Miscount slack (specialSelector (n * 2)) fun v => v.Ranged :=
    .next keeps_glance fun _ _ => keeps_fetch.mono fun _ _ h => ⟨h.1, h.2.2⟩
  refine .next selected fun selector hselector => .next keeps_glance fun _ _ => .next keeps_glance fun _ _ => ?_
  exact .ite (fun _ => ends_throw rfl) fun _ =>
    send_confines hslack hselector

/-- A primitive that hands on a send has left a machine in range. -/
theorem runPrimitive_confines (hslack : 2 ≤ slack) : Confines slack (runPrimitive number n) := by
  unfold runPrimitive
  cases hfind : Primitive.find? number with
  | none => exact .pure fun _ hm => hm.mono (Nat.zero_le _)
  | some p =>
    refine .bind (ends_action (Primitive.mem_all_of_find? hfind) hslack) fun found => ?_
    match found with
    | some .done => exact .pure fun _ hm => hm
    | some (.resend selector count cls) =>
      refine .bind (R := fun _ m => m.Ranged 0) ?_ fun _ => .pure fun _ hm => hm
      exact ⟨fun m hm => (sendWithin_confines hslack hm.2.1 hm.2.2).run m hm.1⟩
    | none => exact .pure fun _ (hm : Machine.Ranged slack _) => hm.mono (Nat.zero_le _)

/-! ### Returns -/

theorem keeps_sever : Keeps Miscount slack (sever v) fun _ => True := by
  refine .next keeps_nil fun nil hnil => .next (keeps_store hnil) fun _ _ => ?_
  refine .next (keeps_store hnil) fun _ _ => .next keeps_glance fun _ _ => ?_
  refine .ite (fun _ => ?_) fun _ => .answer trivial
  refine .next (keeps_modify fun _ => ?_) fun _ _ => keeps_recycleContext
  exact ⟨rfl, rfl, rfl, fun _ hv => hv, rfl⟩

/-- A return loads the registers of a context. -/
theorem ends_returnTo (hv : v.Ranged) (htarget : target.Ranged) : Ends (faulted Miscount)
    (Machine.Ranged slack) (returnTo v target) (keeping (Machine.Ranged 0) fun _ => True) := by
  refine .next keeps_glance fun nil _ => .ite (fun _ => ends_throw rfl) fun _ => ?_
  refine .next keeps_glance fun _ _ => .ite (fun _ => ends_throw rfl) fun _ => ?_
  refine .next keeps_glance fun path _ => .next (.forM fun _ _ => keeps_sever) fun _ _ => ?_
  exact .next (ends_takeUp htarget) fun _ _ => .next ends_loadRegisters fun _ _ => keeps_push hv

/-! ### Places and jumps -/

theorem keeps_literal : Keeps Miscount slack (literal n) fun v => v.Ranged :=
  .next keeps_glance fun _ _ => keeps_fetch.mono fun _ _ h => ⟨h.1, h.2.2⟩

theorem keeps_readVariable {place : Variable} : Keeps Miscount slack (readVariable place) fun v => v.Ranged := by
  have field : ∀ {v : Value} {i : Nat}, Keeps Miscount slack (fetch v i) fun x => x.Ranged :=
    keeps_fetch.mono fun _ _ h => ⟨h.1, h.2.2⟩
  cases place with
  | field index => exact .next keeps_glance fun _ _ => field
  | temporary index => exact .next keeps_glance fun _ _ => field
  | literal index => exact keeps_literal
  | global index => exact .next keeps_glance fun _ _ => field

theorem keeps_writeVariable {place : Variable} (hv : v.Ranged) :
    Keeps Miscount slack (writeVariable v place) fun _ => True := by
  have stored : ∀ {w : Value} {i : Nat}, Keeps Miscount slack (store w i v) fun _ => True :=
    .done (keeps_store hv)
  cases place with
  | field index => exact .next keeps_glance fun _ _ => stored
  | temporary index => exact .next keeps_glance fun _ _ => stored
  | literal index => exact .next keeps_glance fun _ _ => ends_throw rfl
  | global index => exact .next keeps_glance fun _ _ => stored

theorem keeps_constantValue {c : Constant} (hc : c.IsModest) :
    Keeps Miscount slack (constantValue c) fun v => v.Ranged := by
  cases c with
  | receiver => exact .next keeps_registers fun _ hr => .answer hr.receiver
  | true => exact keeps_truth
  | false => exact keeps_truth
  | nil => exact keeps_nil
  | integer n => exact .answer (Value.ranged_small hc)

/-- A jump uses up some of the slack. -/
theorem ends_jump {offset : Int} (hoffset : offset ≤ n) (hslack : k + n ≤ slack) : Ends (faulted Miscount)
    (Machine.Ranged slack) (jump offset) (keeping (Machine.Ranged k) fun _ => True) := by
  have hheap : KeepsHeap Miscount (jump offset) :=
    .next heap_look fun _ _ => .ite (fun _ => heap_throw rfl) fun _ => heap_modifyRegisters
  refine (hheap.pre fun _ hm => hm.memory).of_ok fun m u m' hm _ hrun => ?_
  obtain ⟨r, m₁, hregisters, hrun⟩ := bind_ok.1 hrun
  obtain ⟨rfl, rfl⟩ := registers_ok.1 hregisters
  dsimp only at hrun
  split at hrun
  · obtain ⟨_, _, hthrow, -⟩ := bind_ok.1 hrun
    exact (throw_ok.1 hthrow).elim
  · obtain rfl := modifyRegisters_ok.1 hrun
    have hr := hm.registers
    have hpc := hr.pc
    refine ⟨hm.withRegisters ⟨hr.context, hr.home, hr.method, hr.receiver, hr.literals, ?_, hr.sp⟩, trivial⟩
    dsimp only
    omega

theorem ends_skipByte (hslack : k + 1 ≤ slack) : Ends (faulted Miscount) (Machine.Ranged slack) skipByte
    (keeping (Machine.Ranged k) fun _ => True) := by
  refine ends_modifyRegisters fun r hr => ?_
  have hpc := hr.pc
  refine ⟨hr.context, hr.home, hr.method, hr.receiver, hr.literals, ?_, hr.sp⟩
  dsimp only
  omega

theorem ends_nextByte (hslack : k + 1 ≤ slack) : Ends (faulted Miscount) (Machine.Ranged slack) nextByte
    (keeping (Machine.Ranged k) fun _ => True) := by
  refine .next keeps_glance fun _ _ => .next keeps_glance fun _ _ => .next keeps_glance fun found _ => ?_
  cases found with
  | none => exact ends_throw rfl
  | some byte => exact .next (ends_skipByte hslack) fun _ _ => .answer trivial

theorem jumpIf_confines {condition : Bool} {offset : Int} (hoffset : offset ≤ (1024 : Nat)) :
    Confines 2048 (jumpIf condition offset) := by
  refine .next keeps_pop fun x hx => .next keeps_glance fun _ _ => .ite (fun _ => ?_) fun _ => ?_
  · exact confines (ends_jump (k := 0) hoffset (by decide))
  refine .next keeps_glance fun _ _ => .ite (fun _ => .pure fun _ hm => hm.mono (Nat.zero_le _)) fun _ => ?_
  exact .next (keeps_push hx) fun _ _ => .next keeps_special fun _ hselector =>
    send_confines (by decide) hselector

/-- The conditional jump that follows a comparison goes no further than others. -/
theorem answerComparison_confines {result : Bool} : Confines 2048 (answerComparison result) := by
  have answered : ∀ {slack : Nat}, Confines slack (do push (← truth result)) := fun {_} =>
    .next keeps_truth fun _ hv => confines (keeps_push hv)
  refine .next keeps_popN fun _ _ => .next keeps_glance fun found _ => ?_
  cases found with
  | none => exact answered
  | some next =>
    refine .ite (fun hnext => ?_) fun _ => .ite (fun _ => ?_) fun _ => answered
    · refine .next (ends_skipByte (k := 2047) (by decide)) fun _ _ => .next keeps_modifyCounters fun _ _ => ?_
      refine .ite (fun _ => confines (ends_jump (n := 8) (k := 0) ?_ (by decide))) fun _ => ?_
      · have hle := UInt8.le_iff_toNat_le.1 hnext.2
        have hlast : (159 : UInt8).toNat = 159 := rfl
        omega
      · exact .pure fun _ hm => hm.mono (Nat.zero_le _)
    · refine .next (ends_skipByte (k := 2047) (by decide)) fun _ _ => .next keeps_modifyCounters fun _ _ => ?_
      refine .next (ends_nextByte (k := 2046) (by decide)) fun low _ => ?_
      refine .ite (fun _ => confines (ends_jump (n := 1024) (k := 0) ?_ (by decide))) fun _ => ?_
      · have := low.toNat_lt
        omega
      · exact .pure fun _ hm => hm.mono (Nat.zero_le _)

theorem arithmetic_confines : Confines 2048 (arithmetic n) := by
  have sent : Confines 2048 (sendSpecial n) := sendSpecial_confines (by decide)
  refine .next keeps_stackValue fun x hx => .next keeps_stackValue fun y hy => ?_
  match x, y with
  | .small a, .small b =>
    dsimp only
    cases comparisonResult n a b with
    | some result => exact answerComparison_confines
    | none =>
      refine .ite (fun _ => ?_) fun _ => ?_
      · exact .next (keeps_makePoint hx hy) fun _ hv => confines (keeps_popThenPush hv)
      cases hresult : (arithmeticResult n a b).bind Value.ofInt? with
      | some v =>
        obtain ⟨k, -, hk⟩ := Option.bind_eq_some_iff.1 hresult
        exact confines (keeps_popThenPush (Value.ranged_of_ofInt? hk))
      | none => exact sent
  | .ref .., _ => exact sent
  | .small _, .ref .. => exact sent

/-! ### Instructions -/

/-- After a special selector that was carried out nothing is left of the slack. -/
def Answered (slack : Nat) (b : Bool) (m : Machine) : Prop := m.Ranged (if b then 0 else slack)

theorem ends_quickly {z : Attempt Value} (hz : Attempt.Keeps Miscount slack z fun v => v.Ranged) :
    Ends (faulted Miscount) (Machine.Ranged slack) (quickly n z) (Answered slack) := by
  refine .bind (ends_run? hz) fun found => ?_
  cases found with
  | none => exact .pure fun _ hm => hm
  | some v =>
    have answered (hv : v.Ranged) : Ends (faulted Miscount) (Machine.Ranged slack) (do
        popThenPush n v
        return true) (Answered slack) :=
      .next (keeps_popThenPush hv) fun _ _ => .pure fun _ hm => hm.mono (Nat.zero_le _)
    exact ⟨fun m hm => (answered hm.2).run m hm.1⟩

theorem ends_quickSize : Ends (faulted Miscount) (Machine.Ranged slack) quickSize (Answered slack) := by
  refine .next keeps_glance fun _ _ => .next keeps_glance fun found _ => ?_
  cases found with
  | none => exact .pure fun _ hm => hm
  | some size =>
    refine .ite (fun _ => .next keeps_positive32 fun _ hv => .next (keeps_popThenPush hv) fun _ _ => ?_) fun _ =>
      .pure fun _ hm => hm
    exact .pure fun _ hm => hm.mono (Nat.zero_le _)

theorem ends_quickBlock : Ends (faulted Miscount) (Machine.Ranged slack)
    (do return (← (Attempt.blockValue n).run?).isSome) (Answered slack) := by
  refine .bind (ends_run? Attempt.ends_blockValue) fun found => ?_
  cases found with
  | none => exact .pure fun _ hm => hm
  | some _ => exact .pure fun _ hm => hm.1

theorem ends_quickSpecial (hslack : 2 ≤ slack) : Ends (faulted Miscount) (Machine.Ranged slack) (quickSpecial n)
    (Answered slack) := by
  have answered : Ends (faulted Miscount) (Machine.Ranged slack) (pure true : Action Bool) (Answered slack) :=
    .pure fun _ hm => hm.mono (Nat.zero_le _)
  unfold quickSpecial
  split
  · exact ends_quickly Attempt.keeps_indexedAt
  · exact ends_quickly Attempt.keeps_indexedAtPut
  · exact ends_quickSize
  · exact .next keeps_glance fun _ _ => .next keeps_glance fun _ _ => .next keeps_truth fun _ hv =>
      .next (keeps_popThenPush hv) fun _ _ => answered
  · exact .next keeps_glance fun _ _ => .next keeps_classOf fun _ hv =>
      .next (keeps_popThenPush hv) fun _ _ => answered
  · exact ends_quickly (Attempt.keeps_blockCopy hslack)
  · exact ends_quickBlock
  · exact ends_quickBlock
  · exact .pure fun _ hm => hm

theorem execute_confines {i : Instruction} (hi : i.IsModest) : Confines 2048 (execute i) := by
  have field : ∀ {v : Value} {i : Nat}, Keeps Miscount 2048 (fetch v i) fun x => x.Ranged :=
    keeps_fetch.mono fun _ _ h => ⟨h.1, h.2.2⟩
  cases i with
  | push place => exact .next keeps_readVariable fun _ hv => confines (keeps_push hv)
  | pushConstant c => exact .next (keeps_constantValue hi) fun _ hv => confines (keeps_push hv)
  | pushContext =>
    exact .next (keeps_modify fun _ => ⟨rfl, rfl, rfl, fun _ hv => hv, rfl⟩) fun _ _ =>
      .next keeps_registers fun _ hr => confines (keeps_push hr.context)
  | store place => exact .next keeps_stackValue fun _ hv => confines (keeps_writeVariable hv)
  | popInto place => exact .next keeps_pop fun _ hv => confines (keeps_writeVariable hv)
  | returnConstant c =>
    exact .next (keeps_constantValue hi) fun _ hv => .next keeps_glance fun _ _ =>
      .next field fun _ htarget => confines (ends_returnTo hv htarget)
  | returnTop | blockReturn =>
    exact .next keeps_pop fun _ hv => .next keeps_glance fun _ _ =>
      .next field fun _ htarget => confines (ends_returnTo hv htarget)
  | send index argCount => exact .next keeps_literal fun _ hv => send_confines (by decide) hv
  | sendSuper index argCount => exact .next keeps_literal fun _ hv => sendSuper_confines (by decide) hv
  | pop => exact .next keeps_pop fun _ _ => .pure fun _ hm => hm.mono (Nat.zero_le _)
  | duplicate => exact .next keeps_stackValue fun _ hv => confines (keeps_push hv)
  | jump offset => exact confines (ends_jump (n := 1024) (k := 0) hi (by decide))
  | longJump offset =>
    refine .next (ends_jump (n := 1024) (k := 0) hi (by decide)) fun _ _ => .ite (fun _ => ?_) fun _ => ?_
    · exact checkInterrupts_confines
    · exact .pure fun _ hm => hm.mono (Nat.zero_le _)
  | jumpIf condition offset => exact jumpIf_confines hi
  | arithmetic index => exact arithmetic_confines
  | special index =>
    refine .bind (ends_quickSpecial (by decide)) fun answered => ?_
    cases answered with
    | true => exact .pure fun _ hm => hm
    | false => exact sendSpecial_confines (by decide)

end Action

/-! ### Steps -/

/-- The active method is shorter than `2^29` bytes. -/
def Machine.Short (m : Machine) : Prop :=
  ∀ bytes, (m.memory.get? m.registers.method).bind Object.bytes? = some bytes → bytes.size < 0x20000000

namespace Action

/-- A byte that is fetched is in the method. -/
theorem nextByte?_of_ok {m m' : Machine} {byte : UInt8} (h : nextByte m = .ok byte m') :
    m.nextByte? = some byte := by
  obtain ⟨_, _, hregisters, h⟩ := bind_ok.1 h
  obtain ⟨rfl, rfl⟩ := registers_ok.1 hregisters
  obtain ⟨_, _, hobject, h⟩ := bind_ok.1 h
  obtain ⟨-, rfl⟩ := object_ok.1 hobject
  have hpeek : peekByte m = .ok m.nextByte? m := rfl
  rw [bind_of_ok hpeek] at h
  cases hfound : m.nextByte? with
  | none =>
    rw [hfound] at h
    exact (throw_ok.1 h).elim
  | some found =>
    rw [hfound] at h
    obtain ⟨_, _, -, h⟩ := bind_ok.1 h
    exact congrArg some (pure_ok.1 h).1

/-- The first byte is in the method. -/
theorem ends_firstByte : Ends (faulted Miscount) (fun m => m.Ranged 0 ∧ m.Short) nextByte
    (keeping (Machine.Ranged 2050) fun _ => True) := by
  have hheap : KeepsHeap Miscount nextByte := by
    refine .next heap_look fun _ _ => .next heap_look fun _ _ => .next heap_look fun found _ => ?_
    cases found with
    | none => exact heap_throw rfl
    | some byte => exact .next heap_modifyRegisters fun _ _ => .answer trivial
  refine (hheap.pre fun _ hm => hm.1.memory).of_ok fun m byte m' hm _ hrun => ?_
  have hpc : m.registers.pc < 0x20000000 := by
    obtain ⟨bytes, hbytes, hbyte⟩ := Option.bind_eq_some_iff.1 (nextByte?_of_ok hrun)
    exact (Array.getElem?_eq_some_iff.1 hbyte).1.trans (hm.2 bytes hbytes)
  obtain rfl := nextByte_ok hrun
  have hr := hm.1.registers
  have hliterals := hr.literals
  refine ⟨hm.1.withRegisters ⟨hr.context, hr.home, hr.method, hr.receiver, hr.literals, ?_, hr.sp⟩, trivial⟩
  dsimp only
  omega

/-- An operand takes a byte, if there is one. -/
theorem ends_operand {p : Prop} [Decidable p] {rest : UInt8 → Action α} {Q : α → Machine → Prop}
    (hslack : k + 1 ≤ slack) (hrest : ∀ x, Ends (faulted Miscount) (Machine.Ranged k) (rest x) Q) :
    Ends (faulted Miscount) (Machine.Ranged slack) (if p then nextByte >>= rest else pure 0 >>= rest) Q :=
  .ite (fun _ => .next (ends_nextByte hslack) fun x _ => hrest x) fun _ =>
    .bind (.pure fun _ hm => hm.mono ((Nat.le_succ k).trans hslack)) hrest

theorem ends_fetchInstruction : Ends (faulted Miscount) (fun m => m.Ranged 0 ∧ m.Short) fetchInstruction
    (keeping (Machine.Ranged 2048) fun i => i.IsModest) := by
  refine .next ends_firstByte fun bytecode _ => .next keeps_modifyCounters fun _ _ => ?_
  refine ends_operand (k := 2049) (by decide) fun x => ends_operand (k := 2048) (by decide) fun y => ?_
  dsimp only
  cases hdecode : Instruction.decode? bytecode x y with
  | none => exact .next keeps_glance fun _ _ => ends_throw rfl
  | some i => exact .answer (Instruction.isModest_of_decode? i hdecode)

/-- A step leaves a machine in range. -/
theorem step_confines : Ends (faulted Miscount) (fun m => m.Ranged 0 ∧ m.Short) step
    fun _ m => m.Ranged 0 := by
  rw [step_eq]
  exact .next ends_fetchInstruction fun _ hi => execute_confines hi

end Action

/-! ### Machines in range -/

/-- The instruction pointer of a machine in range stays storable if it is in a short method. -/
theorem Machine.Ranged.ahead {m : Machine} (h : m.Ranged 0) (hpc : m.registers.pc ≤ 0x20000000) :
    m.Ranged 2 := by
  have hr := h.registers
  have hliterals := hr.literals
  refine ⟨h.memory, ⟨hr.context, hr.home, hr.method, hr.receiver, hr.literals, ?_, hr.sp⟩, h.outfitted⟩
  omega

/-- From a machine in range a step or a primitive leads to one in range again, as long as methods are short:
every immediate integer that it makes is made of a number in range. If a number is rejected instead, it is
the count of a semaphore that is saturated already, as long as the devices count in immediate integers; and
a signal rejects that number for every such semaphore. A step may signal semaphores, and of the primitives
only number 85 does. -/
theorem Machine.Ranged.confined {m : Machine} (h : m.Ranged 0) :
    (m.Short → match Action.step m with
      | .ok _ m' => m'.Ranged 0
      | .error e m' => m'.memory.Ranged ∧
          ∀ k, e = .panic (.notImmediate k) → m'.devices.Counts → m'.Overruns k) ∧
    (m.registers.pc ≤ 0x20000000 → ∀ p ∈ Primitive.all, ∀ n, match p.action n m with
      | .ok .done m' => m'.Ranged 0
      | .ok (.resend selector _ cls) m' => m'.Ranged 0 ∧ selector.Ranged ∧ cls.Ranged
      | .error .declined m' => m'.Ranged 0
      | .error (.fault e) m' => m'.memory.Ranged ∧
          ∀ k, e = .panic (.notImmediate k) → m'.devices.Counts → p.number = 85 ∧ m'.Overruns k) ∧
    (m.registers.pc ≤ 0x20000000 → ∀ number n, match Action.runPrimitive number n m with
      | .ok _ m' => m'.Ranged 0
      | .error e m' => m'.memory.Ranged ∧
          ∀ k, e = .panic (.notImmediate k) → m'.devices.Counts → m'.Overruns k) ∧
    ∀ semaphore k m', Action.signal semaphore m = .error (.panic (.notImmediate k)) m' ↔
      m.Saturated semaphore ∧ k = Value.smallMax + 1 ∧ m' = m := by
  have calm : ∀ {m' : Machine} {slack : Nat}, m'.Ranged slack → m'.Ranged 0 := fun hm =>
    hm.mono (Nat.zero_le _)
  refine ⟨fun hshort => ?_, fun hpc p hp n => ?_, fun hpc number n => ?_, fun _ _ _ => Action.signal_panics_iff h⟩
  · cases hrun : Action.step m with
    | ok _ m' => exact Action.step_confines.ok ⟨h, hshort⟩ hrun
    | error e m' =>
      obtain ⟨hmemory, hrejected⟩ := Action.step_confines.error ⟨h, hshort⟩ hrun
      exact ⟨hmemory, fun k hk => hrejected k (Fault.rejected?_eq_some.2 hk)⟩
  · have hconcludes := Primitive.all_conclude (le_refl 2) p hp n
    cases hrun : p.action n m with
    | ok c m' =>
      have hend := hconcludes.ok (h.ahead hpc) hrun
      cases c with
      | done => exact hend
      | resend selector _ cls => exact ⟨calm hend.1, hend.2⟩
    | error e m' =>
      have hend := hconcludes.error (h.ahead hpc) hrun
      cases e with
      | declined => exact calm hend
      | fault f => exact ⟨hend.1, fun k hk => hend.2 k (Fault.rejected?_eq_some.2 hk)⟩
  · cases hrun : Action.runPrimitive number n m with
    | ok _ m' => exact (Action.runPrimitive_confines le_rfl).ok (h.ahead hpc) hrun
    | error e m' =>
      obtain ⟨hmemory, hrejected⟩ := (Action.runPrimitive_confines le_rfl).error (h.ahead hpc) hrun
      exact ⟨hmemory, fun k hk => hrejected k (Fault.rejected?_eq_some.2 hk)⟩

/-- The objects of a small machine: nil, the special objects, the class of semaphores, a semaphore that was
signalled as often as can be counted, and the active method with its context. -/
def belfryObjects : List Object :=
  let nil : Value := .ref 0 0
  let pointers format fields := Object.ofPointers (.ref 2 0) format (List.toArray fields)
  let header : Value := .small (MethodHeader.encode 0 0 0 false 0).word
  [pointers .empty [], pointers .indexable (List.replicate 18 nil ++ [.ref 2 0]), pointers .empty [],
    pointers .fixed [nil, nil, .small Value.smallMax], .ofMethod (.ref 2 0) #[header] #[112],
    pointers .indexable ([nil, .small 0, .small 0, .ref 4 0, nil, nil, .ref 3 0] ++ List.replicate 5 nil)]

/-- A small machine with the semaphore on the stack, about to push its receiver. -/
def belfry : Machine :=
  let nil : Value := .ref 0 0
  let m := Machine.create (Machine.filled (.empty .standard) belfryObjects)
    { array := .ref 1 0, nil, falseObject := nil, trueObject := nil } {} default
  m.withRegisters { m.registers with
    context := .ref 5 0
    home := .ref 5 0
    method := .ref 4 0
    sp := 6 }

theorem ranged_belfry : belfry.Ranged 0 := by
  have htabled : belfry.memory.Tabled :=
    (Machine.wellFormed_filled (Memory.wellFormed_empty _) (by decide +kernel)).toTabled
  have hobjects : ∀ v ∈ belfry.memory.table.toList, ∀ o ∈ (belfry.memory.get? v).toList, o.Ranged := by
    decide +kernel
  refine ⟨fun _ _ ho => htabled.of_table hobjects ho, ?_, ?_⟩
  · exact ⟨by decide, by decide, by decide, by decide, by decide, by decide, by decide⟩
  · exact ⟨by decide, by decide, by decide, by decide, by decide, by decide, by decide, by decide, by decide⟩

theorem short_belfry : belfry.Short := by
  intro bytes hbytes
  have hmethod : (belfry.memory.get? belfry.registers.method).bind Object.bytes? = some #[112] := by
    decide +kernel
  obtain rfl := Option.some.inj (hmethod.symm.trans hbytes)
  decide

/-- A step leaves the machine in range, and the signal of the semaphore panics. -/
theorem confined_belfry : belfry.Ranged 0 ∧ belfry.Short ∧ belfry.registers.pc ≤ 0x20000000 ∧
    (∃ m', Action.step belfry = .ok () m' ∧ m'.Ranged 0) ∧
    ∃ m', Primitive.signal 0 belfry = .error (.fault (.panic (.notImmediate 0x40000000))) m' ∧
      m'.memory.Ranged ∧ m'.Overruns 0x40000000 := by
  have hpc : belfry.registers.pc ≤ 0x20000000 := by decide
  obtain ⟨hstep, hprimitive, -⟩ := ranged_belfry.confined
  refine ⟨ranged_belfry, short_belfry, hpc, ?_, ?_⟩
  · have hleads : Action.leads Action.step belfry (fun _ _ => true) = true := by decide +kernel
    obtain ⟨_, m', hrun, -⟩ := Action.exists_of_leads hleads
    have hend := hstep short_belfry
    rw [hrun] at hend
    exact ⟨m', hrun, hend⟩
  · have hmem : ⟨85, "signal", Primitive.signal⟩ ∈ Primitive.all := List.mem_of_getElem? (i := 51) rfl
    have hpanics : (Primitive.signal 0).faults belfry (fun e m' =>
        decide (e = .panic (.notImmediate 0x40000000) ∧ m'.devices.requests = [])) = true := by
      decide +kernel
    obtain ⟨_, m', hrun, htest⟩ := Attempt.exists_of_faults hpanics
    obtain ⟨rfl, hrequests⟩ := of_decide_eq_true htest
    have hend := hprimitive hpc _ hmem 0
    dsimp only at hend
    rw [hrun] at hend
    have hcounts : m'.devices.Counts := fun b hb => by
      rw [hrequests] at hb
      cases hb
    exact ⟨m', hrun, hend.1, (hend.2 _ rfl hcounts).2⟩

end Smalltalk
