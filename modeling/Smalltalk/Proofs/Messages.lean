import Smalltalk.Proofs.Provision

/-!
# Messages

A message holds the selector of a send that was not understood and an array of its arguments. Both are
new objects, and the array is pinned while the message is made, since nothing else refers to it yet. A
message may have a field for the class where the lookup started, and more fields, which are nil.
-/

namespace Smalltalk

open Outcome Recycling

variable {m m₁ m' : Machine} {v w x cls selector array message nil : Value} {arguments : List Value}
  {i k n size : Nat}

/-! ### Slots that are overrun -/

namespace Memory

variable {memory memory' : Memory}

/-- A slot that is overrun stays so. -/
theorem Later.overrun (h : memory.Later memory') (hv : memory.Overrun v) : memory'.Overrun v := by
  cases v with
  | small n => exact hv
  | ref index generation =>
    obtain ⟨s, hs, hover⟩ := hv
    obtain ⟨s', hs', hlater⟩ := h.slot _ s hs
    refine ⟨s', hs', ?_⟩
    rcases hlater with hlt | ⟨heq, -⟩
    · exact Nat.le_trans hover (Nat.le_of_lt hlt)
    · rw [heq]
      exact hover

end Memory

namespace Action

theorem object_lost (dead : m.memory.isLive v = false) :
    object v m = .error (.invalidReference v) m := by
  rw [Memory.isLive, Option.isSome_eq_false_iff, Option.isNone_iff_eq_none] at dead
  unfold object
  rw [bind_of_ok (get_ok.2 ⟨rfl, rfl⟩), Memory.object, dead]
  rfl

theorem fetch_lost (dead : m.memory.isLive v = false) :
    fetch v i m = .error (.invalidReference v) m := by
  rw [Memory.isLive, Option.isSome_eq_false_iff, Option.isNone_iff_eq_none] at dead
  unfold fetch
  rw [bind_of_ok (get_ok.2 ⟨rfl, rfl⟩), Memory.field, dead]
  rfl

end Action

/-! ### Pins -/

/-- Pins do not matter for what room there is. -/
theorem Fault.Exhausted.unpin {e : Fault} {pins : Array Value} (h : e.Exhausted m) :
    e.Exhausted (m.withPins pins) := by
  cases e with
  | panic p =>
    cases h with
    | growth h => exact .growth h
    | space h => exact .space h
  | objectTableFull => trivial
  | _ => exact h

theorem Fault.Spent.unpin {e : Fault} {pins : Array Value} (h : e.Spent m) :
    e.Spent (m.withPins pins) := by
  cases h with
  | exhausted h => exact .exhausted h.unpin
  | lost h => exact .lost h
  | unstorable stored h => exact .unstorable stored h

/-- While values are pinned the memory is spent as it is without the pins. -/
theorem Action.Achieves.withPins {α : Type} {y : Action α} {values : List Value}
    {Q : α → Machine → Prop} (h : Achieves y (m.withPins (m.memory.pins ++ values.toArray)) Q) :
    Achieves (Action.withPins values y) m fun a m' =>
      ∃ m₁, Q a m₁ ∧ m' = m₁.withPins (m₁.memory.pins.take m.memory.pins.size) := by
  rcases h with ⟨a, m₁, hrun, hQ⟩ | ⟨e, m₁, hrun, he⟩
  · exact .of_ok (by rw [Machine.withPins_eq, hrun]) ⟨m₁, hQ, rfl⟩
  · have hpinned : Action.withPins values y m =
        .error e (m₁.withPins (m₁.memory.pins.take m.memory.pins.size)) := by
      rw [Machine.withPins_eq, hrun]
    exact .of_error hpinned he.unpin

namespace Machine

/-- With more pins no less is kept. -/
theorem Upholds.unpin {values : Array Value}
    (h : Upholds k (m.withPins (m.memory.pins ++ values)) m') :
    Upholds k m (m'.withPins (m'.memory.pins.take m.memory.pins.size)) where
  frame := by
    conv_lhs => rw [Machine.withPins, h.frame]
    rfl
  pins := by
    change m'.memory.pins.take m.memory.pins.size = m.memory.pins
    rw [h.pins, Machine.withPins]
    simp
  pool := h.pool
  size := h.size
  later := ⟨h.later.size, h.later.slot⟩
  stocked := h.stocked.of_slots rfl rfl
  object := h.object
  kept w hw := by
    have sub : m.anchors ++ m'.pool.roots ⊆
        (m.withPins (m.memory.pins ++ values)).anchors ++ m'.pool.roots :=
      List.append_subset.2 ⟨List.subset_append_of_subset_left _ (anchors_withPins m values),
        List.subset_append_right _ _⟩
    exact h.kept w (reachable_withPins (hw.mono sub))
  remembered := h.remembered

/-! ### New objects -/

/-- Messages have so many named fields. -/
structure Messages (m : Machine) (size : Nat) : Prop where
  two : 2 ≤ size
  spec : ∃ word : Int, m.memory.cell (m.specials.get m.memory Special.classMessage) Class.format =
    some (.small word) ∧ (InstanceSpec.decode word).instSize = size ∧
      (InstanceSpec.decode word).formatCode < 6

/-- The fields of a message. -/
def messageFields (selector array cls nil : Value) (size : Nat) : List Value :=
  (selector :: array :: cls :: List.replicate (size - 3) nil).take size

/-- An object of a class with these fields that was not there before, unless its slot is overrun. -/
def Gains (m : Machine) (v cls : Value) (fields : List Value) (m' : Machine) : Prop :=
  ¬m.memory.Issued v ∧ m'.memory.shape v = some (cls, fields.toArray) ∨ m'.memory.Overrun v

theorem Creates.gains {format : Format} {fields : List Value}
    (h : m.Creates (.ofPointers cls format fields.toArray) v m') : m.Gains v cls fields m' := by
  cases live : m'.memory.isLive v with
  | true =>
    obtain ⟨hash, ho⟩ := h.made live
    exact .inl ⟨h.fresh live, Memory.shape_of_get? ho⟩
  | false => exact .inr (h.lost live)

/-- What has been gained stays when it is kept. -/
theorem Gains.later {fields : List Value} (h : m.Gains v cls fields m₁)
    (later : m₁.memory.Later m'.memory)
    (kept : ¬m.memory.Issued v → m₁.memory.isLive v = true → m'.memory.shape v = m₁.memory.shape v) :
    m.Gains v cls fields m' :=
  h.imp (fun ⟨hfresh, hshape⟩ =>
    ⟨hfresh, (kept hfresh (Memory.isLive_iff_shape.2 ⟨_, hshape⟩)).trans hshape⟩) later.overrun

/-- The fields of a message are filled one after the other. -/
theorem messageFields_filled (h : 2 ≤ size) :
    (messageFields selector array cls nil size).toArray =
      if 2 < size then (((Array.replicate size nil).setIfInBounds 0 selector).setIfInBounds 1
        array).setIfInBounds 2 cls
      else ((Array.replicate size nil).setIfInBounds 0 selector).setIfInBounds 1 array := by
  obtain ⟨size, rfl⟩ := Nat.exists_eq_add_of_le' h
  refine Array.toList_inj.1 ?_
  cases size with
  | zero => rfl
  | succ size =>
    rw [if_pos (by omega)]
    simp [messageFields, List.replicate_succ]

/-- The message and its array have been made. -/
structure Composes (m : Machine) (selector cls : Value) (arguments : List Value) (width : Nat)
    (array message : Value) (m' : Machine) : Prop extends Upholds 2 m m' where
  filled : m'.memory.shape message = some (m.specials.get m.memory Special.classMessage,
    (messageFields selector array cls m.specials.nil width).toArray)
  fresh : ¬m.memory.Issued message
  gained : m.Gains array (m.specials.get m.memory Special.classArray) arguments m'

/-! ### Making a message -/

theorem Creates.unpin {values : Array Value} {o : Object}
    (h : Creates (m.withPins (m.memory.pins ++ values)) o v m') :
    Creates m o v (m'.withPins (m'.memory.pins.take m.memory.pins.size)) :=
  ⟨h.toUpholds.unpin, h.fresh, h.made, h.lost⟩

/-- What is pinned is kept. -/
theorem Upholds.get?_pinned {values : Array Value}
    (h : Upholds k (m.withPins (m.memory.pins ++ values)) m') (hv : v ∈ values)
    (live : m.memory.isLive v = true) : m'.memory.get? v = m.memory.get? v := by
  refine h.kept v (.root (List.mem_append_left _ (List.mem_append_right _ ?_)) live)
  exact Array.mem_toList_iff.2 (Array.mem_append_right _ hv)

theorem newInstance_named {spec : InstanceSpec} (h : spec.formatCode < 6) :
    Action.newInstance cls nil spec 0 =
      .ofPointers cls (Action.pointerFormat spec.formatCode 0)
        (Array.replicate spec.instSize nil) := by
  rw [Action.newInstance, if_neg (Nat.ne_of_lt h), if_pos (Nat.lt_trans h (by decide))]
  rfl

/-- The message is made while its array is pinned, with nil in all fields. -/
theorem achieves_newMessage (hm : m.Closed) (u : Upholds k m m₁) (messages : m.Messages size)
    (room : m₁.memory.slots.size + 1 < 0x100000000) :
    Action.Achieves (Action.withPins [array] do
        Action.instantiate (← Action.special Special.classMessage) 0) m₁ fun message m' =>
      ∃ format, Creates m₁ (.ofPointers (m.specials.get m.memory Special.classMessage) format
        (Array.replicate size m.specials.nil)) message m' ∧
        (m₁.memory.isLive array = true → m'.memory.get? array = m₁.memory.get? array) := by
  obtain ⟨word, hword, rfl, hformat⟩ := messages.spec
  let pinned := m₁.withPins (m₁.memory.pins ++ [array].toArray)
  have hspecial : Action.special Special.classMessage pinned =
      .ok (m.specials.get m.memory Special.classMessage) pinned :=
    congrArg (EStateM.Result.ok · pinned) (u.special hm _)
  have hspec : Action.instanceSpec (m.specials.get m.memory Special.classMessage) pinned =
      .ok (InstanceSpec.decode word) pinned :=
    bind_of_ok (Action.fetchInt_ok.2 ⟨(u.cell (hm.moored_special _) _).trans hword, rfl⟩)
  have hnil : Action.nil pinned = .ok m.specials.nil pinned :=
    congrArg (EStateM.Result.ok · pinned) (congrArg SpecialObjects.nil u.specials)
  have stocked : pinned.memory.Stocked := u.stocked.of_slots rfl rfl
  refine Action.Achieves.mono (.withPins (.after hspecial (.after hspec (.after hnil
    (achieves_allocate stocked room))))) ?_
  rintro message m' ⟨m₂, hmade, rfl⟩
  rw [newInstance_named hformat] at hmade
  exact ⟨_, hmade.unpin, fun live => hmade.get?_pinned (by simp) live⟩

theorem store_of_shape {ps : Array Value} (hshape : m.memory.shape v = some (cls, ps))
    (hi : i < ps.size) : Action.store v i x m = .ok () (m.setCell v i x) ∧
      (m.setCell v i x).memory.shape v = some (cls, ps.setIfInBounds i x) := by
  obtain ⟨o, ho, -, rfl⟩ := Memory.shape_eq_some.1 hshape
  have hcell : m.memory.cell v i = some o.pointers[i] :=
    Memory.cell_eq_some.2 ⟨o, ho, Array.getElem?_eq_getElem hi⟩
  refine ⟨Action.store_ok.2 ⟨⟨_, hcell⟩, rfl⟩, ?_⟩
  rw [Machine.setCell, Memory.shape_setField, if_pos rfl, hshape]
  rfl

/-- A message is filled. -/
theorem fillMessage (selector array v : Value) (two : 2 ≤ size)
    (hshape : m.memory.shape message = some (cls, Array.replicate size nil)) :
    ∃ m', (do
        Action.store message 0 selector
        Action.store message 1 array
        if 2 < (← Action.object message).pointers.size then
          Action.store message 2 v
        return message) m = .ok message m' ∧
      (m' = (m.setCell message 0 selector).setCell message 1 array ∨
        m' = ((m.setCell message 0 selector).setCell message 1 array).setCell message 2 v) ∧
      m'.memory.shape message = some (cls, (messageFields selector array v nil size).toArray) := by
  rw [messageFields_filled two]
  obtain ⟨hfirst, hshape₁⟩ := store_of_shape (i := 0) (x := selector) hshape
    (by rw [Array.size_replicate]; omega)
  obtain ⟨hsecond, hshape₂⟩ := store_of_shape (i := 1) (x := array) hshape₁
    (by rw [Array.size_setIfInBounds, Array.size_replicate]; omega)
  obtain ⟨o, ho, -, hpointers⟩ := Memory.shape_eq_some.1 hshape₂
  have hsize : o.pointers.size = size := by simp [hpointers]
  by_cases hthree : 2 < size
  · obtain ⟨hthird, hshape₃⟩ := store_of_shape (i := 2) (x := v) hshape₂
      (by simpa using hthree)
    rw [if_pos hthree]
    refine ⟨_, ?_, .inr rfl, hshape₃⟩
    rw [bind_of_ok hfirst, bind_of_ok hsecond, bind_of_ok (Action.object_ok.2 ⟨ho, rfl⟩),
      if_pos (hsize ▸ hthree), bind_of_ok hthird]
    rfl
  · rw [if_neg hthree]
    refine ⟨_, ?_, .inl rfl, hshape₂⟩
    rw [bind_of_ok hfirst, bind_of_ok hsecond, bind_of_ok (Action.object_ok.2 ⟨ho, rfl⟩),
      if_neg (hsize ▸ hthree)]
    rfl

/-- A message is made of a selector, the arguments on the stack and a class, unless the memory is
spent. -/
theorem achieves_createMessage (hm : m.Closed) (stocked : m.memory.Stocked)
    (room : m.memory.slots.size + 2 < 0x100000000) (messages : m.Messages size)
    (stack : Action.stackValues arguments.length m = .ok arguments m) :
    Action.Achieves (Action.createMessage selector arguments.length cls) m fun message m' =>
      ∃ array, m.Composes selector cls arguments size array message m' := by
  refine .after stack (.after rfl (.bind ?_))
  refine (achieves_allocate stocked (by omega)).mono fun array m₁ ha => .bind ?_
  have room₁ : m₁.memory.slots.size + 1 < 0x100000000 := by
    have hsize := ha.size
    omega
  refine (achieves_newMessage hm ha.toUpholds messages room₁).mono ?_
  rintro message m₂ ⟨format, hb, hkept⟩
  have u := ha.toUpholds.trans hb.toUpholds
  cases live : m₂.memory.isLive message with
  | false =>
    exact .of_error (bind_of_error (bind_of_error (Action.fetch_lost live)))
      (.lost (hb.lost live))
  | true =>
    obtain ⟨hash, ho⟩ := hb.made live
    obtain ⟨m', hrun, hm', hshape⟩ := fillMessage selector array cls messages.two
      (Memory.shape_of_get? ho)
    have fresh : ¬m.memory.Issued message := fun h => hb.fresh live (ha.later.issued h)
    have later : m₁.memory.Later m'.memory := by
      have hfirst := hb.later.trans
        (Memory.later_modify m₂.memory message fun o => o.setPointer 0 selector)
      rcases hm' with rfl | rfl
      · exact hfirst.trans (Memory.later_modify ..)
      · exact (hfirst.trans (Memory.later_modify ..)).trans (Memory.later_modify ..)
    refine .of_ok hrun ⟨array, ⟨?_, hshape, fresh, ha.gains.later later fun _ harray => ?_⟩⟩
    · rcases hm' with rfl | rfl
      · exact (u.setCell fresh).setCell fresh
      · exact ((u.setCell fresh).setCell fresh).setCell fresh
    · have hne : array ≠ message := by
        rintro rfl
        exact hb.fresh live (Memory.issued_of_isLive harray)
      rw [← Memory.shape_congr (hkept harray)]
      rcases hm' with rfl | rfl <;> simp [Machine.setCell, Memory.shape_setField, hne]

end Machine

end Smalltalk
