import Smalltalk.Proofs.Elements
import Smalltalk.Proofs.Freshness

/-!
# Machines that differ in a stack

To ask for an element, an array and an index are pushed, and the answer is pushed in their place. The
stack is the frame of the active context, so that other objects are not touched, and of the active context
only the fields behind the fixed ones. What an access looks at is not there: whatever stands on the stack,
an object has the same class and the same elements, and a value denotes the same number.
-/

namespace Smalltalk

open Outcome

variable {m m₁ m' : Machine} {o o' : Object} {v w x : Value} {i k n : Nat} {e : Element}

/-! ### Room for an object -/

/-- There is room in the table, and the slot that is next can be named by a reference. -/
structure Memory.Roomy (memory : Memory) : Prop where
  space : memory.isFull = false
  placeable : memory.Placeable

/-- A change of an object takes no room. -/
theorem Memory.Roomy.modify {memory : Memory} {f : Object → Object} (h : memory.Roomy) :
    (memory.modify v f).Roomy := by
  cases v with
  | small k => exact h
  | ref index generation =>
    unfold Memory.modify
    split_ifs
    · refine ⟨h.space, ?_⟩
      have hplaceable := h.placeable
      simp only [Memory.Placeable, Memory.modifyAt] at hplaceable ⊢
      cases hfree : memory.free with
      | nil =>
        simp only [hfree] at hplaceable ⊢
        rw [Array.size_modify]
        exact hplaceable
      | cons j free =>
        simp only [hfree] at hplaceable ⊢
        obtain ⟨slot, hslot, hnone, hgeneration⟩ := hplaceable
        rw [Array.getElem?_modify, hslot]
        split_ifs
        · exact ⟨_, rfl, by simp only [hnone, Option.map_none], hgeneration⟩
        · exact ⟨slot, rfl, hnone, hgeneration⟩
    · exact h

/-! ### The active context -/

/-- The object with other fields behind the fixed fields of a context. -/
structure Object.Reframes (o o' : Object) : Prop where
  same : o' = { o with pointers := o'.pointers }
  size : o'.pointers.size = o.pointers.size
  fixed : ∀ i < Context.frameStart, o'.pointers[i]? = o.pointers[i]?

namespace Object.Reframes

theorem refl (o : Object) : o.Reframes o := ⟨rfl, rfl, fun _ _ => rfl⟩

theorem trans {o'' : Object} (h : o.Reframes o') (h' : o'.Reframes o'') : o.Reframes o'' :=
  ⟨by rw [h'.same, h.same], h'.size.trans h.size, fun i hi => (h'.fixed i hi).trans (h.fixed i hi)⟩

theorem setPointer (hi : Context.frameStart ≤ i) : o.Reframes (o.setPointer i x) := by
  refine ⟨rfl, Array.size_setIfInBounds, fun j hj => ?_⟩
  rw [Object.setPointer, Array.getElem?_setIfInBounds_ne (by omega)]

theorem cls (h : o.Reframes o') : o'.cls = o.cls := by rw [h.same]

theorem bytes? (h : o.Reframes o') : o'.bytes? = o.bytes? := by
  rw [h.same]
  rfl

end Object.Reframes

/-- A push changes one field of the active context. -/
theorem Action.get?_pushed (w : Value) : (Action.pushed m x).memory.get? w =
    if w = m.registers.context then
      (m.memory.get? m.registers.context).map fun o => o.setPointer (m.registers.sp + 1) x
    else m.memory.get? w := Memory.get?_setField ..

/-- The stack of the active context may be another, and everything that no access goes by: caches,
counters and registers. -/
structure Machine.Restacks (m m' : Machine) : Prop where
  specials : m'.specials = m.specials
  context : m'.registers.context = m.registers.context
  room : m.memory.Roomy → m'.memory.Roomy
  others : ∀ w, w ≠ m.registers.context → m'.memory.get? w = m.memory.get? w
  active : ∀ o, m.memory.get? m.registers.context = some o →
    ∃ o', m'.memory.get? m.registers.context = some o' ∧ o.Reframes o'
  dead : m.memory.get? m.registers.context = none → m'.memory.get? m.registers.context = none

namespace Machine.Restacks

theorem of_memory (memory : m'.memory = m.memory) (specials : m'.specials = m.specials)
    (context : m'.registers.context = m.registers.context) : m.Restacks m' where
  specials := specials
  context := context
  room h := by rw [memory]; exact h
  others w _ := by rw [memory]
  active o ho := ⟨o, by rw [memory]; exact ho, .refl o⟩
  dead h := by rw [memory]; exact h

theorem refl (m : Machine) : m.Restacks m := of_memory rfl rfl rfl

theorem trans (h : m.Restacks m₁) (h' : m₁.Restacks m') : m.Restacks m' where
  specials := h'.specials.trans h.specials
  context := h'.context.trans h.context
  room := h'.room ∘ h.room
  others w hw := (h'.others w (h.context ▸ hw)).trans (h.others w hw)
  active o ho := by
    obtain ⟨o₁, ho₁, h₁⟩ := h.active o ho
    obtain ⟨o', ho', h₂⟩ := h'.active o₁ (h.context ▸ ho₁)
    exact ⟨o', h.context ▸ ho', h₁.trans h₂⟩
  dead hdead := h.context ▸ h'.dead (h.context ▸ h.dead hdead)

theorem popped (m : Machine) (n : Nat) : m.Restacks (Action.popped m n) := of_memory rfl rfl rfl

theorem recalling (m : Machine) (c : AtCache) : m.Restacks (m.recalling c) := of_memory rfl rfl rfl

/-- A value that is pushed behind the fixed fields. -/
theorem pushed (hsp : Context.frameStart ≤ m.registers.sp + 1) : m.Restacks (Action.pushed m x) := by
  refine ⟨rfl, rfl, fun h => h.modify, fun w hw => ?_, fun o ho => ?_, fun h => ?_⟩
  · rw [Action.get?_pushed, if_neg hw]
  · rw [Action.get?_pushed, if_pos rfl, ho]
    exact ⟨_, rfl, .setPointer hsp⟩
  · rw [Action.get?_pushed, if_pos rfl, h]
    rfl

/-! ### What an access looks at -/

theorem found (h : m.Restacks m') (ho : m.memory.get? v = some o) :
    ∃ o', m'.memory.get? v = some o' ∧ o.Reframes o' := by
  by_cases hv : v = m.registers.context
  · subst hv
    exact h.active o ho
  · exact ⟨o, (h.others v hv).trans ho, .refl o⟩

theorem lost (h : m.Restacks m') (ho : m.memory.get? v = none) : m'.memory.get? v = none := by
  by_cases hv : v = m.registers.context
  · subst hv
    exact h.dead ho
  · exact (h.others v hv).trans ho

/-- The fixed fields of any object stay. -/
theorem cell (h : m.Restacks m') (hi : i < Context.frameStart) :
    m'.memory.cell v i = m.memory.cell v i := by
  cases ho : m.memory.get? v with
  | none => rw [Memory.cell, Memory.cell, h.lost ho, ho]
  | some o =>
    obtain ⟨o', ho', hreframes⟩ := h.found ho
    rw [Memory.cell, Memory.cell, ho', ho]
    exact hreframes.fixed i hi

/-- Every object has as many fields as before. -/
theorem exists_cell (h : m.Restacks m') (hx : ∃ x, m.memory.cell v i = some x) :
    ∃ x, m'.memory.cell v i = some x := by
  obtain ⟨x, hx⟩ := hx
  obtain ⟨o, ho, hfield⟩ := Memory.cell_eq_some.1 hx
  obtain ⟨o', ho', hreframes⟩ := h.found ho
  obtain ⟨hlt, -⟩ := Array.getElem?_eq_some_iff.1 hfield
  exact ⟨_, Memory.cell_eq_some.2 ⟨o', ho', Array.getElem?_eq_getElem (hreframes.size ▸ hlt)⟩⟩

/-- No object has more fields than before. -/
theorem cell_eq_none (h : m.Restacks m') (hx : m.memory.cell v i = none) : m'.memory.cell v i = none := by
  rw [Memory.cell] at hx ⊢
  cases ho : m.memory.get? v with
  | none => rw [h.lost ho, Option.bind_none]
  | some o =>
    obtain ⟨o', ho', hreframes⟩ := h.found ho
    rw [ho, Option.bind_some, Array.getElem?_eq_none_iff] at hx
    rw [ho', Option.bind_some, Array.getElem?_eq_none_iff, hreframes.size]
    exact hx

section
variable (h : m.Restacks m') (array : m.specials.array ≠ m.registers.context)
include h array

theorem special : m'.specials.get m'.memory i = m.specials.get m.memory i := by
  rw [SpecialObjects.get, SpecialObjects.get, h.specials, h.others _ array]

theorem isInstance : m'.isInstance v i = m.isInstance v i := by
  unfold Machine.isInstance
  cases ho : m.memory.get? v with
  | none => rw [h.lost ho, Option.any_none, Option.any_none]
  | some o =>
    obtain ⟨o', ho', hreframes⟩ := h.found ho
    rw [ho', Option.any_some, Option.any_some, hreframes.cls, h.special array]

theorem isContext : m'.isContext v = m.isContext v := by
  unfold Machine.isContext
  rw [h.isInstance array, h.isInstance array]

theorem denotes (hk : m.Denotes v k) : m'.Denotes v k := by
  cases hk with
  | immediate hk => exact .immediate hk
  | large ho hcls hbytes hsize =>
    obtain ⟨o', ho', hreframes⟩ := h.found ho
    refine .large ho' ?_ (hreframes.bytes?.trans hbytes) hsize
    rw [hreframes.cls, hcls, h.special array]

theorem hasCode (hk : m.HasCode v k) : m'.HasCode v k := by
  obtain ⟨o, ho, hcls, hcode⟩ := hk
  obtain ⟨o', ho', hreframes⟩ := h.found ho
  refine ⟨o', ho', ?_, (hreframes.fixed 0 (by decide)).trans hcode⟩
  rw [hreframes.cls, hcls, h.special array]

/-- What shows an element still shows it. -/
theorem shows (he : m.Shows e x) : m'.Shows e x := by
  cases he with
  | pointer => exact .pointer x
  | word hk => exact .word (h.denotes array hk)
  | byte b => exact .byte b
  | character hk => exact .character (h.hasCode array hk)

end

theorem named? (h : m.Restacks m') : m'.named? o = m.named? o := by
  unfold Machine.named?
  rw [h.cell (by decide)]

end Machine.Restacks

/-! ### Operands -/

/-- The operands are on top of the stack, behind the fixed fields. -/
structure Machine.Stacked (m : Machine) (operands : List Value) : Prop where
  stack : Action.stackValues operands.length m = .ok operands m
  deep : Context.frameStart + operands.length ≤ m.registers.sp + 1

namespace Machine.Stacked

variable {operands : List Value}

theorem nil (deep : Context.frameStart ≤ m.registers.sp + 1) : m.Stacked [] := ⟨rfl, deep⟩

theorem cons (h : m.Stacked operands) (hv : Action.stackValue operands.length m = .ok v m)
    (deep : Context.frameStart + operands.length ≤ m.registers.sp) : m.Stacked (v :: operands) :=
  ⟨(bind_of_ok hv).trans (bind_of_ok h.stack), Nat.succ_le_succ deep⟩

theorem receiver (h : m.Stacked (v :: operands)) : Action.stackValue operands.length m = .ok v m := by
  obtain ⟨_, _, e, hv, -⟩ := Action.stackValues_succ h.stack
  obtain ⟨rfl, -⟩ := List.cons.inj e
  exact hv

theorem tail (h : m.Stacked (v :: operands)) : m.Stacked operands := by
  obtain ⟨_, _, e, -, hrest⟩ := Action.stackValues_succ h.stack
  obtain ⟨-, rfl⟩ := List.cons.inj e
  refine ⟨hrest, ?_⟩
  have := h.deep
  simp only [List.length_cons] at this
  omega

/-- The stack is the same as long as the active context is. -/
theorem congr (h : m.Stacked operands) (registers : m'.registers = m.registers)
    (active : m'.memory.get? m.registers.context = m.memory.get? m.registers.context) :
    m'.Stacked operands := by
  refine ⟨?_, registers ▸ h.deep⟩
  exact Action.stackValues_congr registers (fun i => by rw [Memory.cell, active, Memory.cell]) h.stack

/-- An answer takes the place of the operands. -/
theorem answer (h : m.Stacked (v :: operands)) (x : Value) :
    ∃ m', Action.popThenPush (operands.length + 1) x m = .ok () m' ∧ m.Restacks m' ∧
      Action.top m' = .ok x m' := by
  have hdeep : Context.frameStart + (operands.length + 1) ≤ m.registers.sp + 1 := h.deep
  have hframe : Context.frameStart = 6 := rfl
  obtain ⟨-, hcell, -⟩ := Action.stackValue_ok.1 h.receiver
  have hplace : m.registers.sp - (operands.length + 1) + 1 = m.registers.sp - operands.length := by omega
  have hpopped : ∃ y, m.memory.cell m.registers.context (m.registers.sp - (operands.length + 1) + 1) =
      some y := ⟨v, hplace ▸ hcell⟩
  refine ⟨_, Action.popThenPush_ok.2 ⟨by omega, hpopped, rfl⟩, ?_, Action.top_ok.2 ⟨?_, rfl⟩⟩
  · refine (Machine.Restacks.popped m _).trans (Machine.Restacks.pushed ?_)
    simp only [Action.popped, Machine.withRegisters_registers]
    omega
  · simp only [Action.pushed, Machine.withRegisters_registers, Machine.withRegisters_memory]
    rw [Machine.cell_setCell, Cells.set_same]
    exact hpopped

end Machine.Stacked

end Smalltalk
