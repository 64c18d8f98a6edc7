import Smalltalk.Proofs.Answering
import Smalltalk.Proofs.Dispatch

/-!
# The primitive protocol

The bytecodes of a method run on the stack that its primitive has left. So a primitive that declines
leaves the active context and its stack as they were, and a primitive that does its work leaves one
answer in the place of receiver and arguments. The groundwork before an answer keeps the active
context: a reclamation spares it, an object that is made is another one, and only a store into the
context itself is seen in its fields.
-/

namespace Smalltalk

open Outcome

/-- A new object is not one that was there: its slot was vacant, or there was no such slot. -/
theorem Memory.Stocked.ne_place {memory : Memory} {o : Object} {v : Value} (h : memory.Stocked)
    (room : (memory.place o).2.slots.size ≤ 0x100000000) (live : memory.isLive v = true) :
    v ≠ (memory.place o).1 := by
  rintro rfl
  cases hf : memory.free with
  | nil =>
    simp only [Memory.place, hf, Array.size_push] at room
    have hplaceable : memory.Placeable := by
      simp only [Placeable, hf]
      omega
    rw [place_fresh hplaceable] at live
    exact absurd live (by simp)
  | cons i free =>
    obtain ⟨slot, hs, ho⟩ := h.vacant i (by rw [hf]; exact List.mem_cons_self)
    obtain ⟨o', ho'⟩ := isLive_iff.1 live
    obtain ⟨index, generation, slot', hv, hs', -, hobject⟩ := get?_eq_some.1 ho'
    simp only [Memory.place, hf, Value.reference, Value.ref.injEq] at hv
    rw [← hv.1, hs] at hs'
    obtain rfl := Option.some.inj hs'
    rw [ho] at hobject
    exact absurd hobject (by simp)

namespace Machine

variable {m m' : Machine} {t : Option Value} {n : Nat}

/-- The registers stay, and so do the fields of the active context, unless it is the object that is
stored into. -/
structure Keeps (t : Option Value) (m m' : Machine) : Prop where
  registers : m'.registers = m.registers
  size : m.memory.slots.size ≤ m'.memory.slots.size
  stocked : m.memory.Stocked → m'.memory.Stocked
  cells : m.memory.Stocked → m'.memory.slots.size ≤ 0x100000000 → ∀ i x,
    m.memory.cell m.registers.context i = some x →
      ∃ y, m'.memory.cell m.registers.context i = some y ∧ (t ≠ some m.registers.context → y = x)

namespace Keeps

theorem of_get? (registers : m'.registers = m.registers)
    (size : m.memory.slots.size ≤ m'.memory.slots.size)
    (stocked : m.memory.Stocked → m'.memory.Stocked)
    (same : m.memory.Stocked → m.memory.isLive m.registers.context = true →
      m'.memory.get? m.registers.context = m.memory.get? m.registers.context) : Keeps t m m' := by
  refine ⟨registers, size, stocked, fun h _ i x hx => ⟨x, ?_, fun _ => rfl⟩⟩
  rw [Memory.cell, same h (Memory.isLive_of_cell hx)]
  exact hx

theorem trans {m'' : Machine} (h : Keeps t m m') (h' : Keeps t m' m'') : Keeps t m m'' := by
  refine ⟨h'.registers.trans h.registers, Nat.le_trans h.size h'.size, h'.stocked ∘ h.stocked, ?_⟩
  intro hs room i x hx
  obtain ⟨y, hy, hxy⟩ := h.cells hs (Nat.le_trans h'.size room) i x hx
  have hcells := h'.cells (h.stocked hs) room i y
  rw [h.registers] at hcells
  obtain ⟨z, hz, hyz⟩ := hcells hy
  exact ⟨z, hz, fun hne => (hyz hne).trans (hxy hne)⟩

/-- Making room spares the active context. -/
theorem of_trims (h : Trims m m') : Keeps t m m' := by
  refine .of_get? h.registers h.later.size h.stocked fun _ live => h.kept _ (.root ?_ live)
  exact List.mem_append_left _ (List.mem_append_left _ (by simp))

/-- A new object is not the active context, whatever is stored into it. -/
theorem of_fresh {o : Object} (h : Keeps (some (m.memory.place o).1) (Action.placed m o) m') :
    Keeps t m m' := by
  refine ⟨h.registers, Nat.le_trans (Memory.later_place _ o).size h.size, fun hs => h.stocked hs.place, ?_⟩
  intro hs room i x hx
  have live := Memory.isLive_of_cell hx
  have hne := hs.ne_place (o := o) (Nat.le_trans h.size room) live
  have hplaced : (Action.placed m o).memory.cell m.registers.context i = some x := by
    rcases hs.get?_place o m.registers.context with hsame | ⟨heq, -, -⟩
    · rw [Memory.cell, Action.placed, hsame]
      exact hx
    · exact absurd heq hne
  obtain ⟨y, hy, hxy⟩ := h.cells hs.place room i x hplaced
  exact ⟨y, hy, fun _ => hxy fun e => hne (Option.some.inj e).symm⟩

theorem of_modified {v : Value} {f : Object → Object}
    (hf : ∀ o, m.memory.get? v = some o → (f o).pointers.size = o.pointers.size ∧
      (t ≠ some v → (f o).pointers = o.pointers)) : Keeps t m (m.modified v f) := by
  refine ⟨rfl, (Memory.later_modify ..).size, fun h => h.modify v f, fun _ _ i x hx => ?_⟩
  obtain ⟨o, ho, hi⟩ := Memory.cell_eq_some.1 hx
  by_cases hv : m.registers.context = v
  · subst hv
    obtain ⟨hsize, hsame⟩ := hf o ho
    have hlt : i < (f o).pointers.size := by
      rw [hsize]
      exact (Array.getElem?_eq_some_iff.1 hi).1
    refine ⟨(f o).pointers[i], ?_, fun hne => ?_⟩
    · refine Memory.cell_eq_some.2 ⟨f o, ?_, Array.getElem?_eq_getElem hlt⟩
      rw [modified, Memory.get?_modify, if_pos rfl, ho, Option.map_some]
    · rw [← Option.some.injEq, ← Array.getElem?_eq_getElem hlt, hsame hne, hi]
  · refine ⟨x, Memory.cell_eq_some.2 ⟨o, ?_, hi⟩, fun _ => rfl⟩
    rw [modified, Memory.get?_modify, if_neg hv, ho]

instance : Groundwork Keeps where
  refl _ _ := .of_get? rfl (Nat.le_refl _) id fun _ _ => rfl
  trans := .trans
  upkeep h := .of_get? h.registers (Nat.le_of_eq (by rw [h.slots]))
    (fun hs => hs.of_slots h.slots h.free) fun _ _ => congrFun (Memory.get?_congr h.slots) _
  trims := .of_trims
  fresh := .of_fresh
  body hf := .of_modified fun o ho => ⟨(hf o ho).2.pointers, fun _ => (hf o ho).1⟩
  storeInto hf := .of_modified fun o ho => ⟨(hf o ho).pointers, fun hne => absurd rfl hne⟩

end Keeps

/-- The active context, the stack pointer and the fields of the active context are as they were. -/
structure Unmoved (m m' : Machine) : Prop where
  context : m'.registers.context = m.registers.context
  sp : m'.registers.sp = m.registers.sp
  cell : ∀ i, m'.memory.cell m.registers.context i = m.memory.cell m.registers.context i

/-- One answer stands in the place of a receiver and `n` arguments, and the other fields of the active
context are as they were, unless it is the object that was stored into. -/
structure Replaced (t : Option Value) (n : Nat) (m m' : Machine) : Prop where
  context : m'.registers.context = m.registers.context
  sp : m'.registers.sp + n = m.registers.sp
  top : (m.memory.cell m.registers.context (m.registers.sp - n)).isSome = true →
    ∃ v, m'.memory.cell m.registers.context m'.registers.sp = some v
  rest : t ≠ some m.registers.context → ∀ i, i ≠ m'.registers.sp → ∀ x,
    m.memory.cell m.registers.context i = some x → m'.memory.cell m.registers.context i = some x

/-- A primitive that declines may be counted as undone, so nothing of the context is changed. -/
theorem Spares.unmoved (h : Spares m m') (stocked : m.memory.Stocked) : Unmoved m m' := by
  refine ⟨by rw [h.registers], by rw [h.registers], fun i => ?_⟩
  by_cases live : m.memory.isLive m.registers.context = true
  · refine Memory.cell_congr (h.kept stocked _ (.root ?_ live))
    exact List.mem_append_left _ (List.mem_append_left _ (by simp))
  · -- what is new has no fields
    have hnone : m.memory.get? m.registers.context = none :=
      Memory.get?_eq_none.2 (Bool.eq_false_iff.2 live)
    rw [Memory.cell_eq_shape, Memory.cell_eq_shape]
    cases hshape : m'.memory.shape m.registers.context with
    | none => simp [Memory.shape, hnone]
    | some s =>
      obtain ⟨c, ps⟩ := s
      rcases h.shape stocked _ c ps hshape with hold | rfl
      · simp [Memory.shape, hnone] at hold
      · simp [Memory.shape, hnone]

/-- Taking arguments off the stack changes no field. -/
theorem Keeps.cells_of_popped {m₁ : Machine} (h : Keeps t m m₁) (h' : Keeps t (Action.popped m₁ n) m')
    (stocked : m.memory.Stocked) (room : m'.memory.slots.size ≤ 0x100000000) {i : Nat} {x : Value}
    (hx : m.memory.cell m.registers.context i = some x) :
    ∃ y, m'.memory.cell m.registers.context i = some y ∧ (t ≠ some m.registers.context → y = x) := by
  obtain ⟨y, hy, hxy⟩ := h.cells stocked (Nat.le_trans h'.size room) i x hx
  have hcells := h'.cells (h.stocked stocked) room i y
  simp only [Action.popped, withRegisters_registers, withRegisters_memory, h.registers] at hcells
  obtain ⟨z, hz, hyz⟩ := hcells hy
  exact ⟨z, hz, fun hne => (hyz hne).trans (hxy hne)⟩

/-- An answer is written over the receiver. -/
theorem overwritten {v : Value} (h : Action.popThenPush 1 v m = .ok () m') :
    m'.registers = m.registers ∧ (∃ y, m.memory.cell m.registers.context m.registers.sp = some y) ∧
      m'.memory = m.memory.setField m.registers.context m.registers.sp v := by
  obtain ⟨hdepth, hslot, hm'⟩ := Action.popThenPush_ok.1 h
  have hsp : m.registers.sp - 1 + 1 = m.registers.sp := Nat.sub_add_cancel hdepth
  rw [hsp] at hslot
  refine ⟨?_, hslot, ?_⟩
  · simp only [← hm', Action.pushed, Action.popped, withRegisters_registers, hsp]
  · simp only [← hm', Action.pushed, Action.popped, withRegisters_registers, withRegisters_memory,
      setCell, hsp]

theorem Unmoved.refl (m : Machine) : Unmoved m m := ⟨rfl, rfl, fun _ => rfl⟩

theorem Unmoved.replaced (h : Unmoved m m') : Replaced t 0 m m' := by
  refine ⟨h.context, h.sp, fun hsome => ?_, fun _ i _ x hx => by rw [h.cell, hx]⟩
  rw [h.cell, h.sp]
  exact Option.isSome_iff_exists.1 hsome

theorem Replaced.of_overwritten {v : Value} (h : Action.popThenPush 1 v m = .ok () m') :
    Replaced t 0 m m' := by
  obtain ⟨hregisters, ⟨y, hy⟩, hmemory⟩ := overwritten h
  refine ⟨by rw [hregisters], by rw [hregisters]; rfl, fun _ => ⟨v, ?_⟩, fun _ i hi x hx => ?_⟩
  · rw [hregisters, hmemory, Memory.cell_setField, if_pos ⟨rfl, rfl⟩, hy, Option.map_some]
  · rw [hregisters] at hi
    rw [hmemory, Memory.cell_setField, if_neg fun e => hi e.2, hx]

theorem Answered.replaced (h : m.Answered (Keeps t) n m') (hn : n ≤ m.registers.sp)
    (stocked : m.memory.Stocked) (room : m'.memory.slots.size ≤ 0x100000000) : Replaced t n m m' := by
  obtain ⟨m₁, hground, hend | ⟨v, hpush⟩⟩ := h
  · -- the receiver is the answer
    have hregisters : m'.registers = { m.registers with sp := m.registers.sp - n } := by
      rw [hend.registers, Action.popped, withRegisters_registers, hground.registers]
    refine ⟨by rw [hregisters], by rw [hregisters]; exact Nat.sub_add_cancel hn, fun hsome => ?_, ?_⟩
    · obtain ⟨x, hx⟩ := Option.isSome_iff_exists.1 hsome
      obtain ⟨y, hy, -⟩ := hground.cells_of_popped hend stocked room hx
      exact ⟨y, by rw [hregisters]; exact hy⟩
    · intro hne i _ x hx
      obtain ⟨y, hy, hxy⟩ := hground.cells_of_popped hend stocked room hx
      rw [hy, hxy hne]
  · -- the answer is pushed over the receiver
    obtain ⟨hregisters, hslot, hmemory⟩ := overwritten hpush
    simp only [Action.popped, withRegisters_registers, withRegisters_memory, hground.registers]
      at hregisters hslot hmemory
    have hroom : m₁.memory.slots.size ≤ 0x100000000 := by
      refine Nat.le_trans ?_ room
      rw [hmemory]
      exact (Memory.later_modify ..).size
    refine ⟨by rw [hregisters], by rw [hregisters]; exact Nat.sub_add_cancel hn, fun _ => ⟨v, ?_⟩, ?_⟩
    · obtain ⟨y, hy⟩ := hslot
      rw [hregisters, hmemory, Memory.cell_setField, if_pos ⟨rfl, rfl⟩, hy, Option.map_some]
    · intro hne i hi x hx
      obtain ⟨y, hy, hxy⟩ := hground.cells stocked hroom i x hx
      rw [hregisters] at hi
      rw [hmemory, Memory.cell_setField, if_neg fun e => hi e.2, hy, hxy hne]

end Machine

namespace Action

open Machine

variable {m m' : Machine}

/-- A quick primitive that does not know its answer changes nothing. -/
theorem quickPrimitive_ends {number : Nat} : Gives (quickPrimitive number) m fun trial m' =>
    (trial = .unhandled ∧ Unmoved m m') ∨ (trial = .handled ∧ Replaced none 0 m m') := by
  have answered : ∀ v, Gives (do
      popThenPush 1 v
      return .handled : Action Trial) m fun trial m' =>
      (trial = .unhandled ∧ Unmoved m m') ∨ (trial = .handled ∧ Replaced none 0 m m') := fun v =>
    .bind fun _ m₁ hpush => .pure (.inr ⟨rfl, .of_overwritten hpush⟩)
  refine .ite (fun _ => .pure (.inr ⟨rfl, (Unmoved.refl m).replaced⟩)) fun _ => .bind (.get ?_)
  split
  · exact answered _
  · refine .bind fun receiver m₁ htop => .bind ?_
    obtain ⟨-, rfl⟩ := top_ok.1 htop
    refine gives_object? ?_
    split
    · exact answered _
    · exact .pure (.inl ⟨rfl, .refl m⟩)

end Action

namespace Primitive

theorem arity_le {number n : Nat} (h : n ∈ arities number) : n ≤ 4 := by
  simp only [arities] at h
  split_ifs at h <;> simp only [List.mem_cons, List.not_mem_nil, or_false] at h <;> omega

end Primitive

namespace Machine

variable {m : Machine}

/-- A primitive that declines moves nothing, whatever the number of arguments; one that does its work
replaces the arguments it is written for and the receiver by one answer. Quick primitives do the same
without arguments. -/
theorem primitive_protocol (stocked : m.memory.Stocked) (depth : 8 ≤ m.registers.sp) :
    (∀ p ∈ Primitive.all, ∀ n,
      (∀ m', p.action n m = .error .declined m' → Unmoved m m') ∧
      (p.number ∉ Primitive.redirecting → n ∈ Primitive.arities p.number → ∀ c m',
        p.action n m = .ok c m' → m'.memory.slots.size ≤ 0x100000000 →
          c = .done ∧ Replaced (Primitive.target p.number n m) n m m')) ∧
    ∀ number, 256 ≤ number → number < 520 → ∀ trial m', Action.quickPrimitive number m = .ok trial m' →
      (trial = .unhandled ∧ Unmoved m m') ∨ (trial = .handled ∧ Replaced none 0 m m') := by
  refine ⟨fun p hp n => ⟨fun m' hrun => ?_, fun hredirecting hn c m' hrun room => ?_⟩, ?_⟩
  · exact (Primitive.all_yield p hp n m m' hrun).toSpares.unmoved stocked
  · obtain ⟨k, hk, hanswers⟩ := Primitive.all_conform (R := Keeps) p hp hredirecting n
    obtain rfl := hk hn
    obtain ⟨hc, hanswered⟩ := (hanswers m).answered c m' hrun
    have hdepth : k ≤ m.registers.sp := by
      have := Primitive.arity_le hn
      omega
    exact ⟨hc, hanswered.replaced hdepth stocked room⟩
  · exact fun number _ _ => Action.quickPrimitive_ends

/-- On a small machine a comparison by identity leaves its answer for two operands, and an addition of
things that are no integers leaves all as it was. -/
theorem primitive_protocol_bench : bench.memory.Stocked ∧ 8 ≤ bench.registers.sp ∧
    (∃ m', Primitive.identical 1 bench = .ok .done m' ∧ m'.registers.sp + 1 = bench.registers.sp ∧
      Replaced none 1 bench m') ∧
    ∃ m', Primitive.add 1 bench = .error .declined m' ∧ Unmoved bench m' := by
  have stocked := wellFormed_bench.toStocked
  have depth : 8 ≤ bench.registers.sp := by decide
  have protocol := (primitive_protocol stocked depth).1
  refine ⟨stocked, depth, ?_, ?_⟩
  · have hmem : ⟨110, "==", Primitive.identical⟩ ∈ Primitive.all := List.mem_of_getElem? (i := 66) rfl
    have hleads : (Primitive.identical 1).leads bench (fun _ m' =>
        decide (m'.memory.slots.size ≤ 0x100000000)) = true := by decide +kernel
    obtain ⟨c, m', hrun, room⟩ := Attempt.exists_of_leads hleads
    obtain ⟨rfl, hreplaced⟩ := (protocol _ hmem 1).2 (by decide) (by decide) c m' hrun
      (of_decide_eq_true room)
    exact ⟨m', hrun, hreplaced.sp, hreplaced⟩
  · have hmem : ⟨1, "SmallInteger +", Primitive.add⟩ ∈ Primitive.all := List.mem_cons_self
    have hdeclines : (Primitive.add 1).declines bench = true := by decide +kernel
    obtain ⟨m', hrun⟩ := Attempt.exists_of_declines hdeclines
    exact ⟨m', hrun, (protocol _ hmem 1).1 m' hrun⟩

end Machine

end Smalltalk
