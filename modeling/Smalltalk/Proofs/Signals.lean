import Smalltalk.Proofs.Attending
import Smalltalk.Proofs.Scheduling

/-!
# What signals leave alone

An activation ends with a look at the clock, and a semaphore that is due is signalled then. A signal
stores into lists and processes, and into nothing else unless it switches to another process. For
this the objects must be used as what they are: a semaphore that is also a context would have its
stack pointer counted up. So each object is given one role, which all the stores keep, and what has
not been issued counts as a context, since contexts are what an activation makes.
-/

namespace Smalltalk

open Outcome Recycling

/-- Each object is used in one role only. -/
structure Machine.Cast (role : Value → Role) (m : Machine) : Prop where
  array : role m.specials.array = .array
  context : role m.registers.context = .context
  nil : m.specials.nil.isSmall = false ∧ role m.specials.nil = .other
  bare : ∀ i, m.memory.cell m.specials.nil i = none
  fits : ∀ w i x r, m.memory.cell w i = some x → (role w).field i = some r →
    x = m.specials.nil ∨ role x = r
  known : ∀ v, role v ≠ .context → m.memory.Issued v

/-- Whether a value may stand where something of that role is expected. -/
def Machine.Suits (role : Value → Role) (m : Machine) (r : Role) (x : Value) : Prop :=
  x = m.specials.nil ∨ role x = r

namespace Machine

variable {role : Value → Role} {m m₁ m' : Machine} {v w x process list : Value} {i j : Nat}
  {r r' : Role}

namespace Cast

theorem ne_nil_of_cell (h : m.Cast role) (hx : m.memory.cell w i = some x) :
    w ≠ m.specials.nil := by
  rintro rfl
  rw [h.bare] at hx
  cases hx

/-- What has fields where a role is expected has the role. -/
theorem role_of_cell (h : m.Cast role) (hw : m.Suits role r w)
    (hx : m.memory.cell w i = some x) : role w = r := hw.resolve_left (h.ne_nil_of_cell hx)

theorem suits_of_cell (h : m.Cast role) (hw : m.Suits role r w) (hr : r.field i = some r')
    (hx : m.memory.cell w i = some x) : m.Suits role r' x :=
  h.fits w i x r' hx (by rw [h.role_of_cell hw hx, hr])

theorem suits_special (h : m.Cast role) (hr : Role.array.field i = some r) :
    m.Suits role r (m.specials.get m.memory i) := by
  rw [special_eq]
  cases hx : m.memory.cell m.specials.array i with
  | none => exact .inl rfl
  | some x => exact h.suits_of_cell (.inr h.array) hr hx

/-! ### What keeps the roles -/

/-- The roles are kept when no fields appear that do not fit and nothing is given back. -/
theorem of_cells (h : m.Cast role) (specials : m'.specials = m.specials)
    (context : role m'.registers.context = .context) (later : m.memory.Later m'.memory)
    (cells : ∀ w i x, m'.memory.cell w i = some x → m.memory.cell w i = some x ∨
      w ≠ m.specials.nil ∧ ∀ r, (role w).field i = some r → m.Suits role r x) :
    m'.Cast role := by
  refine ⟨specials ▸ h.array, context, specials ▸ h.nil, fun i => ?_, fun w i x r hx hr => ?_,
    fun v hv => later.issued (h.known v hv)⟩
  · rw [specials]
    by_contra hsome
    obtain ⟨x, hx⟩ := Option.ne_none_iff_exists'.1 hsome
    rcases cells _ i x hx with hold | ⟨hne, -⟩
    · exact h.ne_nil_of_cell hold rfl
    · exact hne rfl
  · rw [specials]
    rcases cells w i x hx with hold | ⟨-, hfits⟩
    · exact h.fits w i x r hold hr
    · exact hfits r hr

theorem setCell (h : m.Cast role) (hx : ∀ r, (role v).field i = some r → m.Suits role r x) :
    (m.setCell v i x).Cast role := by
  refine h.of_cells rfl h.context (Alters.setCell m v i x).later fun w j y hy => ?_
  rw [Recycling.cell_setCell] at hy
  split at hy
  · rename_i hw
    obtain ⟨z, hz, rfl⟩ := Option.map_eq_some_iff.1 hy
    rw [hw.1, hw.2]
    exact .inr ⟨h.ne_nil_of_cell hz, hx⟩
  · exact .inl hy

/-- Registers that have a context as the active one keep the roles. -/
theorem withRegisters {r : Registers} (h : m.Cast role) (hr : role r.context = .context) :
    (m.withRegisters r).Cast role :=
  h.of_cells rfl hr (.refl _) fun _ _ _ hx => .inl hx

theorem saved (h : m.Cast role) : (Action.saved m).Cast role := by
  have hfree : ∀ i, i ≠ Context.sender → ∀ r, (role m.registers.context).field i ≠ some r := by
    intro i hi r hr
    rw [h.context, Role.field, if_neg hi] at hr
    cases hr
  have h₁ := h.setCell (v := m.registers.context) (i := Context.instructionPointer)
    (x := .small (Context.encodePc m.registers.pc m.registers.literalCount))
    fun r hr => absurd hr (hfree _ (by decide) r)
  exact h₁.setCell fun r hr => absurd hr (hfree _ (by decide) r)

/-! ### Switches -/

/-- A switch keeps the roles, and it is counted. -/
theorem transferTo (h : m.Cast role) (hprocess : m.Suits role .process process) :
    Gives (Action.transferTo process) m fun _ m' => m'.Cast role ∧ m'.specials = m.specials ∧
      m'.counters.processSwitches = m.counters.processSwitches + 1 := by
  intro u m' hrun
  obtain ⟨s, old, next, r, hs, hold, ⟨y, hy⟩, hnext, rfl, hload, -, rfl⟩ :=
    Scheduling.transferTo_ok hrun
  have hscheduler : role s = .scheduler :=
    h.role_of_cell (h.suits_of_cell (h.suits_special rfl) rfl (Scheduling.scheduler_ok.1 hs).1) hold
  have h₁ : (m.setCell s Scheduler.activeProcess process).Cast role := h.setCell fun r hr => by
    rw [hscheduler] at hr
    exact Option.some.inj hr ▸ hprocess
  have hrole : role old = .process :=
    h₁.role_of_cell (h.suits_of_cell (.inr hscheduler) rfl hold) hy
  have h₂ : (Scheduling.handedOver m s old process).Cast role := h₁.setCell fun r hr => by
    rw [hrole] at hr
    exact Option.some.inj hr ▸ .inr h.context
  obtain ⟨slot, hslot, -⟩ := hload.home
  have h₃ := h₂.saved.withRegisters (r := r)
    (h₂.saved.role_of_cell (h₂.suits_of_cell hprocess rfl hnext) hslot)
  have h₄ := h₃.setCell (v := process) (i := Process.suspendedContext) fun _ _ => .inl rfl
  exact ⟨h₄.of_cells rfl h₄.context (.refl _) fun _ _ _ hx => .inl hx, rfl, rfl⟩

end Cast

/-! ### Signals -/

/-- Nothing but lists and processes has changed, and no process was switched to. -/
structure Quiet (role : Value → Role) (m m' : Machine) : Prop where
  registers : m'.registers = m.registers
  cells : ∀ w, role w ≠ .list → role w ≠ .process → ∀ i,
    m'.memory.cell w i = m.memory.cell w i
  switches : m'.counters.processSwitches = m.counters.processSwitches

/-- The roles are kept, and unless there was a switch all is quiet. -/
structure Serves (role : Value → Role) (m m' : Machine) : Prop where
  cast : m'.Cast role
  specials : m'.specials = m.specials
  quiet : Quiet role m m' ∨ m.counters.processSwitches < m'.counters.processSwitches

namespace Serves

theorem refl (h : m.Cast role) : Serves role m m :=
  ⟨h, rfl, .inl ⟨rfl, fun _ _ _ _ => rfl, rfl⟩⟩

theorem trans (h : Serves role m m₁) (h' : Serves role m₁ m') : Serves role m m' := by
  refine ⟨h'.cast, h'.specials.trans h.specials, ?_⟩
  rcases h.quiet with q | hlt
  · rcases h'.quiet with q' | hlt'
    · exact .inl ⟨q'.registers.trans q.registers,
        fun w hl hp i => (q'.cells w hl hp i).trans (q.cells w hl hp i),
        q'.switches.trans q.switches⟩
    · exact .inr (q.switches ▸ hlt')
  · rcases h'.quiet with q' | hlt'
    · exact .inr (q'.switches.symm ▸ hlt)
    · exact .inr (Nat.lt_trans hlt hlt')

theorem suits_iff (h : Serves role m m') : m'.Suits role r x ↔ m.Suits role r x := by
  rw [Suits, Suits, h.specials]

/-- A change of the counters for interrupts. -/
theorem interrupts (h : Serves role m m') (interrupts : Interrupts) :
    Serves role m { m' with interrupts } where
  cast := h.cast.of_cells rfl h.cast.context (.refl _) fun _ _ _ hx => .inl hx
  specials := h.specials
  quiet := h.quiet.imp_left fun q => ⟨q.registers, q.cells, q.switches⟩

theorem transferTo (h : Serves role m m') (hp : m'.Suits role .process process) :
    Gives (Action.transferTo process) m' fun _ m' => Serves role m m' :=
  (h.cast.transferTo hp).mono fun _ _ ⟨hcast, hspecials, hcount⟩ =>
    h.trans ⟨hcast, hspecials, .inr (by rw [hcount]; exact Nat.lt_succ_self _)⟩

/-- A store into a list or a process. -/
theorem setCell (h : Serves role m m') (hr : r = .list ∨ r = .process) (hv : role v = r)
    (hx : ∀ r', r.field i = some r' → m'.Suits role r' x) : Serves role m (m'.setCell v i x) := by
  subst hv
  refine h.trans ⟨h.cast.setCell hx, rfl, .inl ⟨rfl, fun w hl hp j => ?_, rfl⟩⟩
  exact (Alters.setCell m' v i x).cell fun e => hr.elim (fun hr => hl (e ▸ hr)) fun hr => hp (e ▸ hr)

/-- The scheduler serves. -/
theorem attends : Attends m.specials.nil (m.Suits role) (Serves role m) where
  allows_nil _ := .inl rfl
  nil_eq h := by rw [h.specials]
  special h hr := h.suits_iff.1 (h.cast.suits_special hr)
  follow h _ hw hr hx := h.suits_iff.1 (h.cast.suits_of_cell (h.suits_iff.2 hw) hr hx)
  store h hr hv hy hx := h.setCell hr (h.cast.role_of_cell (h.suits_iff.2 hv) hy) fun r' hr' =>
    h.suits_iff.2 (hx.field r' hr')
  transferTo h hp := h.transferTo (h.suits_iff.2 hp)
  interrupts i h := h.interrupts i

end Serves

/-- A look at the clock serves the semaphores that are due. -/
theorem Cast.checkInterrupts (h : m.Cast role) :
    Gives Action.checkInterrupts m fun _ m' => Serves role m m' :=
  Serves.attends.checkInterrupts (.refl h)

end Machine

end Smalltalk
