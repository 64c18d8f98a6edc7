import Mathlib
import Smalltalk.Proofs.Attending
import Smalltalk.Proofs.Recycling

/-!
# Sealed machines that run

The registers are part of what may refer to contexts, and the machine counts how many frames it may
recycle. A running machine is a sealed one whose registers hold nothing private but the active
context, and whose count is not too high. The scheduler stores processes into lists and lists into
processes, and so it touches no deal; a switch to another process hands the active context out.
-/

namespace Smalltalk.Recycling

open Outcome Machine

/-- The registers hold nothing private but the active context. -/
structure Held (D : Deal) (m : Machine) : Prop where
  context : m.registers.context = D.top
  home : m.registers.home = D.top ∨ Open D m m.registers.home
  home_sender : ∃ y, m.memory.cell m.registers.home Context.sender = some y
  receiver : Open D m m.registers.receiver

/-- A machine that keeps to a deal: it counts no more contexts to recycle than there are, and the
stack of a frame stays above its sender. -/
structure Running (T : Roles) (L : Ledger) (D : Deal) (m : Machine) : Prop
    extends Sealed T L D m, Held D m where
  spare : m.reclaimable ≤ D.spare
  sp : D.line .frames ≠ [] → 1 ≤ m.registers.sp

/-- A machine that keeps to some deal. -/
def Runs (T : Roles) (L : Ledger) (m : Machine) : Prop := ∃ D, Running T L D m

variable {T : Roles} {L : Ledger} {D : Deal} {m m' : Machine} {r r' : Role}
  {v w x y c process list : Value} {i j : Nat}

/-! ### Registers -/

theorem Open.later (h : Open D m x) (later : m.memory.Later m'.memory) : Open D m' x :=
  ⟨later.issued h.1, h.2⟩

theorem cell_of_le (h : m.memory.cell v i = some x) (hj : j ≤ i) :
    ∃ y, m.memory.cell v j = some y := by
  obtain ⟨o, ho, hx⟩ := Memory.cell_eq_some.1 h
  have hlt : j < o.pointers.size := Nat.lt_of_le_of_lt hj (Array.getElem?_eq_some_iff.1 hx).1
  exact ⟨_, Memory.cell_eq_some.2 ⟨o, ho, Array.getElem?_eq_getElem hlt⟩⟩

theorem cell_setCell_isSome (h : ∃ y, m.memory.cell w j = some y) :
    ∃ y, (m.setCell v i x).memory.cell w j = some y := by
  obtain ⟨y, hy⟩ := h
  rw [cell_setCell]
  split
  · rename_i hw
    exact ⟨x, by rw [← hw.1, ← hw.2, hy]; rfl⟩
  · exact ⟨y, hy⟩

theorem Held.setCell (h : Held D m) : Held D (m.setCell v i x) :=
  have later := (Alters.setCell m v i x).later
  ⟨h.context, h.home.imp_right fun ho => ho.later later, cell_setCell_isSome h.home_sender,
    h.receiver.later later⟩

theorem Held.release (h : Held D m) : Held D.release m := by
  have hopen : ∀ {x}, Open D m x → Open D.release m x := fun hx =>
    ⟨hx.1, fun hp => hx.2 (Deal.private_of_release hp)⟩
  exact ⟨by rw [D.release_top]; exact h.context, by rw [D.release_top]; exact h.home.imp_right hopen,
    h.home_sender, hopen h.receiver⟩

/-- The home context is kept while room is made. -/
theorem Held.spares {D' : Deal} (h : Held D m) (hstocked : m.memory.Stocked) (hs : Spares m m')
    (hn : D.Narrows D') : Held D' m' := by
  have hopen : ∀ {x}, Open D m x → Open D' m' x := fun hx =>
    ⟨hs.later.issued hx.1, fun hp => hx.2 (hn.hides _ hp)⟩
  obtain ⟨y, hy⟩ := h.home_sender
  have hmem : m.registers.home ∈ m.anchors :=
    List.mem_append_left _ (List.mem_cons_of_mem _ (List.mem_cons_of_mem _ List.mem_cons_self))
  have hkept := hs.kept hstocked m.registers.home
    (.root (List.mem_append_left _ hmem) (Memory.isLive_of_cell hy))
  constructor
  · rw [hs.registers, h.context, hn.top]
  · rw [hs.registers, hn.top]
    exact h.home.imp_right hopen
  · rw [hs.registers]
    exact ⟨y, (Memory.cell_congr hkept).trans hy⟩
  · rw [hs.registers]
    exact hopen h.receiver

/-- What a context loads into the registers. -/
theorem Sealed.held_of_loaded {r : Registers} (h : Sealed T L D m) (hc : r.context = D.top)
    (hl : Action.Loaded m.memory r.context r) : Held D (m.withRegisters r) := by
  obtain ⟨y, hy⟩ := cell_of_le hl.receiver (Nat.zero_le _)
  refine ⟨hc, ?_, ⟨y, hy⟩, h.open_of_cell hl.receiver (by decide)⟩
  obtain ⟨slot, -, ⟨-, hhome, -⟩ | ⟨-, hhome, -⟩⟩ := hl.home
  · exact .inr (h.open_of_cell hhome (by decide))
  · exact .inl (hhome.trans hc)

theorem Sealed.withRegisters {r : Registers} (h : Sealed T L D m) :
    Sealed T L D (m.withRegisters r) := h.congr rfl rfl rfl rfl

theorem Sealed.saved (h : Sealed T L D m) (hc : T.role m.registers.context = .context) :
    Sealed T L D (Action.saved m) :=
  have h₁ := h.setCell_context (i := Context.instructionPointer) hc (by decide) (h.open_small _)
  h₁.setCell_context hc (by decide) (h₁.open_small _)

theorem later_saved (m : Machine) : m.memory.Later (Action.saved m).memory :=
  (Alters.setCell m ..).later.trans (Alters.setCell _ ..).later

namespace Running

/-- Less may be noticed. -/
theorem less {L' : Ledger} (h : Running T L D m) (known : ∀ x, L'.known x → L.known x)
    (returned : ∀ x, L'.returned x → L.returned x) : Running T L' D m :=
  ⟨h.toSealed.recount (fun x hx => .inl (known x hx)) fun x hx => .inl (returned x hx), h.toHeld,
    h.spare, h.sp⟩

theorem role_context (h : Running T L D m) : T.role m.registers.context = .context := by
  rw [h.context]
  exact h.role_top

/-- A store that keeps to the deal. -/
theorem of_setCell (h : Running T L D m) (hs : Sealed T L D (m.setCell v i x)) :
    Running T L D (m.setCell v i x) := ⟨hs, h.toHeld.setCell, h.spare, h.sp⟩

theorem spares (h : Running T L D m) (hs : Spares m m') : ∃ D', D.Narrows D' ∧ Running T L D' m' := by
  obtain ⟨D', hn, h'⟩ := h.toSealed.spares hs h.context
  refine ⟨D', hn, h', h.toHeld.spares h.stocked hs hn, ?_, ?_⟩
  · rw [hs.reclaimable, hn.spare]
    exact h.spare
  · rw [hs.registers, hn.frames]
    exact h.sp

theorem alike (h : Running T L D m) (memory : m'.memory = m.memory)
    (registers : m'.registers = m.registers) (specials : m'.specials = m.specials)
    (pool : m'.pool = m.pool) (reclaimable : m'.reclaimable = m.reclaimable) :
    Running T L D m' := by
  refine ⟨h.toSealed.congr (by rw [memory]) (by rw [memory]) specials (by rw [pool]), ?_,
    by rw [reclaimable]; exact h.spare, by rw [registers]; exact h.sp⟩
  constructor
  · rw [registers]; exact h.context
  · rw [registers, Open, memory]; exact h.home
  · rw [registers, memory]; exact h.home_sender
  · rw [registers, Open, memory]; exact h.receiver

end Running

/-! ### Following roles -/

theorem Typed.gives_fetch {Q : Value → Machine → Prop} (h : Typed T m) (hw : T.Allows r w)
    (hr : r.field i = some r') (hQ : ∀ x, m.memory.cell w i = some x → T.Allows r' x → Q x m) :
    Gives (Action.fetch w i) m Q :=
  Machine.gives_fetch fun x hx => hQ x hx (h.allows_of_cell hw hr hx)

theorem Typed.gives_scheduler {Q : Value → Machine → Prop} (h : Typed T m)
    (hQ : ∀ x, T.Allows .scheduler x → Q x m) : Gives Action.scheduler m Q :=
  .bind (gives_special (h.gives_fetch (h.allows_special rfl) rfl fun x _ hx => hQ x hx))

/-- A store into an object of the scheduler. -/
theorem Sealed.store (h : Sealed T L D m) (hv : T.Allows r v) (hr : r ≠ .array ∧ r ≠ .context)
    (hfield : ∀ r', r.field i = some r' → T.Allows r' x) (hx : Open D m x)
    (hy : m.memory.cell v i = some y) : Sealed T L D (m.setCell v i x) := by
  have hrole := h.role_of_cell hv hy
  refine h.setCell (h.ne_nil_of_cell hy) (by rw [hrole]; exact hr.1) ?_ hx fun e => ?_
  · intro r' hr'
    rw [hrole] at hr'
    exact hfield r' hr'
  · exact absurd (hrole.symm.trans e) hr.2

theorem Sealed.gives_store {Q : Unit → Machine → Prop} (h : Sealed T L D m) (hv : T.Allows r v)
    (hr : r ≠ .array ∧ r ≠ .context) (hfield : ∀ r', r.field i = some r' → T.Allows r' x)
    (hx : Open D m x) (hQ : Sealed T L D (m.setCell v i x) → Q () (m.setCell v i x)) :
    Gives (Action.store v i x) m Q :=
  Machine.gives_store fun _ hy => hQ (h.store hv hr hfield hx hy)

theorem Sealed.open_of_allows (h : Sealed T L D m) (hx : T.Allows r x) (hr : r ≠ .context) :
    Open D m x := h.open_of_role (hx.ne_context hr)

/-- Without frames, whatever context becomes active is what comes below them. -/
theorem Sealed.activate (h : Sealed T L D m) (hf : D.line .frames = [])
    (hactive : T.role m.registers.context = .context) (hc : Open D m c)
    (hallowed : T.Allows .context c) : Gives (Action.activate c) m fun _ m' =>
      Sealed T L { D with base := c } m' ∧ Held { D with base := c } m' := by
  intro u m' hrun
  obtain ⟨-, r, rfl, rfl, hloaded⟩ := Action.activate_ok hrun
  have h₁ := h.saved hactive
  obtain ⟨slot, hslot, -⟩ := hloaded.home
  have h₂ := h₁.rebase hf (hc.later (later_saved m)) (h₁.role_of_cell hallowed hslot)
  refine ⟨h₂.withRegisters, h₂.held_of_loaded ?_ hloaded⟩
  rw [Deal.top, hf]
  rfl

/-! ### Switches -/

/-- A switch hands the active context out, so the frames are given up. -/
theorem Running.transferTo (h : Running T L D m) (hp : T.Allows .process process) :
    Gives (Action.transferTo process) m fun _ m' => Runs T L m' := by
  have hs := h.toSealed.release
  have hcontext : Open D.release m m.registers.context := by
    rw [h.context, ← D.release_top]
    exact hs.base.1
  refine .bind (h.gives_scheduler fun scheduler hscheduler => ?_)
  refine .bind (h.gives_fetch hscheduler rfl fun old _ hold => ?_)
  refine .bind (hs.gives_store hscheduler (by decide) (Roles.allows_as rfl hp)
    (hs.open_of_allows hp (by decide)) fun h₁ => .bind (gives_registers (.bind ?_)))
  refine h₁.gives_store hold (by decide) (Roles.allows_as rfl (.inr h.role_context))
    (hcontext.later (Alters.setCell ..).later) fun h₂ => ?_
  refine .bind (h₂.gives_fetch hp rfl fun next hnext hallowed => .bind ?_)
  refine (h₂.activate D.release_frames h.role_context (h₂.open_of_cell hnext (by decide))
    hallowed).mono fun _ m₃ ⟨h₃, hheld⟩ => .bind (gives_nil (.bind ?_))
  rw [h₃.nil]
  refine h₃.gives_store hp (by decide) Roles.allows_nil h₃.open_nil fun h₄ => ?_
  have hend := hheld.setCell (v := process) (i := Process.suspendedContext) (x := T.nil)
  exact .bind (.modify (.modify ⟨_, h₄.congr rfl rfl rfl rfl,
    ⟨hend.context, hend.home, hend.home_sender, hend.receiver⟩, Nat.zero_le _,
    fun hne => absurd D.release_frames hne⟩))

/-- The scheduler keeps running machines running. -/
theorem Runs.attends : Attends T.nil T.Allows (Runs T L) where
  allows_nil _ := .inl rfl
  nil_eq := fun ⟨_, h⟩ => h.nil
  special := fun ⟨_, h⟩ hr => h.allows_special hr
  follow := fun ⟨_, h⟩ _ hw hr hx => h.allows_of_cell hw hr hx
  store := by
    rintro m v i x y r ⟨D, h⟩ hr hv hy hx
    have hopen : Open D m x := by
      rcases hx.plain with ⟨n, rfl⟩ | hlist | hprocess
      · exact h.open_small n
      · exact h.open_of_allows hlist (by decide)
      · exact h.open_of_allows hprocess (by decide)
    refine ⟨D, h.of_setCell (h.store hv ?_ hx.field hopen hy)⟩
    rcases hr with rfl | rfl <;> decide
  transferTo := fun ⟨_, h⟩ hp => h.transferTo hp
  interrupts := fun _ ⟨D, h⟩ => ⟨D, h.alike rfl rfl rfl rfl rfl⟩

theorem Running.checkInterrupts (h : Running T L D m) :
    Gives Action.checkInterrupts m fun _ m' => Runs T L m' := Runs.attends.checkInterrupts ⟨D, h⟩

end Smalltalk.Recycling
