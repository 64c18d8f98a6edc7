import Smalltalk.Proofs.Captures
import Smalltalk.Proofs.Endurance
import Smalltalk.Proofs.Signals
import Smalltalk.Proofs.Unwinding

/-!
# Leaving a context and coming back

The registers are a copy of what the active context says, and three paths leave it: a method that is
entered, a block that is entered, and a switch to another process. Each stores the program counter
and the stack pointer into the context before it goes, the first two after the operands were taken
off the stack. Coming back loads the registers from what was stored. The way back is the same as long
as nothing on the way out wrote into the context, its home or its method, so most of what is proved
here is that the objects a detour writes into are other objects. For the context of a new frame this
is no matter of course: it may come from the pool, and then nobody but the pool may use it.
-/

namespace Smalltalk

open Outcome Recycling

/-! ### Stored registers -/

namespace Context

/-- A program counter that can be stored is read back. -/
theorem decodePc?_encodePc {pc literalCount : Nat}
    (h : Value.InRange (pc + (literalCount + 1) * 4 + 1 : Nat)) :
    decodePc? (encodePc pc literalCount) literalCount = some pc := by
  have hle := h.2
  rw [Value.smallMax] at hle
  rw [decodePc?, encodePc, signedWord_of_lt (by omega)]
  rw [if_neg (by omega)]
  congr 1
  omega

theorem decodeSp?_encodeSp (sp : Nat) : decodeSp? (encodeSp sp) = some sp := by
  simp [decodeSp?, encodeSp]

end Context

/-- The registers are those of the active context: home, method, receiver and literal count are what
would be loaded from it, and the program counter and the stack pointer can be stored. -/
structure Machine.Current (m : Machine) : Prop where
  home : ∃ slot, m.memory.cell m.registers.context Context.method = some slot ∧
    ((slot.isSmall = true ∧
        m.memory.cell m.registers.context Context.home = some m.registers.home ∧
        m.memory.cell m.registers.home Context.method = some m.registers.method) ∨
      (slot.isSmall = false ∧ m.registers.home = m.registers.context ∧ m.registers.method = slot))
  receiver : m.memory.cell m.registers.home Context.receiver = some m.registers.receiver
  literalCount : ∃ header, MethodHeader.of m.memory m.registers.method = .ok header ∧
    m.registers.literalCount = header.literalCount
  pc : Value.InRange (m.registers.pc + (m.registers.literalCount + 1) * 4 + 1 : Nat)
  sp : Value.InRange (Context.encodeSp m.registers.sp)

/-- A field of a context that the registers are not stored into. -/
def Context.Keeps (i : Nat) : Prop := i ≠ instructionPointer ∧ i ≠ stackPointer

instance : DecidablePred Context.Keeps := fun _ => inferInstanceAs (Decidable (_ ∧ _))

namespace Action

variable {m : Machine} {w : Value} {i : Nat}

/-- Saving the registers changes two fields. -/
theorem saved_of_keeps (hi : Context.Keeps i) : (saved m).memory.cell w i = m.memory.cell w i := by
  simp only [saved, Machine.setCell]
  rw [Memory.cell_setField, if_neg fun e => hi.2 e.2, Memory.cell_setField, if_neg fun e => hi.1 e.2]

theorem saved_instructionPointer
    (h : ∃ y, m.memory.cell m.registers.context Context.instructionPointer = some y) :
    (saved m).memory.cell m.registers.context Context.instructionPointer =
      some (.small (Context.encodePc m.registers.pc m.registers.literalCount)) := by
  simp only [saved]
  rw [Recycling.cell_setCell, if_neg fun e => absurd e.2 (by decide), Machine.cell_setCell h]
  exact Cells.set_same ..

theorem saved_stackPointer
    (h : ∃ y, m.memory.cell m.registers.context Context.stackPointer = some y) :
    (saved m).memory.cell m.registers.context Context.stackPointer =
      some (.small (Context.encodeSp m.registers.sp)) := by
  have hother : ∃ y, (m.setCell m.registers.context Context.instructionPointer
      (.small (Context.encodePc m.registers.pc m.registers.literalCount))).memory.cell
      m.registers.context Context.stackPointer = some y := cell_setCell_isSome h
  simp only [saved]
  rw [Machine.cell_setCell hother]
  exact Cells.set_same ..

theorem saved_cell_isSome (h : ∃ y, m.memory.cell w i = some y) :
    ∃ y, (saved m).memory.cell w i = some y := cell_setCell_isSome (cell_setCell_isSome h)

end Action

namespace Machine

variable {role : Value → Role} {m m₁ m' : Machine} {c v x : Value} {i n : Nat}

namespace Current

/-- What was stored into the active context is loaded from it again. -/
theorem loaded {memory : Memory} {sp : Nat} (h : m.Current)
    (hcontext : ∀ i, Context.Keeps i →
      memory.cell m.registers.context i = m.memory.cell m.registers.context i)
    (hhome : ∀ i, Context.Keeps i →
      memory.cell m.registers.home i = m.memory.cell m.registers.home i)
    (hmethod : memory.cell m.registers.method 0 = m.memory.cell m.registers.method 0)
    (hpc : memory.cell m.registers.context Context.instructionPointer =
      some (.small (Context.encodePc m.registers.pc m.registers.literalCount)))
    (hsp : memory.cell m.registers.context Context.stackPointer =
      some (.small (Context.encodeSp sp))) :
    Action.Loaded memory m.registers.context { m.registers with sp } where
  home := by
    obtain ⟨slot, hslot, hkind⟩ := h.home
    refine ⟨slot, by rw [hcontext _ (by decide), hslot], hkind.imp_left fun e => ?_⟩
    rw [hcontext _ (by decide), hhome _ (by decide)]
    exact e
  receiver := (hhome _ (by decide)).trans h.receiver
  literalCount := by
    obtain ⟨header, hheader, hcount⟩ := h.literalCount
    exact ⟨header, MethodHeader.of_ok.2 (hmethod.trans (MethodHeader.of_ok.1 hheader)), hcount⟩
  pc := ⟨_, hpc, Context.decodePc?_encodePc h.pc⟩
  sp := ⟨_, hsp, Context.decodeSp?_encodeSp sp⟩

/-- A method is no block: it has its header where a block has its caller. -/
theorem method_header (h : m.Current) :
    ∃ word, m.memory.cell m.registers.method 0 = some (.small word) := by
  obtain ⟨header, hheader, -⟩ := h.literalCount
  exact ⟨_, MethodHeader.of_ok.1 hheader⟩

theorem method_isSmall (h : m.Current) : m.registers.method.isSmall = false := by
  obtain ⟨word, hword⟩ := h.method_header
  have hlive := Memory.isLive_of_cell hword
  cases hm : m.registers.method with
  | small n => exact absurd (hm ▸ hlive) (by simp [Memory.isLive])
  | ref index generation => rfl

/-- The active context has the fields that the registers are stored into. -/
theorem cells (h : m.Current) (hi : i ≤ Context.method) :
    ∃ y, m.memory.cell m.registers.context i = some y := by
  obtain ⟨slot, hslot, -⟩ := h.home
  exact cell_of_le hslot hi

theorem storable (h : m.Current) : m.registers.Storable := by
  have hpc := h.pc
  refine ⟨?_, h.sp⟩
  rw [Context.encodePc, signedWord_of_lt]
  · exact hpc
  · have hle := hpc.2
    rw [Value.smallMax] at hle
    omega

end Current

/-! ### Coming back -/

/-- A machine that has left the active context of `m` for a context on top of it, with `n` arguments
and their receiver off its stack. -/
structure Detour (m : Machine) (n : Nat) (c : Value) (m₁ : Machine) : Prop where
  context : m₁.registers.context = c
  ne : c ≠ m.registers.context
  ne_nil : c ≠ m₁.specials.nil ∧ m.registers.context ≠ m₁.specials.nil
  nil : m₁.specials.nil.isSmall = false
  sender : m₁.memory.cell c Context.sender = some m.registers.context
  pointer : ∃ y, m₁.memory.cell c Context.instructionPointer = some y
  loaded : Action.Loaded m₁.memory m.registers.context
    { m.registers with sp := m.registers.sp - (n + 1) }
  operands : n + 1 ≤ m.registers.sp
  room : ∃ y, m₁.memory.cell m.registers.context (m.registers.sp - n) = some y
  kept : ∀ i, Context.Keeps i →
    m₁.memory.cell m.registers.context i = m.memory.cell m.registers.context i

/-- A machine that is back in the active context of `m`, with a value in the place of `n` arguments
and their receiver. -/
structure Replied (m : Machine) (n : Nat) (v : Value) (m' : Machine) : Prop where
  registers : m'.registers = { m.registers with sp := m.registers.sp - n }
  top : m'.memory.cell m.registers.context (m.registers.sp - n) = some v
  slots : ∀ i, Context.Keeps i → i ≠ m.registers.sp - n →
    m'.memory.cell m.registers.context i = m.memory.cell m.registers.context i

namespace Detour

/-- The way back leaves one context. -/
theorem passage (h : m.Detour n c m₁) : m₁.Passage [c] m.registers.context where
  ne_nil := h.ne_nil.2
  entered := by
    obtain ⟨k, hk, -⟩ := h.loaded.pc
    exact ⟨_, hk, fun e => absurd h.nil (by rw [← e]; simp [Value.isSmall])⟩
  walk := by
    have harrived : ∀ hops, Action.senderPathWithin m.registers.context hops m.registers.context
        m₁ = .ok [] m₁ := fun hops => by
      unfold Action.senderPathWithin
      rw [if_pos rfl]
      rfl
    change Action.senderPathWithin _ (m₁.memory.slots.size + 1) m₁.registers.context m₁ = _
    unfold Action.senderPathWithin
    rw [h.context, if_neg h.ne, bind_of_ok (Action.nil_ok.2 ⟨rfl, rfl⟩), if_neg h.ne_nil.1]
    refine (bind_of_ok (Action.fetch_ok.2 ⟨h.sender, rfl⟩)).trans ?_
    exact bind_of_ok (harrived _)
  nodup := List.nodup_singleton c
  not_mem := fun hmem => h.ne (List.mem_singleton.1 hmem).symm
  cells := fun w hw => List.mem_singleton.1 hw ▸ h.pointer
  sender := fun w hw => by
    obtain rfl := List.mem_singleton.1 hw
    refine ⟨_, h.sender, ?_⟩
    obtain ⟨slot, hslot, -⟩ := h.loaded.home
    have hlive := Memory.isLive_of_cell hslot
    cases hcontext : m.registers.context with
    | small k => exact absurd (hcontext ▸ hlive) (by simp [Memory.isLive])
    | ref index generation => rfl

/-- A return from a detour puts its value where the operands were. -/
theorem returnTo (h : m.Detour n c m₁) (v : Value) :
    ∃ m', Action.returnTo v m.registers.context m₁ = .ok () m' ∧ m.Replied n v m' := by
  have hsp : m.registers.sp - (n + 1) + 1 = m.registers.sp - n := by
    have := h.operands
    omega
  obtain ⟨m₂, hunwound, hrun⟩ := Action.returnTo_of_passage v h.passage h.loaded
    (by rw [hsp]; exact h.room)
  have hsame : ∀ i, m₂.memory.cell m.registers.context i =
      m₁.memory.cell m.registers.context i := fun i => by
    rw [Memory.cell, hunwound.other _ h.passage.not_mem, Memory.cell]
  have hcells := Machine.cell_setCell (x := v) (m := m₂) (v := m.registers.context)
    (i := m.registers.sp - n) (by rw [hsame]; exact h.room)
  rw [Action.pushed, Machine.withRegisters_registers, hsp] at hrun
  refine ⟨_, hrun, rfl, ?_, fun i hi hne => ?_⟩
  · exact (congrFun (congrFun hcells _) _).trans (Cells.set_same ..)
  · refine (congrFun (congrFun hcells _) _).trans ?_
    rw [Cells.set_of_index_ne hne, hsame, h.kept i hi]

end Detour

/-! ### Going away -/

/-- What the registers are loaded from. -/
def frameObjects (m : Machine) : List Value :=
  [m.registers.context, m.registers.home, m.registers.method]

theorem Current.ne_nil (h : m.Current) (hbare : ∀ i, m.memory.cell m.specials.nil i = none) :
    m.registers.context ≠ m.specials.nil := by
  obtain ⟨slot, hslot, -⟩ := h.home
  intro e
  rw [e, hbare] at hslot
  cases hslot

/-- The registers are saved without the operands, and from then on only the new context changes. -/
theorem Current.detour (h : m.Current) (m₂ : Machine) (hnil : m.specials.nil.isSmall = false)
    (hbare : ∀ i, m.memory.cell m.specials.nil i = none) (hspecials : m₁.specials = m.specials)
    (hapart : c ∉ m.frameObjects)
    (hregisters : m₂.registers = { m.registers with sp := m.registers.sp - (n + 1) })
    (hkept : ∀ w ∈ m.frameObjects, ∀ i, m₂.memory.cell w i = m.memory.cell w i)
    (hend : ∀ w, w ≠ c → ∀ i, m₁.memory.cell w i = (Action.saved m₂).memory.cell w i)
    (hcontext : m₁.registers.context = c) (hc : c ≠ m.specials.nil)
    (hsender : m₁.memory.cell c Context.sender = some m.registers.context)
    (hpointer : ∃ y, m₁.memory.cell c Context.instructionPointer = some y)
    (hoperands : n + 1 ≤ m.registers.sp)
    (hroom : ∃ y, m.memory.cell m.registers.context (m.registers.sp - n) = some y) :
    m.Detour n c m₁ := by
  have hne : ∀ w ∈ m.frameObjects, w ≠ c := fun w hw e => hapart (e ▸ hw)
  have hcontext₂ : m₂.registers.context = m.registers.context := by rw [hregisters]
  have hframe : m.registers.context ∈ m.frameObjects := List.mem_cons_self
  have hhome : m.registers.home ∈ m.frameObjects := List.mem_cons_of_mem _ List.mem_cons_self
  have hmethod : m.registers.method ∈ m.frameObjects := by simp [frameObjects]
  have hsame : ∀ w ∈ m.frameObjects, ∀ i, Context.Keeps i →
      m₁.memory.cell w i = m.memory.cell w i := fun w hw i hi => by
    rw [hend w (hne w hw), Action.saved_of_keeps hi, hkept w hw]
  have hcell : ∀ i, i ≤ Context.method → ∃ y, m₂.memory.cell m₂.registers.context i = some y :=
    fun i hi => by
      rw [hcontext₂, hkept _ hframe]
      exact h.cells hi
  have hpc := Action.saved_instructionPointer (hcell _ (by decide))
  have hsp := Action.saved_stackPointer (hcell _ (by decide))
  rw [hcontext₂] at hpc hsp
  rw [hregisters] at hpc hsp
  refine ⟨hcontext, Ne.symm (hne _ hframe), ?_, ?_, hsender, hpointer, ?_, hoperands, ?_,
    hsame _ hframe⟩
  · rw [hspecials]
    exact ⟨hc, h.ne_nil hbare⟩
  · rw [hspecials]
    exact hnil
  · exact h.loaded (hsame _ hframe) (hsame _ hhome) (hsame _ hmethod _ (by decide))
      (by rw [hend _ (hne _ hframe), hpc]) (by rw [hend _ (hne _ hframe), hsp])
  · rw [hend _ (hne _ hframe)]
    refine Action.saved_cell_isSome ?_
    rw [hkept _ hframe]
    exact hroom

/-! ### Blocks -/

/-- Nothing but one object has been stored into. -/
structure Touches (v : Value) (m m' : Machine) : Prop extends Alters m m' v where
  registers : m'.registers = m.registers

namespace Touches

theorem refl (v : Value) (m : Machine) : Touches v m m := ⟨⟨rfl, .refl _, id, fun _ _ => rfl⟩, rfl⟩

theorem setCell (h : Touches v m m₁) (i : Nat) (x : Value) : Touches v m (m₁.setCell v i x) :=
  ⟨h.toAlters.trans (.setCell ..), h.registers⟩

end Touches

/-- A block that is not the active context is not its home or its method either. -/
theorem Current.block_not_mem {block : Value} {k : Int} (h : m.Current)
    (hblock : block ≠ m.registers.context)
    (hcount : m.memory.cell block Context.blockArgCount = some (.small k))
    (hcaller : m.memory.cell block Context.caller = some m.specials.nil)
    (hnil : m.specials.nil.isSmall = false) : block ∉ m.frameObjects := by
  simp only [frameObjects, List.mem_cons, List.not_mem_nil, or_false, not_or]
  refine ⟨hblock, ?_, ?_⟩
  · rintro rfl
    obtain ⟨slot, hslot, ⟨-, -, hmethod⟩ | ⟨-, hhome, -⟩⟩ := h.home
    · have hsmall := h.method_isSmall
      rw [← Option.some.inj (hcount.symm.trans hmethod)] at hsmall
      exact absurd hsmall (by simp [Value.isSmall])
    · exact hblock hhome
  · rintro rfl
    obtain ⟨word, hword⟩ := h.method_header
    rw [← Option.some.inj (hword.symm.trans hcaller)] at hnil
    exact absurd hnil (by simp [Value.isSmall])

/-- A block that is entered is a detour, if it is not the active context. -/
theorem Current.blockValue {block : Value} (h : m.Current) (hnil : m.specials.nil.isSmall = false)
    (hbare : ∀ i, m.memory.cell m.specials.nil i = none)
    (hblock : m.memory.cell m.registers.context (m.registers.sp - n) = some block)
    (hne : block ≠ m.registers.context) :
    Gives (Attempt.blockValue n) m fun _ m₁ => m.Detour n block m₁ := by
  refine .bind (gives_stackValue fun found _ hfound => ?_)
  obtain rfl := Option.some.inj (hblock.symm.trans hfound)
  refine .bind (Attempt.gives_lift (gives_isInstanceOf fun b _ => .bind (Attempt.gives_require ?_)))
  refine fun _ => .bind (Attempt.gives_lift (gives_fetch fun count hcount => ?_))
  refine .bind (Attempt.gives_ofOption fun k hk => .bind (Attempt.gives_require fun _ => ?_))
  refine .bind (Attempt.gives_lift (gives_fetch fun caller hcaller => ?_))
  refine .bind (Attempt.gives_lift (gives_nil (.bind (Attempt.gives_require fun hidle => ?_))))
  refine .bind (Attempt.gives_looks (.lift Action.object_within) fun _ => ?_)
  refine .bind (Attempt.gives_require fun _ => .bind (Attempt.gives_lift fun arguments _ hread => ?_))
  obtain ⟨rfl, -, -⟩ := Action.stackValues_ok hread
  refine .bind (Attempt.gives_lift (gives_fetch fun start hstart => ?_))
  refine .bind (Attempt.gives_lift (gives_registers ?_))
  have hcount : m.memory.cell block Context.blockArgCount = some (.small k) := by
    cases count with
    | small l => rw [hcount, Option.some.inj hk]
    | ref index generation => cases hk
  subst hidle
  have hapart := h.block_not_mem hne hcount hcaller hnil
  refine .bind ((Gives.forM (P := Touches block m) (fun p hp m₁ t => ?_) (.refl ..)).mono
    fun _ m₁ t => ?_)
  · exact Attempt.gives_lift (gives_store fun _ _ => t.setCell _ _)
  refine .bind (Attempt.gives_lift (gives_store fun y hpointer => ?_))
  refine .bind (Attempt.gives_lift (gives_store fun _ _ => .bind (Attempt.gives_lift
    (gives_store fun z hcaller => ?_))))
  have t := ((t.setCell Context.instructionPointer start).setCell Context.stackPointer
    (.small n)).setCell Context.caller m.registers.context
  have hsender := congrFun (congrFun (Machine.cell_setCell (x := m.registers.context) ⟨z, hcaller⟩)
    block) Context.sender
  have hpointer := cell_setCell_isSome (v := block) (i := Context.caller)
    (x := m.registers.context) (cell_setCell_isSome (v := block) (i := Context.stackPointer)
      (x := .small n) (cell_setCell_isSome (v := block) (i := Context.instructionPointer)
        (x := start) ⟨y, hpointer⟩))
  generalize ((m₁.setCell _ _ _).setCell _ _ _).setCell _ _ _ = m₂ at t hsender hpointer ⊢
  refine .bind (Attempt.gives_lift fun _ m₃ hpop => Attempt.gives_lift fun _ m₄ hactivate => ?_)
  obtain ⟨hoperands, rfl⟩ := Action.popN_ok.1 hpop
  obtain ⟨-, r, rfl, hr, -⟩ := Action.activate_ok hactivate
  rw [t.registers] at hoperands ⊢
  have hother : ∀ i, (Action.saved (m₂.withRegisters { m.registers with
      sp := m.registers.sp - (n + 1) })).memory.cell block i = m₂.memory.cell block i := fun i => by
    rw [Action.saved_of_ne (by exact hne), withRegisters_memory]
  refine h.detour (m₂.withRegisters { m.registers with sp := m.registers.sp - (n + 1) })
    hnil hbare t.specials hapart rfl (fun w hw i => t.cell fun e => hapart (e ▸ hw))
    (fun _ _ _ => rfl) hr ?_ ?_ ?_ hoperands ⟨_, hblock⟩
  · rintro rfl
    rw [hbare] at hcount
    cases hcount
  · exact (hother _).trans (hsender.trans (Cells.set_same ..))
  · exact hpointer.imp fun _ hx => (hother _).trans hx

/-! ### New contexts -/

theorem Current.isLive (h : m.Current) {w : Value} (hw : w ∈ m.frameObjects) :
    m.memory.isLive w = true := by
  simp only [frameObjects, List.mem_cons, List.not_mem_nil, or_false] at hw
  rcases hw with rfl | rfl | rfl
  · obtain ⟨slot, hslot, -⟩ := h.home
    exact Memory.isLive_of_cell hslot
  · exact Memory.isLive_of_cell h.receiver
  · obtain ⟨word, hword⟩ := h.method_header
    exact Memory.isLive_of_cell hword

/-- What the registers are loaded from stays when room is made. -/
theorem Current.kept (h : m.Current) (t : Trims m m') {w : Value} (hw : w ∈ m.frameObjects)
    (i : Nat) : m'.memory.cell w i = m.memory.cell w i := by
  have hanchor : w ∈ m.anchors := by
    refine List.mem_append_left _ (List.mem_cons_of_mem _ ?_)
    simp only [frameObjects, List.mem_cons, List.not_mem_nil, or_false] at hw ⊢
    tauto
  exact Memory.cell_congr (t.shape (.root hanchor (h.isLive hw)))

theorem Current.trims (h : m.Current) (t : Trims m m') : m'.Current := by
  have hcontext := h.kept t (w := m.registers.context) (by simp [frameObjects])
  have hhome := h.kept t (w := m.registers.home) (by simp [frameObjects])
  have hmethod := h.kept t (w := m.registers.method) (by simp [frameObjects])
  obtain ⟨header, hheader, hcount⟩ := h.literalCount
  have hheader := MethodHeader.of_ok.2 ((hmethod 0).trans (MethodHeader.of_ok.1 hheader))
  constructor <;> rw [t.registers]
  · simpa only [hcontext, hhome] using h.home
  · rw [hhome, h.receiver]
  · exact ⟨header, hheader, hcount⟩
  · exact h.pc
  · exact h.sp

theorem Cast.trims (h : m.Cast role) (t : Trims m m') : m'.Cast role := by
  refine h.of_cells t.specials (by rw [t.registers]; exact h.context) t.later
    fun w i x hx => .inl ?_
  obtain ⟨o, ho, hi⟩ := Memory.cell_eq_some.1 hx
  exact Memory.cell_eq_some.2 ⟨o, t.object w o ho, hi⟩

/-- A context from the pool is wiped. -/
theorem Cast.wiped {o : Object} {p : ContextPool} (h : m.Cast role) (ho : m.memory.get? c = some o) :
    Cast role { m with
      pool := p
      memory := m.memory.replace c (Action.wiped o m.specials.nil) } := by
  refine h.of_cells rfl h.context (Memory.later_modify ..) fun w i x hx => ?_
  change (m.memory.replace c (Action.wiped o m.specials.nil)).cell w i = some x at hx
  rw [Memory.cell, Memory.replace, Memory.get?_modify] at hx
  split at hx
  · rename_i hw
    subst hw
    rw [ho] at hx
    obtain ⟨hlt, hx⟩ := Array.getElem?_eq_some_iff.1 hx
    simp only [Action.wiped, Array.size_replicate, Array.getElem_replicate] at hlt hx
    obtain ⟨y, hy⟩ := Memory.exists_cell ho hlt
    exact .inr ⟨h.ne_nil_of_cell hy, fun _ _ => .inl hx.symm⟩
  · exact .inl hx

/-- An object without contents is added that is not known to anybody. -/
theorem Cast.placed {o : Object} {p : ContextPool} (h : m.Cast role) (hstocked : m.memory.Stocked)
    (ho : ∀ x ∈ o.pointers, x = m.specials.nil) (hnew : ¬ m.memory.Issued (m.memory.place o).1) :
    Cast role { Action.placed m o with pool := p } := by
  refine h.of_cells rfl h.context (Memory.later_place ..) fun w i x hx => ?_
  rcases hstocked.get?_place o w with e | ⟨e, -, hget⟩
  · refine .inl ?_
    rw [Memory.cell, ← e]
    exact hx
  · obtain ⟨o', ho', hx⟩ := Memory.cell_eq_some.1 hx
    obtain rfl := Option.some.inj (hget.symm.trans ho')
    refine .inr ⟨fun hnil => hnew ?_, fun _ _ => .inl (ho x (Array.mem_of_getElem? hx))⟩
    rw [← e, hnil]
    exact h.known _ (by rw [h.nil.2]; decide)

/-- A context for a new frame: it is used as a context only, and it is neither the active context nor
its home. -/
structure Furnishes (role : Value → Role) (m : Machine) (c : Value) (m' : Machine) : Prop where
  cast : m'.Cast role
  role : role c = .context
  registers : m'.registers = m.registers
  specials : m'.specials = m.specials
  counters : m'.counters = m.counters
  apart : c ≠ m.registers.context ∧ c ≠ m.registers.home
  kept : ∀ w ∈ m.frameObjects, w ≠ c → ∀ i, m'.memory.cell w i = m.memory.cell w i

/-- The first contexts of the pool are used as contexts only, and the registers are not loaded from
any of them. -/
def Spared (role : Value → Role) (m : Machine) : Prop := ∀ large c,
  m.pool.head large = some c → role c = .context ∧ c ≠ m.registers.context ∧ c ≠ m.registers.home

/-- A context from the pool. -/
theorem Cast.furnishes_pooled {o : Object} {p : ContextPool} (h : m.Cast role)
    (hrole : role c = .context)
    (hapart : c ≠ m.registers.context ∧ c ≠ m.registers.home) (ho : m.memory.get? c = some o) :
    Furnishes role m c { m with
      pool := p
      memory := m.memory.replace c (Action.wiped o m.specials.nil) } := by
  refine ⟨h.wiped ho, hrole, rfl, rfl, rfl, hapart, fun w _ hw i => ?_⟩
  rw [Memory.cell, Memory.replace, Memory.get?_modify, if_neg hw, Memory.cell]

/-- A context that is a new object. -/
theorem Cast.furnishes_placed {o : Object} {p : ContextPool} (h : m.Cast role) (hcurrent : m.Current)
    (hstocked : m.memory.Stocked) (ho : ∀ x ∈ o.pointers, x = m.specials.nil)
    (hc : c = (m.memory.place o).1) (live : (Action.placed m o).memory.isLive c = true)
    (room : (Action.placed m o).memory.slots.size ≤ 0x100000000) :
    Furnishes role m c { Action.placed m o with pool := p } := by
  have hnew : ¬ m.memory.Issued c := hc ▸ hstocked.place_unissued room (hc ▸ live)
  have hne : ∀ {w}, m.memory.Issued w → w ≠ c := fun hw e => hnew (e ▸ hw)
  have hrole : role c = .context := by
    by_contra hrole
    exact hnew (h.known c hrole)
  have hframe : ∀ w ∈ m.frameObjects, w ≠ c := fun w hw =>
    hne (Memory.issued_of_isLive (hcurrent.isLive hw))
  exact ⟨h.placed hstocked ho (hc ▸ hnew), hrole, rfl, rfl, rfl,
    ⟨Ne.symm (hframe _ (by simp [frameObjects])), Ne.symm (hframe _ (by simp [frameObjects]))⟩,
    fun w hw _ i => Memory.cell_congr (shape_placed hstocked (hcurrent.isLive hw))⟩

theorem Furnishes.after_trims {m₂ : Machine} (f : Furnishes role m₁ c m₂) (hcurrent : m.Current)
    (t : Trims m m₁) : Furnishes role m c m₂ where
  cast := f.cast
  role := f.role
  registers := f.registers.trans t.registers
  specials := f.specials.trans t.specials
  counters := f.counters.trans (by rw [t.frame])
  apart := by rw [← t.registers]; exact f.apart
  kept w hw hne i := by
    have hframe : m₁.frameObjects = m.frameObjects := by
      simp only [frameObjects, t.registers]
    rw [f.kept w (hframe ▸ hw) hne, hcurrent.kept t hw]

theorem Cast.withPins (h : m.Cast role) (pins : Array Value) : (m.withPins pins).Cast role :=
  h.of_cells rfl h.context (.of_slots rfl) fun _ _ _ hx => .inl hx

theorem Current.withPins (h : m.Current) (pins : Array Value) : (m.withPins pins).Current :=
  ⟨h.home, h.receiver, h.literalCount, h.pc, h.sp⟩

/-- A context that is made while the method is pinned. -/
theorem Cast.gives_context {method : Value} {large : Bool} (h : m.Cast role)
    (hcurrent : m.Current) (hstocked : m.memory.Stocked) (hspared : m.Spared role) :
    Gives (Action.withPins [method] (Action.allocateContext large)) m fun c m' =>
      m'.memory.slots.size ≤ 0x100000000 → m'.memory.isLive c = true → Furnishes role m c m' := by
  intro c m' hrun room live
  obtain ⟨m₂, hinner, rfl⟩ := withPins_ok hrun
  obtain ⟨m₁, t, hsupplied⟩ := Action.allocateContext_ok hinner
  have hpinned := hcurrent.withPins (m.memory.pins ++ [method].toArray)
  have hcast := (h.withPins (m.memory.pins ++ [method].toArray)).trims t
  have hstocked₁ : m₁.memory.Stocked := t.stocked (hstocked.of_slots rfl rfl)
  have f : Furnishes role (m.withPins (m.memory.pins ++ [method].toArray)) c m₂ := by
    refine Furnishes.after_trims ?_ hpinned t
    cases hsupplied with
    | pooled hhead ho hnext =>
      have hwaiting : m.pool.head large = some c := by
        rcases t.pool with e | e
        · rw [e] at hhead
          exact hhead
        · rw [e] at hhead
          cases large <;> cases hhead
      obtain ⟨hrole, hapart⟩ := hspared large c hwaiting
      exact hcast.furnishes_pooled hrole (by rw [t.registers]; exact hapart) ho
    | fresh t' hhead ho hc =>
      refine Furnishes.after_trims ?_ (hpinned.trims t) t'
      refine (hcast.trims t').furnishes_placed ((hpinned.trims t).trims t')
        (t'.stocked hstocked₁) (fun x hx => ?_) hc live room
      rw [ho] at hx
      simp only [Object.ofPointers, Array.mem_replicate] at hx
      exact hx.2.trans (by rw [t'.specials])
  exact ⟨f.cast.withPins _, f.role, f.registers, f.specials, f.counters, f.apart, f.kept⟩

/-! ### Methods -/

/-- A context that is filled for a frame keeps the roles: its sender is a context. -/
theorem Cast.filled {o : Object} {sender method : Value} {frame : Array Value} {count : Nat}
    (h : m.Cast role) (hc : role c = .context) (hsender : role sender = .context)
    (ho : m.memory.get? c = some o) (hsize : 0 < o.pointers.size) :
    (m.modified c fun o => Action.fillFrame o sender method m.specials.nil frame count).Cast role := by
  refine h.of_cells rfl h.context (Memory.later_modify ..) fun w i x hx => ?_
  by_cases hw : w = c
  · subst hw
    obtain ⟨y, hy⟩ := Memory.exists_cell ho hsize
    refine .inr ⟨h.ne_nil_of_cell hy, fun r hr => ?_⟩
    rw [hc, Role.field, Option.ite_none_right_eq_some] at hr
    obtain ⟨rfl, hr⟩ := hr
    obtain rfl := Option.some.inj hr
    rw [Memory.cell, Machine.modified, Memory.get?_modify, if_pos rfl, ho] at hx
    obtain rfl := Option.some.inj ((fillFrame_sender hsize).symm.trans hx)
    exact .inr hsender
  · refine .inl (Eq.trans ?_ hx)
    rw [Memory.cell, Memory.cell, Machine.modified, Memory.get?_modify, if_neg hw]

/-- A furnished context that is filled for a frame is linked to the active one. -/
theorem Furnishes.filled {o : Object} {method : Value} {frame : Array Value} {count : Nat}
    (f : Furnishes role m c m₁) (ho : m₁.memory.get? c = some o) (hsize : 0 < o.pointers.size) :
    Furnishes role m c (m₁.modified c fun o =>
      Action.fillFrame o m₁.registers.context method m₁.specials.nil frame count) ∧
    (m₁.modified c fun o => Action.fillFrame o m₁.registers.context method m₁.specials.nil
      frame count).memory.cell c Context.sender = some m.registers.context := by
  refine ⟨⟨f.cast.filled f.role f.cast.context ho hsize, f.role, f.registers, f.specials, f.counters,
    f.apart, fun w hw hne i => ?_⟩, ?_⟩
  · rw [(Alters.modified m₁ c _).cell hne, f.kept w hw hne]
  · rw [Memory.cell, Machine.modified, Memory.get?_modify, if_pos rfl, ho, ← f.registers]
    exact fillFrame_sender hsize

/-- The last steps into a new context that is linked to the active one. -/
theorem Cast.gives_detour {r : Registers} (h : m.Cast role) (hcurrent : m.Current)
    (hmethod : role m.registers.method = .other) (hr : r.context = c)
    (hlinked : m₁.memory.slots.size ≤ 0x100000000 → Furnishes role m c m₁ ∧
      m₁.memory.cell c Context.sender = some m.registers.context ∧
      ∃ y, m.memory.cell m.registers.context (m.registers.sp - n) = some y) :
    Gives (do
      Action.popN (n + 1)
      modify fun m => { m with reclaimable := m.reclaimable + 1 }
      Action.saveRegisters
      Action.modifyRegisters fun _ => r
      Action.saveRegisters) m₁ fun _ m' => m'.memory.slots.size ≤ 0x100000000 →
        role c = .context ∧ m.Detour n c m' ∧ m'.Cast role ∧ m'.counters = m.counters := by
  intro _ m' hrun room
  obtain ⟨hoperands, -, -, hpointer, -, rfl⟩ := Action.counted_ok hrun
  rw [slots_size_saved, withRegisters_memory, slots_size_saved] at room
  obtain ⟨f, hsender, hroom⟩ := hlinked room
  have hapart : c ∉ m.frameObjects := by
    simp only [frameObjects, List.mem_cons, List.not_mem_nil, or_false, not_or]
    refine ⟨f.apart.1, f.apart.2, ?_⟩
    rintro rfl
    rw [f.role] at hmethod
    exact absurd hmethod (by decide)
  have hne : ∀ w ∈ m.frameObjects, w ≠ c := fun w hw e => hapart (e ▸ hw)
  rw [f.registers] at hoperands
  generalize hm₂ : Action.counted m₁ (n + 1) = m₂ at hpointer ⊢
  have hcast : m₂.Cast role := by
    rw [← hm₂]
    exact f.cast.of_cells rfl f.cast.context (.refl _) fun _ _ _ hx => .inl hx
  have hmemory : m₂.memory = m₁.memory := by rw [← hm₂]; rfl
  have hregisters : m₂.registers = { m.registers with sp := m.registers.sp - (n + 1) } := by
    rw [← hm₂, ← f.registers]
    rfl
  rw [hr] at hpointer
  refine ⟨f.role, hcurrent.detour m₂ h.nil.1 h.bare ?_ hapart hregisters (fun w hw i => ?_)
    (fun w hw i => ?_) hr ?_ ?_ (Action.saved_cell_isSome hpointer) hoperands hroom, ?_, ?_⟩
  · rw [← hm₂]
    exact f.specials
  · rw [hmemory, f.kept w hw (hne w hw)]
  · rw [Action.saved_of_ne (by rw [withRegisters_registers, hr]; exact hw), withRegisters_memory]
  · rw [← f.specials]
    exact f.cast.ne_nil_of_cell hsender
  · rw [Action.saved_of_keeps (by decide), withRegisters_memory, Action.saved_of_keeps (by decide),
      hmemory, hsender]
  · exact (hcast.saved.withRegisters (by rw [hr]; exact f.role)).saved
  · rw [← hm₂]
    exact f.counters

/-- A method that is entered is a detour. -/
theorem Cast.enterMethod {receiver method : Value} (h : m.Cast role) (hcurrent : m.Current)
    (hstocked : m.memory.Stocked) (hspared : m.Spared role)
    (hmethod : role m.registers.method = .other) :
    Gives (Action.enterMethod receiver method n) m fun _ m₁ =>
      m₁.memory.slots.size ≤ 0x100000000 → ∃ c, role c = .context ∧ m.Detour n c m₁ ∧
        m₁.Cast role ∧ m₁.counters = m.counters := by
  refine .bind (.get (.bind fun header _ hheader => ?_))
  obtain ⟨-, rfl⟩ := Action.ofExcept_ok.1 hheader
  refine .bind ((h.gives_context hcurrent hstocked hspared).mono fun c m₁ hfurnishes => ?_)
  refine .bind (gives_nil (.bind (gives_registers (.bind fun frame m₂ hframe => ?_))))
  obtain ⟨x, _, hbottom, -⟩ := bind_ok.1 hframe
  obtain ⟨-, hbottom, -⟩ := Action.stackValue_ok.1 hbottom
  obtain ⟨rfl, -, -⟩ := Action.stackValues_ok hframe
  refine .bind (gives_object fun o ho => .ite (fun _ => .bind .throw) fun hsize => ?_)
  refine .bind fun _ m₂ hfill _ m₃ hrun room => ?_
  obtain rfl := Action.modifyMemory_ok.1 hfill
  have hpositive : 0 < o.pointers.size := by
    simp only [Context.receiver] at hsize
    omega
  refine ⟨c, h.gives_detour hcurrent hmethod ?_ (fun room => ?_) _ _ hrun room⟩
  · rfl
  have f := hfurnishes (slots_size_modify m₁.memory _ _ ▸ room) (Memory.isLive_of_get? ho)
  obtain ⟨f', hsender⟩ := f.filled ho hpositive
  have hframe : m.registers.context ∈ m.frameObjects := List.mem_cons_self
  rw [f.registers, f.kept _ hframe (Ne.symm f.apart.1)] at hbottom
  exact ⟨f', hsender, x, hbottom⟩

/-- What happens to lists and processes does not change the way back. -/
theorem Detour.quiet (h : m.Detour n c m₁) (q : Quiet role m₁ m')
    (hspecials : m'.specials = m₁.specials) (hc : role c = .context)
    (hframe : ∀ w ∈ m.frameObjects, role w ≠ .list ∧ role w ≠ .process) : m.Detour n c m' := by
  have hnew : ∀ i, m'.memory.cell c i = m₁.memory.cell c i := q.cells c (by rw [hc]; decide)
    (by rw [hc]; decide)
  have hsame : ∀ w ∈ m.frameObjects, ∀ i, m'.memory.cell w i = m₁.memory.cell w i := fun w hw =>
    q.cells w (hframe w hw).1 (hframe w hw).2
  have hcontext := hsame m.registers.context List.mem_cons_self
  refine ⟨by rw [q.registers, h.context], h.ne, by rw [hspecials]; exact h.ne_nil,
    by rw [hspecials]; exact h.nil, by rw [hnew, h.sender], by rw [hnew]; exact h.pointer, ?_,
    h.operands, by rw [hcontext]; exact h.room, fun i hi => by rw [hcontext, h.kept i hi]⟩
  exact h.loaded.congr (fun i _ => hcontext i)
    (fun i _ => hsame m.registers.home (by simp [frameObjects]) i)
    (hsame m.registers.method (by simp [frameObjects]) 0)

/-- A method that is activated is a detour, unless another process is switched to. -/
theorem Cast.activateMethod {receiver method : Value} (h : m.Cast role) (hcurrent : m.Current)
    (hstocked : m.memory.Stocked) (hspared : m.Spared role)
    (hhome : role m.registers.home = .context) (hmethod : role m.registers.method = .other)
    (hrun : Action.activateMethod receiver method n m = .ok () m₁)
    (room : m₁.memory.slots.size ≤ 0x100000000)
    (hstays : m₁.counters.processSwitches = m.counters.processSwitches) :
    ∃ c, m.Detour n c m₁ := by
  obtain ⟨_, m₂, henter, hcheck⟩ := bind_ok.1 hrun
  have hremains : Remains m₂ m₁ := Action.checkInterrupts_within _ _ _ hcheck
  obtain ⟨c, hc, hdetour, hcast, hcounters⟩ := h.enterMethod hcurrent hstocked hspared hmethod _ _
    henter (Nat.le_trans hremains.later.size room)
  have hserves := hcast.checkInterrupts _ _ hcheck
  have q := hserves.quiet.resolve_right fun hlt => by
    rw [hcounters, hstays] at hlt
    exact absurd hlt (Nat.lt_irrefl _)
  refine ⟨c, hdetour.quiet q hserves.specials hc fun w hw => ?_⟩
  simp only [frameObjects, List.mem_cons, List.not_mem_nil, or_false] at hw
  rcases hw with rfl | rfl | rfl
  · simp [h.context]
  · simp [hhome]
  · simp [hmethod]

end Machine

/-! ### Other processes -/

namespace Scheduling

open Smalltalk.Action

variable {m : Machine} {s old p v : Value} {r : Registers} {w : Value} {i : Nat}

/-- A context that can be loaded becomes the active one. -/
theorem activate_of
    (hpc : ∃ y, m.memory.cell m.registers.context Context.instructionPointer = some y)
    (hsp : ∃ y, m.memory.cell m.registers.context Context.stackPointer = some y)
    (storable : m.registers.Storable) (hload : Loaded (saved m).memory r.context r) :
    activate r.context m = .ok () ((saved m).withRegisters r) := by
  have hload := loadRegisters_of_loaded
    (m := (saved m).withRegisters { (saved m).registers with context := r.context }) hload
  rw [Machine.withRegisters_twice] at hload
  refine (bind_of_ok (saveRegisters_of hpc hsp storable)).trans ?_
  exact (bind_of_ok (a := ()) (modifyRegisters_ok.2 rfl)).trans hload

/-- What a switch does when nothing is missing for it. -/
theorem transferTo_of (hs : scheduler m = .ok s m)
    (hold : m.memory.cell s Scheduler.activeProcess = some old)
    (hsuspend : ∃ y, m.memory.cell old Process.suspendedContext = some y)
    (hnext : (handedOver m s old p).memory.cell p Process.suspendedContext = some r.context)
    (hpc : ∃ y, m.memory.cell m.registers.context Context.instructionPointer = some y)
    (hsp : ∃ y, m.memory.cell m.registers.context Context.stackPointer = some y)
    (storable : m.registers.Storable)
    (hload : Loaded (saved (handedOver m s old p)).memory r.context r) :
    transferTo p m = .ok () (transferred m s old p r) := by
  have hactivate := activate_of (m := handedOver m s old p)
    (cell_setCell_isSome (cell_setCell_isSome hpc))
    (cell_setCell_isSome (cell_setCell_isSome hsp)) storable hload
  refine (bind_of_ok hs).trans ?_
  refine (bind_of_ok (fetch_ok.2 ⟨hold, rfl⟩)).trans ?_
  refine (bind_of_ok (a := ()) (store_ok.2 ⟨⟨_, hold⟩, rfl⟩)).trans ?_
  refine (bind_of_ok (registers_ok.2 ⟨rfl, rfl⟩)).trans ?_
  refine (bind_of_ok (a := ()) (store_ok.2 ⟨cell_setCell_isSome hsuspend, rfl⟩)).trans ?_
  refine (bind_of_ok (fetch_ok.2 ⟨hnext, rfl⟩)).trans ?_
  refine (bind_of_ok hactivate).trans ?_
  refine (bind_of_ok (nil_ok.2 ⟨rfl, rfl⟩)).trans ?_
  refine (bind_of_ok (a := ()) (store_ok (m := (saved (handedOver m s old p)).withRegisters r).2
    ⟨saved_cell_isSome ⟨_, hnext⟩, rfl⟩)).trans ?_
  exact switched_ok.2 rfl

/-- A switch stores into the fields that hold the active process, the suspended context and the
registers only. -/
theorem transferred_of_keeps (hi : Context.Keeps i) :
    (transferred m s old p r).memory.cell w i = m.memory.cell w i := by
  have hne : i ≠ 1 := hi.1
  change (((saved (handedOver m s old p)).withRegisters r).setCell p Process.suspendedContext
    m.specials.nil).memory.cell w i = _
  rw [Recycling.cell_setCell, if_neg fun e => hne e.2, Machine.withRegisters_memory,
    saved_of_keeps hi, handedOver, Recycling.cell_setCell, if_neg fun e => hne e.2,
    Recycling.cell_setCell, if_neg fun e => hne e.2]

end Scheduling

namespace Machine

variable {role : Value → Role} {m m₁ : Machine} {s old q w : Value} {r : Registers} {i : Nat}

/-- Another process `q` waits to be switched to from the active one, `old`: the registers `r` can be
loaded from the context that it was suspended in, which is not the active context, and stored there
again. -/
structure Parked (role : Value → Role) (m : Machine) (old q : Value) (r : Registers) : Prop where
  active : Action.activeProcess m = .ok old m
  field : ∃ y, m.memory.cell old Process.suspendedContext = some y
  process : role q = .process
  other : q ≠ old
  suspended : m.memory.cell q Process.suspendedContext = some r.context
  loaded : Action.Loaded m.memory r.context r
  apart : r.context ≠ m.registers.context
  storable : r.Storable

/-- A machine that is back in the active context of `m` as if nothing had happened. -/
structure Resumed (m m' : Machine) : Prop where
  registers : m'.registers = m.registers
  slots : ∀ i, Context.Keeps i →
    m'.memory.cell m.registers.context i = m.memory.cell m.registers.context i

namespace Parked

/-- The objects that a switch goes through are used as what they are. -/
theorem roles (h : m.Parked role old q r) (hcast : m.Cast role) : ∃ s,
    Action.scheduler m = .ok s m ∧ m.memory.cell s Scheduler.activeProcess = some old ∧
      role s = .scheduler ∧ role old = .process ∧ role r.context = .context := by
  obtain ⟨s, _, hs, hold⟩ := bind_ok.1 h.active
  obtain ⟨hold, -⟩ := Action.fetch_ok.1 hold
  obtain ⟨hcell, rfl⟩ := Scheduling.scheduler_ok.1 hs
  have hscheduler := hcast.role_of_cell (hcast.suits_of_cell (hcast.suits_special rfl) rfl hcell) hold
  obtain ⟨y, hy⟩ := h.field
  obtain ⟨slot, hslot, -⟩ := h.loaded.home
  exact ⟨s, hs, hold, hscheduler,
    hcast.role_of_cell (hcast.suits_of_cell (.inr hscheduler) rfl hold) hy,
    hcast.role_of_cell (hcast.suits_of_cell (.inr h.process) rfl h.suspended) hslot⟩

/-- What the switch leaves in the objects that are not the active context. -/
theorem cell (h : m.Parked role old q r) (hold : m.memory.cell s Scheduler.activeProcess = some old)
    (hw : w ≠ m.registers.context) :
    (Scheduling.transferred m s old q r).memory.cell w i =
      (((Cells.set m.memory.cell s Scheduler.activeProcess q).set old Process.suspendedContext
        m.registers.context).set q Process.suspendedContext m.specials.nil) w i :=
  Scheduling.transferred_cell ⟨_, hold⟩ (cell_setCell_isSome h.field)
    (Action.saved_cell_isSome (cell_setCell_isSome (cell_setCell_isSome ⟨_, h.suspended⟩))) hw

/-- The switch to the other process succeeds. -/
theorem transferTo (h : m.Parked role old q r) (hs : Action.scheduler m = .ok s m)
    (hold : m.memory.cell s Scheduler.activeProcess = some old) (hscheduler : role s = .scheduler)
    (hprocess : role old = .process) (hcontext : role r.context = .context)
    (hcells : ∀ i ≤ Context.method, ∃ y, m.memory.cell m.registers.context i = some y)
    (storable : m.registers.Storable) :
    Action.transferTo q m = .ok () (Scheduling.transferred m s old q r) := by
  have hhanded : ∀ w, role w ≠ .scheduler → w ≠ old → ∀ i,
      (Scheduling.handedOver m s old q).memory.cell w i = m.memory.cell w i := fun w hw hne i => by
    have hws : w ≠ s := fun e => hw (e ▸ hscheduler)
    rw [Scheduling.handedOver, Recycling.cell_setCell, if_neg fun e => hne e.1,
      Recycling.cell_setCell, if_neg fun e => hws e.1]
  have hkeeps : ∀ w i, Context.Keeps i →
      (Action.saved (Scheduling.handedOver m s old q)).memory.cell w i = m.memory.cell w i :=
    fun w i hi => by
      have hne : i ≠ 1 := hi.1
      rw [Action.saved_of_keeps hi, Scheduling.handedOver, Recycling.cell_setCell,
        if_neg fun e => hne e.2, Recycling.cell_setCell, if_neg fun e => hne e.2]
  refine Scheduling.transferTo_of hs hold h.field ?_ (hcells _ (by decide)) (hcells _ (by decide))
    storable (h.loaded.congr (fun i _ => ?_) (fun i hi => ?_) (hkeeps _ _ (by decide)))
  · rw [hhanded q (by rw [h.process]; decide) h.other]
    exact h.suspended
  · rw [Action.saved_of_ne (by exact h.apart)]
    refine hhanded _ (by rw [hcontext]; decide) ?_ i
    rintro e
    rw [e, hprocess] at hcontext
    exact absurd hcontext (by decide)
  · exact hkeeps _ i ⟨fun e => absurd (e ▸ hi) (by decide), fun e => absurd (e ▸ hi) (by decide)⟩

/-- After the switch the process that was active is the one to be switched to. -/
theorem back (h : m.Parked role old q r) (hcast : m.Cast role) (hcurrent : m.Current)
    (hs : Action.scheduler m = .ok s m)
    (hold : m.memory.cell s Scheduler.activeProcess = some old) (hscheduler : role s = .scheduler)
    (hprocess : role old = .process) :
    (Scheduling.transferred m s old q r).Parked role q old m.registers := by
  have hne : ∀ {v w : Value} {a b : Role}, role v = a → role w = b → a ≠ b → v ≠ w :=
    fun hv hw hab e => hab (hv.symm.trans (e ▸ hw))
  have hsc := hne hscheduler hcast.context (by decide)
  have hsq := hne hscheduler h.process (by decide)
  have hso := hne hscheduler hprocess (by decide)
  have hqc := hne h.process hcast.context (by decide)
  have hoc := hne hprocess hcast.context (by decide)
  obtain ⟨hcell, -⟩ := Scheduling.scheduler_ok.1 hs
  have hassociation := hcast.role_of_cell (hcast.suits_special rfl) hcell
  have hspecial : ∀ i, Context.Keeps i → (Scheduling.transferred m s old q r).specials.get
      (Scheduling.transferred m s old q r).memory i = m.specials.get m.memory i := fun i hi => by
    rw [special_eq, Scheduling.transferred_of_keeps hi]
    rfl
  have hactive : Action.scheduler (Scheduling.transferred m s old q r) =
      .ok s (Scheduling.transferred m s old q r) := by
    refine Scheduling.scheduler_ok.2 ⟨?_, rfl⟩
    rw [hspecial _ (by decide), h.cell hold (hne hassociation hcast.context (by decide)),
      Cells.set_of_ne (hne hassociation h.process (by decide)),
      Cells.set_of_ne (hne hassociation hprocess (by decide)),
      Cells.set_of_ne (hne hassociation hscheduler (by decide)), hcell]
  have hrunning : (Scheduling.transferred m s old q r).memory.cell s Scheduler.activeProcess =
      some q := by
    rw [h.cell hold hsc, Cells.set_of_ne hsq, Cells.set_of_ne hso, Cells.set_same]
  refine ⟨?_, ⟨m.specials.nil, ?_⟩, hprocess, h.other.symm, ?_, ?_, h.apart.symm, hcurrent.storable⟩
  · exact (bind_of_ok hactive).trans (Action.fetch_ok.2 ⟨hrunning, rfl⟩)
  · rw [h.cell hold hqc, Cells.set_same]
  · rw [h.cell hold hoc, Cells.set_of_ne h.other.symm, Cells.set_same]
  · have hsaved : ∀ i, (Scheduling.transferred m s old q r).memory.cell m.registers.context i =
        (Action.saved (Scheduling.handedOver m s old q)).memory.cell m.registers.context i :=
      fun i => (Recycling.cell_setCell ..).trans (if_neg fun e => hqc e.1.symm)
    have hcells : ∀ i ≤ Context.method, ∃ y,
        (Scheduling.handedOver m s old q).memory.cell m.registers.context i = some y := fun i hi =>
      cell_setCell_isSome (cell_setCell_isSome (hcurrent.cells hi))
    refine hcurrent.loaded (fun i hi => ?_) (fun i hi => ?_) ?_ ?_ ?_
    · exact Scheduling.transferred_of_keeps hi
    · exact Scheduling.transferred_of_keeps hi
    · exact Scheduling.transferred_of_keeps (by decide)
    · exact (hsaved _).trans (Action.saved_instructionPointer (hcells _ (by decide)))
    · exact (hsaved _).trans (Action.saved_stackPointer (hcells _ (by decide)))

/-- A switch to the other process and one back. -/
theorem thereAndBack (h : m.Parked role old q r) (hcast : m.Cast role) (hcurrent : m.Current) :
    ∃ m₁ m₂, Action.transferTo q m = .ok () m₁ ∧ m₁.registers = r ∧
      Action.transferTo old m₁ = .ok () m₂ ∧ m.Resumed m₂ := by
  obtain ⟨s, hs, hold, hscheduler, hprocess, hcontext⟩ := h.roles hcast
  have hthere := h.transferTo hs hold hscheduler hprocess hcontext (fun _ => hcurrent.cells)
    hcurrent.storable
  have hback := h.back hcast hcurrent hs hold hscheduler hprocess
  obtain ⟨slot, hslot, -⟩ := h.loaded.home
  obtain ⟨hcast₁, -⟩ := hcast.transferTo (.inr h.process) _ _ hthere
  obtain ⟨s', hs', hold', hscheduler', -, -⟩ := hback.roles hcast₁
  refine ⟨_, _, hthere, rfl, hback.transferTo hs' hold' hscheduler' h.process hcast.context
    (fun i hi => ?_) h.storable, rfl, fun i hi => ?_⟩
  · exact cell_of_le ((Scheduling.transferred_of_keeps (by decide)).trans hslot) hi
  · rw [Scheduling.transferred_of_keeps hi, Scheduling.transferred_of_keeps hi]

end Parked

/-! ### All three -/

variable {m : Machine}

/-- Whether a method was activated, a block was entered or another process was switched to: coming
back restores the registers and the stack below the operands. The answer takes the place of the
operands; a switch there and back leaves the stack pointer as it was, too. -/
theorem detours_restore (hcurrent : m.Current) (hnil : m.specials.nil.isSmall = false)
    (hbare : ∀ i, m.memory.cell m.specials.nil i = none) :
    (∀ role, m.Cast role → m.memory.Stocked → m.Spared role →
      role m.registers.home = .context → role m.registers.method = .other →
      ∀ receiver method n m₁ v, Action.activateMethod receiver method n m = .ok () m₁ →
        m₁.memory.slots.size ≤ 0x100000000 →
        m₁.counters.processSwitches = m.counters.processSwitches →
        ∃ m₂, Action.returnTo v m.registers.context m₁ = .ok () m₂ ∧ m.Replied n v m₂) ∧
    (∀ n block m₁ v, m.memory.cell m.registers.context (m.registers.sp - n) = some block →
      block ≠ m.registers.context → Attempt.blockValue n m = .ok () m₁ →
        ∃ m₂, Action.returnTo v m.registers.context m₁ = .ok () m₂ ∧ m.Replied n v m₂) ∧
    (∀ role old q r, m.Cast role → m.Parked role old q r →
      ∃ m₁ m₂, Action.transferTo q m = .ok () m₁ ∧ m₁.registers = r ∧
        Action.transferTo old m₁ = .ok () m₂ ∧ m.Resumed m₂) := by
  refine ⟨fun role hcast hstocked hspared hhome hmethod receiver method n m₁ v hrun room hstays => ?_,
    fun n block m₁ v hblock hne hrun => ?_, fun role old q r hcast h => h.thereAndBack hcast hcurrent⟩
  · obtain ⟨c, hdetour⟩ :=
      hcast.activateMethod hcurrent hstocked hspared hhome hmethod hrun room hstays
    exact hdetour.returnTo v
  · exact (hcurrent.blockValue hnil hbare hblock hne _ _ hrun).returnTo v

open Scheduling (place)

/-- A context at its start, with the fields from the third on. -/
def stillContext (cls : Nat) (fields : List Value) : Object :=
  .ofPointers (place cls) .indexable (List.toArray
    ([place 0, .small 5, .small 0] ++ fields ++ List.replicate (20 - fields.length) (place 0)))

/-- A machine with these objects, of which the first is nil and the second holds the special
objects, and with no other registers than these. -/
def ofObjects (objects : List Object) (context home method sp : Nat) : Machine :=
  (Machine.create (filled (.empty .standard) objects)
    { array := place 1, nil := place 0, falseObject := place 0, trueObject := place 0 } {} default
    ).withRegisters
    { context := place context, home := place home, method := place method, receiver := place 0
      pc := 0, sp, literalCount := 0 }

theorem bare_of_pointers (h : (m.memory.get? v).map Object.pointers = some #[]) (i : Nat) :
    m.memory.cell v i = none := by
  obtain ⟨o, ho, hnone⟩ := Option.map_eq_some_iff.1 h
  rw [Memory.cell, ho, Option.bind_some, hnone, Array.getElem?_empty]

/-- The first objects of a machine are used as these. All objects that are made later are contexts. -/
def rolesOf (roles : List Role) : Value → Role
  | .small _ => .other
  | .ref index generation =>
    if generation = 0 then roles.getD index.toNat .context else .context

/-- Whether the objects of a machine are used in these roles can be looked up. -/
theorem cast_rolesOf {roles : List Role} (tabled : m.memory.Tabled)
    (array : rolesOf roles m.specials.array = .array)
    (context : rolesOf roles m.registers.context = .context)
    (nil : m.specials.nil.isSmall = false ∧ rolesOf roles m.specials.nil = .other)
    (bare : (m.memory.get? m.specials.nil).map Object.pointers = some #[])
    (fits : ∀ w ∈ m.memory.table.toList, ∀ o ∈ (m.memory.get? w).toList,
      ∀ p ∈ o.pointers.toList.zipIdx, ∀ r ∈ (rolesOf roles w).field p.2,
        p.1 = m.specials.nil ∨ rolesOf roles p.1 = r)
    (live : ∀ k < roles.length, m.memory.isLive (place k) = true) : m.Cast (rolesOf roles) where
  array := array
  context := context
  nil := nil
  bare := bare_of_pointers bare
  fits w i x r hx := by
    exact forall_cell (P := fun w i x => ∀ r ∈ (rolesOf roles w).field i,
      x = m.specials.nil ∨ rolesOf roles x = r) tabled fits hx r
  known v hv := by
    cases v with
    | small n => trivial
    | ref index generation =>
      simp only [rolesOf] at hv
      split at hv
      · rename_i hgeneration
        have hlt : index.toNat < roles.length := by
          by_contra hle
          exact hv (List.getD_eq_default _ _ (Nat.le_of_not_lt hle))
        have hindex := live index.toNat hlt
        rw [place, UInt32.ofNat_toNat, ← hgeneration] at hindex
        exact Memory.issued_of_isLive hindex
      · exact absurd rfl hv

/-- Two processes, each in a context of the same method, and a block of the first one on its stack.
-/
def junction : Machine :=
  let pointers fields := Object.ofPointers (place 0) .indexable (List.toArray fields)
  ofObjects
    [pointers [],
      pointers ([place 0, place 0, place 0, place 4] ++ List.replicate 6 (place 0) ++
        [place 2, place 3]),
      pointers [], pointers [], pointers [place 0, place 5], pointers [place 0, place 6],
      pointers [place 0, place 0], pointers [place 0, place 10],
      .ofMethod (place 0) #[.small 0] #[120],
      stillContext 2 [place 8, place 0, place 0, place 11], stillContext 2 [place 8],
      stillContext 3 [.small 0, .small 5, place 9]] 9 9 8 6

/-- What the objects of the junction are used as. All objects that are made later are contexts. -/
def junctionRole : Value → Role
  | .small _ => .other
  | .ref index generation =>
    if generation = 0 then
      [Role.other, .array, .other, .other, .association, .scheduler, .process, .process, .other
        ].getD index.toNat .context
    else .context

/-- The registers of the context in which the second process was suspended. -/
def junctionWaiting : Registers where
  context := place 10
  home := place 10
  method := place 8
  receiver := place 0
  pc := 0
  sp := 5
  literalCount := 0

theorem wellFormed_junction : junction.memory.WellFormed :=
  wellFormed_filled (Memory.wellFormed_empty _) (by decide +kernel)

theorem current_junction : junction.Current where
  home := ⟨place 8, by decide +kernel, .inr ⟨rfl, rfl, rfl⟩⟩
  receiver := by decide +kernel
  literalCount := ⟨⟨0⟩, MethodHeader.of_ok.2 (by decide +kernel), by decide⟩
  pc := by decide
  sp := by decide

theorem bare_junction (i : Nat) : junction.memory.cell (place 0) i = none :=
  bare_of_pointers (by decide +kernel) i

theorem cast_junction : junction.Cast junctionRole := by
  have hcast : junction.Cast (rolesOf [.other, .array, .other, .other, .association, .scheduler,
      .process, .process, .other]) :=
    cast_rolesOf wellFormed_junction.toTabled (by decide) (by decide) (by decide) (by decide +kernel)
      (by decide +kernel) (by decide +kernel)
  exact hcast

theorem parked_junction :
    junction.Parked junctionRole (place 6) (place 7) junctionWaiting where
  active := by
    have hscheduler : Action.scheduler junction = .ok (place 5) junction :=
      (Scheduling.scheduler_ok_of_cells (a := place 4) (by decide +kernel) (by decide +kernel)).2
        ⟨rfl, rfl⟩
    exact (bind_of_ok hscheduler).trans (Action.fetch_ok.2 ⟨by decide +kernel, rfl⟩)
  field := ⟨place 0, by decide +kernel⟩
  process := rfl
  other := by decide
  suspended := by decide +kernel
  loaded := ⟨⟨place 8, by decide +kernel, .inr ⟨rfl, rfl, rfl⟩⟩, by decide +kernel,
    ⟨⟨0⟩, MethodHeader.of_ok.2 (by decide +kernel), by decide⟩,
    ⟨5, by decide +kernel, by decide⟩, ⟨0, by decide +kernel, by decide⟩⟩
  apart := by decide
  storable := by decide

/-- All three detours from one machine. -/
theorem detours_restore_junction : junction.Current ∧ junction.Cast junctionRole ∧
    (∃ m₁ m₂, Action.activateMethod (place 11) (place 8) 0 junction = .ok () m₁ ∧
      Action.returnTo (.small 3) (place 9) m₁ = .ok () m₂ ∧ junction.Replied 0 (.small 3) m₂) ∧
    (∃ m₁ m₂, Attempt.blockValue 0 junction = .ok () m₁ ∧
      Action.returnTo (.small 3) (place 9) m₁ = .ok () m₂ ∧ junction.Replied 0 (.small 3) m₂) ∧
    (∃ m₁ m₂, Action.transferTo (place 7) junction = .ok () m₁ ∧
      m₁.registers = junctionWaiting ∧ Action.transferTo (place 6) m₁ = .ok () m₂ ∧
      junction.Resumed m₂) := by
  obtain ⟨hmethod, hblock, hswitch⟩ :=
    detours_restore current_junction cast_junction.nil.1 bare_junction
  refine ⟨current_junction, cast_junction, ?_, ?_, ?_⟩
  · have hrun := ok_landing (y := Action.activateMethod (place 11) (place 8) 0) (m := junction)
      (by decide +kernel)
    obtain ⟨m₂, hreturn, hreplied⟩ := hmethod junctionRole cast_junction
      wellFormed_junction.toStocked (fun large c hc => by cases large <;> cases hc) rfl rfl
      _ _ 0 _ (.small 3) hrun (by decide +kernel) (by decide +kernel)
    exact ⟨_, m₂, hrun, hreturn, hreplied⟩
  · obtain ⟨m₁, hrun⟩ : ∃ m₁, Attempt.blockValue 0 junction = .ok () m₁ := by
      have hends : (Attempt.blockValue 0 junction matches .ok ..) = true := by decide +kernel
      cases hrun : Attempt.blockValue 0 junction with
      | ok u m₁ => exact ⟨m₁, rfl⟩
      | error e m₁ =>
        rw [hrun] at hends
        cases hends
    obtain ⟨m₂, hreturn, hreplied⟩ := hblock 0 (place 11) m₁ (.small 3) (by decide +kernel)
      (by decide) hrun
    exact ⟨m₁, m₂, hrun, hreturn, hreplied⟩
  · exact hswitch junctionRole (place 6) (place 7) junctionWaiting cast_junction parked_junction

/-- What no context has as its sender is on no chain but its own. -/
theorem eq_of_unsent {c : Cells} {w x : Value} (h : OnChain c w x)
    (hx : ∀ p, c p Context.sender ≠ some x) : w = x := by
  obtain ⟨path, rfl, hpath⟩ := h
  induction path with
  | nil => rfl
  | cons p ps ih => exact absurd (hpath.1.trans (congrArg some (ih hpath.2))) (hx p)

/-- A block is active whose home waits in the pool. -/
def hollow : Machine :=
  let pointers fields := Object.ofPointers (place 0) .indexable (List.toArray fields)
  let method := Object.ofMethod (place 0) #[.small 0] #[120]
  let m := ofObjects
    [pointers [], pointers (List.replicate 10 (place 0) ++ [place 2, place 3]), pointers [],
      pointers [], method, method, (stillContext 2 [place 4]).cut (place 0) (place 0),
      stillContext 3 [.small 0, .small 5, place 6]] 7 6 4 6
  { m with pool := { m.pool with small := some (place 6) } }

/-- That no context on the sender chain waits in the pool is not enough: the home of a block stands on
no chain. When it does wait there, the next method that is entered takes its place, and the block
goes on in that method. -/
theorem hollow_home_is_taken : hollow.Current ∧
    (∀ large c, hollow.pool.head large = some c →
      c = place 6 ∧ hollow.memory.cell c Context.sender = some hollow.specials.nil) ∧
    (∀ w, w ≠ place 6 → ¬ OnChain hollow.memory.cell w (place 6)) ∧
    ∃ m₁ m₂, Action.activateMethod (place 0) (place 5) 0 hollow = .ok () m₁ ∧
      m₁.counters.processSwitches = hollow.counters.processSwitches ∧
      Action.returnTo (.small 3) (place 7) m₁ = .ok () m₂ ∧
      hollow.registers.method = place 4 ∧ m₂.registers.method = place 5 := by
  have hwell : hollow.memory.WellFormed :=
    wellFormed_filled (Memory.wellFormed_empty _) (by decide +kernel)
  have hunsent : ∀ w, hollow.memory.cell w Context.sender ≠ some (place 6) := fun w hw => by
    have hcheck : ∀ w ∈ hollow.memory.table.toList, ∀ o ∈ (hollow.memory.get? w).toList,
        ∀ p ∈ o.pointers.toList.zipIdx, p.2 = Context.sender → p.1 ≠ place 6 := by decide +kernel
    exact forall_cell (P := fun _ i x => i = Context.sender → x ≠ place 6) hwell.toTabled hcheck hw
      rfl rfl
  refine ⟨⟨⟨.small 0, by decide +kernel, .inl ⟨rfl, by decide +kernel, by decide +kernel⟩⟩,
    by decide +kernel, ⟨⟨0⟩, MethodHeader.of_ok.2 (by decide +kernel), by decide⟩, by decide,
    by decide⟩, fun large c hc => ?_, fun w hw hchain => ?_, ?_⟩
  · cases large with
    | false =>
      obtain rfl := Option.some.inj hc
      exact ⟨rfl, by decide +kernel⟩
    | true => cases hc
  · exact hw (eq_of_unsent hchain hunsent)
  · have hrun := ok_landing (y := Action.activateMethod (place 0) (place 5) 0) (m := hollow)
      (by decide +kernel)
    have hreturn := ok_landing (y := Action.returnTo (.small 3) (place 7))
      (m := landing (Action.activateMethod (place 0) (place 5) 0) hollow) (by decide +kernel)
    exact ⟨_, _, hrun, by decide +kernel, hreturn, by decide, by decide +kernel⟩

end Machine

end Smalltalk
