import Smalltalk.Proofs.Detours

/-!
# Fresh frames

Nothing of the past can be seen in the context that a method starts in. The context may come from the
pool, and then it still holds the frame of an earlier activation and a link to the next context of its
chain; or it is a new object. Either way it is blank before the frame is filled, and what it holds from
then on depends on nothing but the active context, the method, the receiver and the arguments. The
active context itself gets its two registers stored and stays as it was otherwise.

An activation ends with a look at the clock. What that signals stores into neither of the two contexts
if each object is used in one role only, but a semaphore that is itself a context is counted up where
a context has its stack pointer.
-/

namespace Smalltalk

open Outcome Recycling

variable {role : Value → Role} {m m₁ m₂ m' : Machine} {c receiver method nil sender x : Value}
  {arguments : List Value} {header : MethodHeader} {large : Bool} {i k n number count : Nat}

/-! ### The frame -/

namespace Context

/-- The fields of a context with nothing on its stack but the arguments, and nil in the temporaries. -/
def fields (sender pc sp method nil receiver : Value) (arguments : List Value) (large : Bool) :
    List Value :=
  [sender, pc, sp, method, nil, receiver] ++ arguments ++
    List.replicate (size large - (frameStart + arguments.length)) nil

/-- The fields of a context in which a method starts. -/
def atStart (sender method nil receiver : Value) (arguments : List Value) (header : MethodHeader) :
    List Value :=
  fields sender (.small (encodePc 0 header.literalCount))
    (.small (encodeSp (Context.receiver + header.tempCount))) method nil receiver arguments
    header.largeFrame

/-- The registers have fields of their own. -/
theorem fields_of_keeps {pc sp pc' sp' : Value} (hi : Keeps i) :
    (fields sender pc sp method nil receiver arguments large)[i]? =
      (fields sender pc' sp' method nil receiver arguments large)[i]? := by
  obtain ⟨hpc, hsp⟩ := hi
  match i, hpc, hsp with
  | 0, _, _ => rfl
  | 1, hpc, _ => exact absurd rfl hpc
  | 2, _, hsp => exact absurd rfl hsp
  | _ + 3, _, _ => rfl

end Context

namespace Action

/-- A blank object that is filled for a frame. -/
theorem fillFrame_blank {o : Object} (ho : o.pointers = Array.replicate (Context.size large) nil)
    (hfits : Context.receiver + max (receiver :: arguments).length (count + 1) ≤ Context.size large) :
    (fillFrame o sender method nil (receiver :: arguments).toArray count).pointers.toList =
      Context.fields sender nil nil method nil receiver arguments large := by
  unfold Context.fields
  generalize Context.size large = k at ho hfits ⊢
  simp only [List.length_cons, Context.receiver] at hfits
  have hfixed : o.pointers.extract 0 Context.receiver = #[nil, nil, nil, nil, nil] := by
    rw [ho, Array.extract_replicate, Context.receiver, Nat.min_eq_left (by omega)]
    rfl
  have hrest : (count + 1 - (arguments.length + 1)) +
      (k - (Context.receiver + (arguments.length + 1 + (count + 1 - (arguments.length + 1))))) =
      k - (Context.frameStart + arguments.length) := by
    simp only [Context.receiver, Context.frameStart]
    omega
  simp only [fillFrame, hfixed, Array.toList_append, List.size_toArray, List.length_cons,
    Array.toList_replicate, Array.size_append, Array.size_replicate]
  rw [ho, Array.size_replicate, Array.extract_replicate, Array.toList_replicate, Nat.min_self, ← hrest,
    ← List.replicate_append_replicate]
  simp [Context.method, Context.initialPointer, Context.sender]

/-- What is on the stack depends on the active context and the stack pointer only. -/
theorem stackValues_frame {xs : List Value} (hcontext : m'.registers.context = m.registers.context)
    (hsp : m'.registers.sp = m.registers.sp)
    (hcells : ∀ i, m'.memory.cell m.registers.context i = m.memory.cell m.registers.context i)
    (h : stackValues n m = .ok xs m) : stackValues n m' = .ok xs m' := by
  induction n generalizing xs with
  | zero =>
    obtain ⟨rfl, -⟩ := pure_ok.1 h
    rfl
  | succ n ih =>
    obtain ⟨x, m₁, hfirst, htail⟩ := bind_ok.1 h
    obtain ⟨hdepth, hx, rfl⟩ := stackValue_ok.1 hfirst
    obtain ⟨rest, m₂, hrest, hend⟩ := bind_ok.1 htail
    obtain ⟨rfl, rfl⟩ := pure_ok.1 hend
    have hread : stackValue n m' = .ok x m' := by
      refine stackValue_ok.2 ⟨?_, ?_, rfl⟩
      · rw [hsp]
        exact hdepth
      · rw [hcontext, hsp, hcells]
        exact hx
    exact (bind_of_ok hread).trans (bind_of_ok (ih hrest))

theorem stackValues_congr {xs : List Value} (hregisters : m'.registers = m.registers)
    (hcells : ∀ i, m'.memory.cell m.registers.context i = m.memory.cell m.registers.context i)
    (h : stackValues n m = .ok xs m) : stackValues n m' = .ok xs m' :=
  stackValues_frame (by rw [hregisters]) (by rw [hregisters]) hcells h

/-- Values on the stack stand in an object. -/
theorem isLive_of_stackValues {xs : List Value} (h : stackValues n m = .ok (x :: xs) m') :
    m.memory.isLive m.registers.context = true := by
  obtain ⟨-, -, hvalues⟩ := stackValues_ok h
  obtain ⟨depth, -, -, hcell⟩ := hvalues x List.mem_cons_self
  exact Memory.isLive_of_cell hcell

end Action

namespace Machine

/-! ### The pool -/

/-- The contexts that the pool gives out next have the size of their chain, and the active context is
none of them. -/
def Ready (m : Machine) : Prop := ∀ large c, m.pool.head large = some c →
  c ≠ m.registers.context ∧ ∃ o, m.memory.get? c = some o ∧ o.pointers.size = Context.size large

/-- The contexts that the pool gives out next are used as contexts only. -/
def Lends (role : Value → Role) (m : Machine) : Prop := ∀ large c,
  m.pool.head large = some c → role c = .context

/-! ### Room -/

namespace Spares

/-- The pool gives out what it would have given out before, or nothing. -/
theorem head (h : Spares m m') (hc : m'.pool.head large = some c) : m.pool.head large = some c := by
  rcases h.pool with e | e
  · rw [← e, hc]
  · rw [e] at hc
    cases large <;> cases hc

/-- The active context stays as it is. -/
theorem shape_active (h : Spares m m') (hstocked : m.memory.Stocked)
    (live : m.memory.isLive m.registers.context = true) :
    m'.memory.shape m.registers.context = m.memory.shape m.registers.context := by
  have hanchor : m.registers.context ∈ m.anchors ++ m'.pool.roots := by simp [Machine.anchors]
  exact h.kept hstocked _ (.root hanchor live)

theorem active (h : Spares m m') (hstocked : m.memory.Stocked)
    (live : m.memory.isLive m.registers.context = true) (i : Nat) :
    m'.memory.cell m.registers.context i = m.memory.cell m.registers.context i :=
  Memory.cell_congr (h.shape_active hstocked live)

theorem isLive_active (h : Spares m m') (hstocked : m.memory.Stocked)
    (live : m.memory.isLive m.registers.context = true) :
    m'.memory.isLive m'.registers.context = true := by
  obtain ⟨s, hs⟩ := Memory.isLive_iff_shape.1 live
  rw [h.registers]
  exact Memory.isLive_iff_shape.2 ⟨s, (h.shape_active hstocked live).trans hs⟩

theorem ready (h : Spares m m') (hstocked : m.memory.Stocked) (hready : m.Ready) : m'.Ready := by
  intro large c hc
  obtain ⟨hne, o, ho, hsize⟩ := hready large c (h.head hc)
  have hroot : c ∈ m.anchors ++ m'.pool.roots := List.mem_append_right _ (mem_roots_of_head hc)
  have hkept := h.kept hstocked c (.root hroot (Memory.isLive_of_get? ho))
  obtain ⟨o', ho', -, hpointers⟩ :=
    Memory.shape_eq_some.1 (hkept.trans (Memory.shape_of_get? ho))
  exact ⟨h.registers ▸ hne, o', ho', by rw [hpointers, hsize]⟩

theorem lends (h : Spares m m') (hlends : m.Lends role) : m'.Lends role :=
  fun large c hc => hlends large c (h.head hc)

theorem castRoles (h : Spares m m') (hstocked : m.memory.Stocked) (hcast : m.Cast role) : m'.Cast role :=
  hcast.of_cells h.specials (h.registers ▸ hcast.context) h.later
    fun _ _ _ hx => .inl (h.cell hstocked hx)

end Spares

/-! ### Blank contexts -/

/-- A blank context has been supplied that is not the active one, and the active one is as it was. -/
structure Blank (m : Machine) (large : Bool) (c : Value) (m' : Machine) : Prop where
  registers : m'.registers = m.registers
  specials : m'.specials = m.specials
  counters : m'.counters = m.counters
  other : c ≠ m.registers.context
  blank : ∃ o, m'.memory.get? c = some o ∧
    o.pointers = Array.replicate (Context.size large) m.specials.nil
  kept : ∀ i, m'.memory.cell m.registers.context i = m.memory.cell m.registers.context i
  cast : ∀ role, m.Cast role → m.Lends role → m'.Cast role ∧ role c = .context

/-- Room is made before the context is supplied. -/
theorem Blank.after_trims (b : Blank m₁ large c m') (t : Trims m m₁) (hstocked : m.memory.Stocked)
    (live : m.memory.isLive m.registers.context = true) : Blank m large c m' where
  registers := b.registers.trans t.registers
  specials := b.specials.trans t.specials
  counters := b.counters.trans (by rw [t.frame])
  other := t.registers ▸ b.other
  blank := by
    obtain ⟨o, ho, hpointers⟩ := b.blank
    exact ⟨o, ho, by rw [hpointers, t.specials]⟩
  kept i := by
    rw [← t.registers, b.kept, t.registers]
    exact (Undone.of_trims t).active hstocked live i
  cast role h hlends := b.cast role (h.trims t) ((Undone.of_trims t).lends hlends)

/-- A context from the pool is blank because it is wiped, a new one because it is made so. -/
theorem blank_of_supplied (hs : Action.Supplied large m c m') (hstocked : m.memory.Stocked)
    (hready : m.Ready) (live : m.memory.isLive m.registers.context = true)
    (room : m'.memory.slots.size ≤ 0x100000000) (hlive : m'.memory.isLive c = true) :
    Blank m large c m' := by
  cases hs with
  | @pooled o next hhead ho hnext =>
    obtain ⟨hne, o', ho', hsize⟩ := hready large c hhead
    obtain rfl := Option.some.inj (ho.symm.trans ho')
    have hwiped (w : Value) : (m.memory.replace c (Action.wiped o m.specials.nil)).get? w =
        if w = c then some (Action.wiped o m.specials.nil) else m.memory.get? w := by
      rw [Memory.replace, Memory.get?_modify, ho]
      rfl
    refine ⟨rfl, rfl, rfl, hne, ⟨_, (hwiped c).trans (if_pos rfl), ?_⟩, fun i => ?_,
      fun role h hlends => ⟨h.wiped ho, hlends large c hhead⟩⟩
    · rw [← hsize]
      rfl
    · rw [Memory.cell, hwiped, if_neg (Ne.symm hne), Memory.cell]
  | @fresh m₁ hash o t hhead ho hc =>
    have hstocked₁ := t.stocked hstocked
    have live₁ := (Undone.of_trims t).isLive_active hstocked live
    have hnew : ¬ m₁.memory.Issued (m₁.memory.place o).1 :=
      hstocked₁.place_unissued room (hc ▸ hlive)
    have hblank : ∀ x ∈ o.pointers, x = m₁.specials.nil := fun x hx => by
      rw [ho] at hx
      rw [t.specials]
      exact (Array.mem_replicate.1 hx).2
    refine Blank.after_trims ?_ t hstocked live
    refine ⟨rfl, rfl, rfl, ?_, ⟨o, ?_, ?_⟩, fun i => ?_,
      fun role h hlends => ⟨h.placed hstocked₁ hblank hnew, ?_⟩⟩
    · rintro rfl
      exact hnew (hc ▸ Memory.issued_of_isLive live₁)
    · rcases hstocked₁.get?_place o c with e | ⟨-, -, hget⟩
      · refine absurd (Memory.issued_of_isLive ?_) (hc ▸ hnew)
        rw [Memory.isLive, ← e]
        exact hlive
      · exact hget
    · rw [ho, t.specials]
      rfl
    · exact Memory.cell_congr (shape_placed hstocked₁ live₁)
    · by_contra hrole
      exact hnew (hc ▸ h.known c hrole)

/-- A context that is made while the method is pinned. -/
theorem gives_blank (hstocked : m.memory.Stocked) (hready : m.Ready)
    (live : m.memory.isLive m.registers.context = true) :
    Gives (Action.withPins [method] (Action.allocateContext large)) m fun c m' =>
      m'.memory.slots.size ≤ 0x100000000 → m'.memory.isLive c = true → Blank m large c m' := by
  intro c m' hrun room hlive
  obtain ⟨m₂, hinner, rfl⟩ := withPins_ok hrun
  obtain ⟨m₁, t, hsupplied⟩ := Action.allocateContext_ok hinner
  have hpinned : (m.withPins (m.memory.pins ++ [method].toArray)).memory.Stocked :=
    hstocked.of_slots rfl rfl
  have hspares := (Undone.of_trims t).toSpares
  have b := (blank_of_supplied hsupplied (t.stocked hpinned) (hspares.ready hpinned hready)
    (hspares.isLive_active hpinned live) room hlive).after_trims t hpinned live
  exact ⟨b.registers, b.specials, b.counters, b.other, b.blank, b.kept, fun role h hlends =>
    (b.cast role (h.withPins _) hlends).imp_left fun h => h.withPins _⟩

/-! ### Entering a method -/

/-- A method starts in a context of its own. What the context holds is determined by the context that
was active, the method, the receiver and the arguments; the context that was active has the registers
stored, without the operands. -/
structure Starts (m : Machine) (receiver method : Value) (arguments : List Value)
    (header : MethodHeader) (m' : Machine) : Prop where
  registers : m'.registers = {
    context := m'.registers.context
    home := m'.registers.context
    method
    receiver
    pc := 0
    sp := Context.receiver + header.tempCount
    literalCount := header.literalCount }
  other : m'.registers.context ≠ m.registers.context
  frame : ∀ i, m'.memory.cell m'.registers.context i =
    (Context.atStart m.registers.context method m.specials.nil receiver arguments header)[i]?
  pc : m'.memory.cell m.registers.context Context.instructionPointer =
    some (.small (Context.encodePc m.registers.pc m.registers.literalCount))
  sp : m'.memory.cell m.registers.context Context.stackPointer =
    some (.small (Context.encodeSp (m.registers.sp - (arguments.length + 1))))
  kept : ∀ i, Context.Keeps i →
    m'.memory.cell m.registers.context i = m.memory.cell m.registers.context i

namespace Starts

/-- What cannot be seen from the two contexts does not matter. -/
theorem congr (h : Starts m receiver method arguments header m₁)
    (registers : m'.registers = m₁.registers)
    (frame : ∀ i, m'.memory.cell m₁.registers.context i = m₁.memory.cell m₁.registers.context i)
    (sender : ∀ i, m'.memory.cell m.registers.context i = m₁.memory.cell m.registers.context i) :
    Starts m receiver method arguments header m' where
  registers := registers ▸ h.registers
  other := registers ▸ h.other
  frame i := by rw [registers, frame, h.frame]
  pc := by rw [sender, h.pc]
  sp := by rw [sender, h.sp]
  kept i hi := by rw [sender, h.kept i hi]

/-- Room was made before the method was entered. -/
theorem after_spares (h : Starts m₁ receiver method arguments header m') (hs : Spares m m₁)
    (hstocked : m.memory.Stocked) (live : m.memory.isLive m.registers.context = true) :
    Starts m receiver method arguments header m' where
  registers := h.registers
  other := hs.registers ▸ h.other
  frame := by
    rw [← hs.registers, ← hs.specials]
    exact h.frame
  pc := by
    rw [← hs.registers]
    exact h.pc
  sp := by
    rw [← hs.registers]
    exact h.sp
  kept i hi := by
    rw [← hs.active hstocked live, ← hs.registers]
    exact h.kept i hi

end Starts

/-- The frame is filled in a context of its own, and nothing has been stored into the active one. -/
structure Framed (m : Machine) (receiver method : Value) (arguments : List Value)
    (header : MethodHeader) (c : Value) (m' : Machine) : Prop where
  registers : m'.registers = m.registers
  counters : m'.counters = m.counters
  other : c ≠ m.registers.context
  frame : ∀ i, m'.memory.cell c i = (Context.fields m.registers.context m.specials.nil m.specials.nil
    method m.specials.nil receiver arguments header.largeFrame)[i]?
  kept : ∀ i, m'.memory.cell m.registers.context i = m.memory.cell m.registers.context i
  cast : ∀ role, m.Cast role → m.Lends role → m'.Cast role ∧ role c = .context

/-- A blank context is filled for a frame. -/
theorem Blank.framed {o : Object} (b : Blank m header.largeFrame c m₁) (ho : m₁.memory.get? c = some o)
    (hfits : Context.receiver + max (receiver :: arguments).length (header.tempCount + 1) ≤
      o.pointers.size) :
    Framed m receiver method arguments header c (m₁.modified c fun o => Action.fillFrame o
      m₁.registers.context method m₁.specials.nil (receiver :: arguments).toArray header.tempCount) := by
  obtain ⟨o', ho', hblank⟩ := b.blank
  obtain rfl := Option.some.inj (ho.symm.trans ho')
  have hsize : o.pointers.size = Context.size header.largeFrame := by
    rw [hblank, Array.size_replicate]
  refine ⟨b.registers, b.counters, b.other, fun i => ?_, fun i => ?_, fun role h hlends => ?_⟩
  · rw [Memory.cell, modified, Memory.get?_modify, if_pos rfl, ho, b.registers, b.specials]
    refine (Array.getElem?_toList ..).symm.trans ?_
    rw [Action.fillFrame_blank hblank (hsize ▸ hfits)]
  · rw [(Alters.modified m₁ c _).cell (Ne.symm b.other), b.kept]
  · obtain ⟨hcast, hrole⟩ := b.cast role h hlends
    refine ⟨hcast.filled hrole hcast.context ho ?_, hrole⟩
    rw [hsize]
    cases header.largeFrame <;> decide

/-- Once a frame is filled, the arguments are taken off the stack and the registers are set. -/
theorem gives_starts (hfilled : m₁.memory.slots.size ≤ 0x100000000 →
      Framed m receiver method arguments header c m₁) :
    Gives (do
      Action.popN (arguments.length + 1)
      modify fun m => { m with reclaimable := m.reclaimable + 1 }
      Action.saveRegisters
      Action.modifyRegisters fun _ => {
        context := c
        home := c
        method
        receiver
        pc := 0
        sp := Context.receiver + header.tempCount
        literalCount := header.literalCount }
      Action.saveRegisters) m₁ fun _ m' => m'.memory.slots.size ≤ 0x100000000 →
        Starts m receiver method arguments header m' ∧ m'.counters = m.counters ∧
          ∀ role, m.Cast role → m.Lends role →
            m'.Cast role ∧ role m'.registers.context = .context := by
  intro _ m' hrun room
  obtain ⟨-, hpc, hsp, hpc', hsp', rfl⟩ := Action.counted_ok hrun
  rw [slots_size_saved, withRegisters_memory, slots_size_saved] at room
  have f := hfilled room
  rw [f.registers] at hpc hsp
  generalize hm₂ : Action.counted m₁ (arguments.length + 1) = m₂ at hpc' hsp' ⊢
  have hmemory : m₂.memory = m₁.memory := by rw [← hm₂]; rfl
  have hregisters : m₂.registers = { m.registers with
      sp := m.registers.sp - (arguments.length + 1) } := by rw [← hm₂, ← f.registers]; rfl
  have hactive : m₂.registers.context = m.registers.context := by rw [hregisters]
  have hnew (i : Nat) : (Action.saved m₂).memory.cell c i = m₁.memory.cell c i := by
    rw [Action.saved_of_ne (hactive ▸ f.other), hmemory]
  have hold (r : Registers) (hr : r.context = c) (i : Nat) :
      (Action.saved ((Action.saved m₂).withRegisters r)).memory.cell m.registers.context i =
        (Action.saved m₂).memory.cell m.registers.context i := by
    rw [Action.saved_of_ne (by rw [withRegisters_registers, hr]; exact Ne.symm f.other),
      withRegisters_memory]
  refine ⟨⟨rfl, f.other, fun i => ?_, ?_, ?_, fun i hi => ?_⟩, ?_, fun role h hlends => ?_⟩
  · by_cases hi : Context.Keeps i
    · rw [Action.saved_of_keeps hi, withRegisters_memory]
      exact (hnew i).trans ((f.frame i).trans (Context.fields_of_keeps hi))
    · rcases not_and_or.1 hi with hi | hi
      · obtain rfl := not_not.1 hi
        exact Action.saved_instructionPointer hpc'
      · obtain rfl := not_not.1 hi
        exact Action.saved_stackPointer hsp'
  · rw [hold _ rfl]
    have hstored := Action.saved_instructionPointer (m := m₂) (by rw [hmemory, hactive]; exact hpc)
    rw [hactive] at hstored
    rw [hstored, hregisters]
  · rw [hold _ rfl]
    have hstored := Action.saved_stackPointer (m := m₂) (by rw [hmemory, hactive]; exact hsp)
    rw [hactive] at hstored
    rw [hstored, hregisters]
  · rw [hold _ rfl, Action.saved_of_keeps hi, hmemory, f.kept]
  · rw [← hm₂]
    exact f.counters
  · obtain ⟨hcast, hrole⟩ := f.cast role h hlends
    have hcast₂ : m₂.Cast role := by
      rw [← hm₂]
      exact hcast.of_cells rfl hcast.context (.refl _) fun _ _ _ hx => .inl hx
    exact ⟨(hcast₂.saved.withRegisters hrole).saved, hrole⟩

/-- A method that is entered starts in a fresh frame. -/
theorem gives_enterMethod (hstocked : m.memory.Stocked) (hready : m.Ready)
    (hheader : MethodHeader.of m.memory method = .ok header)
    (hstack : Action.stackValues (arguments.length + 1) m = .ok (receiver :: arguments) m) :
    Gives (Action.enterMethod receiver method arguments.length) m fun _ m' =>
      m'.memory.slots.size ≤ 0x100000000 →
        Starts m receiver method arguments header m' ∧ m'.counters = m.counters ∧
          ∀ role, m.Cast role → m.Lends role →
            m'.Cast role ∧ role m'.registers.context = .context := by
  have live := Action.isLive_of_stackValues hstack
  refine .bind (.get (.bind fun found _ hread => ?_))
  obtain ⟨hfound, rfl⟩ := Action.ofExcept_ok.1 hread
  obtain rfl := Except.ok.inj (hfound.symm.trans hheader)
  refine .bind ((gives_blank hstocked hready live).mono fun c m₁ hblank => ?_)
  refine .bind (gives_nil (.bind (gives_registers (.bind fun frame m₂ hframe => ?_))))
  obtain ⟨rfl, -, -⟩ := Action.stackValues_ok hframe
  refine .bind (gives_object fun o ho => .ite (fun _ => .bind .throw) fun hsize => ?_)
  refine .bind fun _ m₂ hfill => ?_
  obtain rfl := Action.modifyMemory_ok.1 hfill
  have hfilled (room : (m₁.modified c fun o => Action.fillFrame o m₁.registers.context method
      m₁.specials.nil frame.toArray found.tempCount).memory.slots.size ≤ 0x100000000) :
      Framed m receiver method arguments found c (m₁.modified c fun o => Action.fillFrame o
        m₁.registers.context method m₁.specials.nil frame.toArray found.tempCount) := by
    have b := hblank (slots_size_modify m₁.memory _ _ ▸ room) (Memory.isLive_of_get? ho)
    have hsame := Action.stackValues_congr b.registers b.kept hstack
    obtain rfl := (EStateM.Result.ok.inj (hframe.symm.trans hsame)).1
    exact b.framed ho (Nat.le_of_not_lt hsize)
  exact gives_starts hfilled

/-! ### The look at the clock -/

/-- Whether the next look at the clock finds a semaphore due. -/
def Alarmed (m : Machine) : Prop :=
  ¬0 < m.interrupts.counter ∧ (m.interrupts.signalLowSpace = true ∨ m.interrupts.pending = true ∨
    ∃ sampled, m.interrupts.sample m.settings m.clock.milliseconds = .ok sampled ∧
      sampled.nextWakeup ≠ 0 ∧ sampled.nextWakeup ≤ m.clock.milliseconds)

/-- A look at the clock sets the counters only. -/
theorem sample_ok {i sampled : Interrupts} {settings : MachineSettings} {now : Int}
    (h : i.sample settings now = .ok sampled) : sampled.pending = i.pending := by
  unfold Interrupts.sample at h
  cases hwakeup : i.wakeupAfter now with
  | error e => simp [hwakeup, bind, Except.bind] at h
  | ok wakeup =>
    cases hreset : i.resetAfter settings now with
    | error e => simp [hwakeup, hreset, bind, Except.bind] at h
    | ok reset =>
      simp only [hwakeup, hreset, bind, Except.bind, pure, Except.pure, Except.ok.injEq] at h
      rw [← h]

/-- A look at the clock fails only where a sum leaves its word. -/
theorem sample_error {i : Interrupts} {settings : MachineSettings} {now : Int} {e : Fault}
    (h : i.sample settings now = .error e) :
    ∃ n, ¬Width.integer64.Holds n ∧ e = .panic (.overflow .integer64 n) := by
  have fails {n : Int} (h : Width.integer64.check n = .error e) :
      ∃ n, ¬Width.integer64.Holds n ∧ e = .panic (.overflow .integer64 n) :=
    ⟨n, (Width.check_error h).2, (Width.check_error h).1⟩
  rcases Checked.bind_error.1 h with hwakeup | ⟨_, -, h⟩
  · unfold Interrupts.wakeupAfter at hwakeup
    split at hwakeup
    · rcases Checked.bind_error.1 hwakeup with h | ⟨_, -, h⟩ <;> exact fails h
    · exact absurd hwakeup Checked.pure_ne_error
  · rcases Checked.bind_error.1 h with hreset | ⟨_, -, h⟩
    · rcases Checked.bind_error.1 hreset with h | ⟨passed, -, h⟩
      · exact fails h
      · split at h
        · exact fails h
        · split at h
          · exact absurd h Checked.pure_ne_error
          · exact fails h
    · exact absurd h Checked.pure_ne_error

/-- When no semaphore is due nothing but the interrupt counters changes, and the look fails only where
a sum of times leaves its word. -/
theorem checkInterrupts_unalarmed (h : ¬m.Alarmed) :
    (∃ interrupts, Action.checkInterrupts m = .ok () { m with interrupts }) ∨
      ∃ n, ¬Width.integer64.Holds n ∧
        Action.checkInterrupts m = .error (.panic (.overflow .integer64 n)) m := by
  have hget (m : Machine) : (get : Action Machine) m = .ok m m := rfl
  unfold Action.checkInterrupts
  rw [bind_of_ok (hget m)]
  by_cases hcounter : 0 < m.interrupts.counter
  · rw [if_pos hcounter]
    exact .inl ⟨_, rfl⟩
  simp only [Alarmed, hcounter, not_false_eq_true, true_and, not_or, Bool.not_eq_true,
    not_exists] at h
  obtain ⟨hspace, hpending, hwakeup⟩ := h
  rw [if_neg hcounter, bind_of_ok (hget m), bind_of_ok (hget m)]
  cases hsample : m.interrupts.sample m.settings m.clock.milliseconds with
  | error e =>
    obtain ⟨n, hn, rfl⟩ := sample_error hsample
    exact .inr ⟨n, hn, rfl⟩
  | ok sampled =>
    have hset : Action.modifyInterrupts (fun _ => sampled) m =
        .ok () { m with interrupts := sampled } := rfl
    refine .inl ⟨sampled, ?_⟩
    rw [bind_of_ok (Action.ofExcept_ok.2 ⟨rfl, rfl⟩), bind_of_ok hset, if_neg (by rw [hspace]; decide)]
    refine (bind_of_ok (hget _)).trans ?_
    rw [if_neg (by rw [sample_ok hsample, hpending]; decide)]
    refine (bind_of_ok (hget _)).trans ?_
    rw [if_neg fun e => hwakeup sampled ⟨hsample, e⟩]
    rfl

/-! ### Activations -/

/-- A method that has no primitive, or whose primitive declines, starts in a fresh frame. The frame is
the same after the look at the clock if no semaphore is due then or each object is used in one role
only. -/
theorem activateMethod_starts (stocked : m.memory.Stocked) (ready : m.Ready)
    (declined : number = 0 ∧ m₁ = m ∨
      Action.tryPrimitive number arguments.length m = .ok .unhandled m₁)
    (headed : MethodHeader.of m.memory method = .ok header)
    (stack : Action.stackValues (arguments.length + 1) m = .ok (receiver :: arguments) m)
    (activated : Action.activateMethod receiver method arguments.length m₁ = .ok () m')
    (room : m'.memory.slots.size ≤ 0x100000000)
    (stays : m'.counters.processSwitches = m₁.counters.processSwitches) :
    ∃ m₂, Action.enterMethod receiver method arguments.length m₁ = .ok () m₂ ∧
      Action.checkInterrupts m₂ = .ok () m' ∧ Starts m receiver method arguments header m₂ ∧
      ((¬m₂.Alarmed ∨ ∃ role, m.Cast role ∧ m.Lends role) →
        Starts m receiver method arguments header m') := by
  obtain ⟨_, m₂, henter, hcheck⟩ := bind_ok.1 activated
  have hspares : Spares m m₁ := by
    rcases declined with ⟨-, rfl⟩ | hdeclined
    · exact (Undone.refl _).toSpares
    · exact (gives_tryPrimitive _ _ hdeclined rfl).toSpares
  have live := Action.isLive_of_stackValues stack
  have headed₁ : MethodHeader.of m₁.memory method = .ok header := by
    obtain ⟨_, _, hget, hrest⟩ := bind_ok.1 henter
    obtain ⟨rfl, rfl⟩ := get_ok.1 hget
    obtain ⟨found, _, hread, -⟩ := bind_ok.1 hrest
    obtain ⟨hfound, -⟩ := Action.ofExcept_ok.1 hread
    have hsame := MethodHeader.of_ok.2 (hspares.cell stocked (MethodHeader.of_ok.1 hfound))
    rw [hfound, ← hsame, headed]
  have hremains : Remains m₂ m' := Action.checkInterrupts_within _ _ _ hcheck
  obtain ⟨hstarts, hcounters, hcast⟩ := gives_enterMethod (hspares.stocked stocked)
    (hspares.ready stocked ready) headed₁
    (Action.stackValues_congr hspares.registers (hspares.active stocked live) stack) _ _ henter
    (Nat.le_trans hremains.later.size room)
  have hfresh := hstarts.after_spares hspares stocked live
  refine ⟨m₂, henter, hcheck, hfresh, ?_⟩
  rintro (hquiet | ⟨role, h, hlends⟩)
  · rcases checkInterrupts_unalarmed hquiet with ⟨interrupts, hends⟩ | ⟨_, -, hends⟩
    · obtain rfl := (EStateM.Result.ok.inj (hcheck.symm.trans hends)).2
      exact hfresh.congr rfl (fun _ => rfl) fun _ => rfl
    · rw [hcheck] at hends
      cases hends
  · obtain ⟨h₂, hrole⟩ := hcast role (hspares.castRoles stocked h) (hspares.lends hlends)
    have hserves := h₂.checkInterrupts _ _ hcheck
    have q := hserves.quiet.resolve_right fun hlt => by
      rw [hcounters, stays] at hlt
      exact absurd hlt (Nat.lt_irrefl _)
    exact hfresh.congr q.registers (q.cells _ (by rw [hrole]; decide) (by rw [hrole]; decide))
      (q.cells _ (by rw [h.context]; decide) (by rw [h.context]; decide))

open Scheduling (place)

/-- An old frame waits in the pool. A receiver and its argument stand on the stack, and an interrupt is
wanted, which signals the object that is told. -/
def desk (semaphore : Nat) : Machine :=
  let pointers fields := Object.ofPointers (place 0) .indexable (List.toArray fields)
  let m := ofObjects
    [pointers [], pointers (List.replicate Special.interruptSemaphore (place 0) ++ [place semaphore]),
      pointers [], .ofMethod (place 0) #[.small (MethodHeader.encode 1 2 0 false 0).word] #[120],
      pointers [place 0, place 0, .small 0],
      stillContext 2 [place 3, place 0, place 0, .small 7, .small 8],
      pointers ([place 0, .small 9, .small 3, place 3, place 0] ++ List.replicate 18 (.small 100))]
    5 5 3 7
  ({ m with pool := { m.pool with small := some (place 6) } }).requestInterrupt

/-- The header of the method of the desk. -/
def deskHeader : MethodHeader := .encode 1 2 0 false 0

theorem wellFormed_desk (semaphore : Nat) (h : semaphore < 7) : (desk semaphore).memory.WellFormed := by
  interval_cases semaphore <;> exact wellFormed_filled (Memory.wellFormed_empty _) (by decide +kernel)

theorem ready_desk (semaphore : Nat) (h : semaphore < 7) : (desk semaphore).Ready := by
  intro large c hc
  cases large with
  | false =>
    obtain rfl := Option.some.inj hc
    have hsize : ∀ k < 7, ((desk k).memory.get? (place 6)).map (fun o => o.pointers.size) =
        some Context.smallSize := by decide +kernel
    obtain ⟨o, ho, hsize⟩ := Option.map_eq_some_iff.1 (hsize semaphore h)
    have hactive : (desk semaphore).registers.context = place 5 := rfl
    exact ⟨by rw [hactive]; decide, o, ho, hsize⟩
  | true => cases hc

theorem stack_desk (semaphore : Nat) (h : semaphore < 7) :
    Action.stackValues 2 (desk semaphore) = .ok [.small 7, .small 8] (desk semaphore) := by
  have hcells : ∀ k < 7, (desk k).memory.cell (place 5) 6 = some (.small 7) ∧
      (desk k).memory.cell (place 5) 7 = some (.small 8) := by decide +kernel
  obtain ⟨hreceiver, hargument⟩ := hcells semaphore h
  have hsp : (desk semaphore).registers.sp = 7 := rfl
  have hreceiver : Action.stackValue 1 (desk semaphore) = .ok (.small 7) (desk semaphore) :=
    Action.stackValue_ok.2 ⟨by rw [hsp]; decide, hreceiver, rfl⟩
  have hargument : Action.stackValue 0 (desk semaphore) = .ok (.small 8) (desk semaphore) :=
    Action.stackValue_ok.2 ⟨by rw [hsp]; decide, hargument, rfl⟩
  refine (bind_of_ok hreceiver).trans (bind_of_ok ?_)
  exact bind_of_ok hargument

/-- The old frame is gone when the method starts, and the semaphore is signalled. -/
theorem activateMethod_starts_desk : ∃ m',
    Action.activateMethod (.small 7) (place 3) 1 (desk 4) = .ok () m' ∧
    m'.memory.cell (place 4) ProcessList.excessSignals = some (.small 1) ∧
    m'.registers.context = place 6 ∧ (desk 4).Starts (.small 7) (place 3) [.small 8] deskHeader m' := by
  have hwell := wellFormed_desk 4 (by decide)
  have hcast : (desk 4).Cast (rolesOf [.other, .array, .other, .other, .list]) :=
    cast_rolesOf hwell.toTabled (by decide) (by decide) (by decide) (by decide +kernel)
      (by decide +kernel) (by decide +kernel)
  have hlends : (desk 4).Lends (rolesOf [.other, .array, .other, .other, .list]) := by
    intro large c hc
    cases large with
    | false =>
      obtain rfl := Option.some.inj hc
      decide
    | true => cases hc
  have hheader : MethodHeader.of (desk 4).memory (place 3) = .ok deskHeader :=
    MethodHeader.of_ok.2 (by decide +kernel)
  have hstack : Action.stackValues ([Value.small 8].length + 1) (desk 4) =
      .ok (.small 7 :: [.small 8]) (desk 4) := stack_desk 4 (by decide)
  have hleads : Action.leads (Action.activateMethod (.small 7) (place 3) 1) (desk 4) (fun _ m' =>
      decide (m'.memory.slots.size ≤ 0x100000000 ∧
        m'.counters.processSwitches = (desk 4).counters.processSwitches ∧
        m'.memory.cell (place 4) ProcessList.excessSignals = some (.small 1) ∧
        m'.registers.context = place 6)) = true := by
    decide +kernel
  obtain ⟨_, m', hrun, hcheck⟩ := Action.exists_of_leads hleads
  obtain ⟨room, hstays, hsignals, hcontext⟩ := of_decide_eq_true hcheck
  obtain ⟨_, -, -, -, hstarts⟩ := activateMethod_starts hwell.toStocked (ready_desk 4 (by decide))
    (.inl ⟨rfl, rfl⟩) hheader hstack hrun room hstays
  exact ⟨m', hrun, hsignals, hcontext, hstarts (.inr ⟨_, hcast, hlends⟩)⟩

/-- A semaphore that is also the active context is counted up where its stack pointer was stored. -/
theorem not_starts_desk : (desk 5).memory.WellFormed ∧ (desk 5).Ready ∧
    (desk 5).memory.cell (place 6) Context.sender = some (desk 5).specials.nil ∧
    MethodHeader.of (desk 5).memory (place 3) = .ok deskHeader ∧ 1 ≤ deskHeader.tempCount ∧
    Action.stackValues 2 (desk 5) = .ok [.small 7, .small 8] (desk 5) ∧
    ∃ m', Action.activateMethod (.small 7) (place 3) 1 (desk 5) = .ok () m' ∧
      m'.counters.processSwitches = (desk 5).counters.processSwitches ∧
      m'.memory.cell (place 5) Context.stackPointer = some (.small 1) ∧
      Context.encodeSp ((desk 5).registers.sp - 2) = 0 ∧
      ¬(desk 5).Starts (.small 7) (place 3) [.small 8] deskHeader m' := by
  have hleads : Action.leads (Action.activateMethod (.small 7) (place 3) 1) (desk 5) (fun _ m' =>
      decide (m'.counters.processSwitches = (desk 5).counters.processSwitches ∧
        m'.memory.cell (place 5) Context.stackPointer = some (.small 1))) = true := by
    decide +kernel
  obtain ⟨_, m', hrun, hcheck⟩ := Action.exists_of_leads hleads
  obtain ⟨hstays, hstored⟩ := of_decide_eq_true hcheck
  refine ⟨wellFormed_desk 5 (by decide), ready_desk 5 (by decide), by decide +kernel,
    MethodHeader.of_ok.2 (by decide +kernel), by decide, stack_desk 5 (by decide), m', hrun, hstays,
    hstored, by decide, fun h => ?_⟩
  exact absurd (Option.some.inj (hstored.symm.trans h.sp)) (by decide)

end Machine

end Smalltalk
