import Smalltalk.Proofs.Reporting

/-!
# Reported sends

A step that sends a selector nobody has a method for enters the method for `doesNotUnderstand:`, in a
frame with the original receiver and one argument, the message; or it fails because there is no such
method either. The sender has lost receiver and arguments, and the message holds all that was asked.

The look at the clock comes after that, and what it signals may be stored into. A semaphore that is also
the sender, say, is counted up where the stack pointer was stored. If each object is used in one role
only, the two new objects have none, and no signal stores into them or into the two contexts.
-/

namespace Smalltalk

open Outcome Recycling

variable {m m₁ m₂ m' : Machine} {call : Call} {array message method v x : Value} {header : MethodHeader}
  {i pc width : Nat}

namespace Machine

/-- The method for `doesNotUnderstand:` has been entered, with the receiver of the call and a message.
The sender is at that program counter, and receiver and arguments are gone from its stack. -/
structure Reports (m : Machine) (pc : Nat) (call : Call) (method : Value) (header : MethodHeader)
    (width : Nat) (array message : Value) (m' : Machine) : Prop where
  counters : m'.counters = { m.counters with
    bytecodes := m.counters.bytecodes + 1
    sends := m.counters.sends + 1
    doesNotUnderstand := m.counters.doesNotUnderstand + 1 }
  registers : m'.registers = {
    context := m'.registers.context
    home := m'.registers.context
    method
    receiver := call.receiver
    pc := 0
    sp := Context.receiver + header.tempCount
    literalCount := header.literalCount }
  other : m'.registers.context ≠ m.registers.context
  frame : ∀ i, m'.memory.cell m'.registers.context i =
    (Context.atStart m.registers.context method m.specials.nil call.receiver [message] header)[i]?
  filled : m'.memory.shape message = some (m.specials.get m.memory Special.classMessage,
    (messageFields call.selector array call.lookupClass m.specials.nil width).toArray)
  fresh : ¬m.memory.Issued message
  gained : m.Gains array (m.specials.get m.memory Special.classArray) call.arguments m'
  pc : m'.memory.cell m.registers.context Context.instructionPointer =
    some (.small (Context.encodePc pc m.registers.literalCount))
  sp : m'.memory.cell m.registers.context Context.stackPointer =
    some (.small (Context.encodeSp (m.registers.sp - (call.arguments.length + 1))))
  kept : ∀ i, Context.Keeps i → i ≠ m.registers.sp - call.arguments.length + 1 →
    m'.memory.cell m.registers.context i = m.memory.cell m.registers.context i

/-! ### Entering the method -/

/-- The machine with another cache of methods. -/
def remembering (m : Machine) (cache : MethodCache) : Machine := { m with methodCache := cache }

theorem mem_messageFields {selector array cls nil : Value} (two : 2 ≤ width) :
    array ∈ messageFields selector array cls nil width := by
  obtain ⟨n, rfl⟩ := Nat.exists_eq_add_of_le' two
  simp [messageFields]

namespace Pleads

/-- A new object is no context that waits in the pool. -/
theorem not_head {large : Bool} (p : m.Pleads call width array message m') (ready : m.Ready)
    (fresh : ¬m.memory.Issued v) : m'.pool.head large ≠ some v := by
  obtain ⟨m₁, c, hpool, -⟩ := p.memory
  rw [hpool]
  intro hv
  obtain ⟨-, o, ho, -⟩ := ready large v (c.head hv)
  exact fresh (Memory.issued_of_isLive (Memory.isLive_of_get? ho))

/-- What was not there before is not the active context. -/
theorem ne_context (h : m.Puzzles call) (fresh : ¬m.memory.Issued v) : v ≠ m.registers.context := by
  rintro rfl
  exact fresh (Memory.issued_of_isLive (Action.isLive_of_stackValues h.stack))

/-- The message can be reached, since it is on the stack. -/
theorem reachable_message (p : m.Pleads call width array message m') (h : m.Puzzles call)
    (live : m'.memory.isLive message = true) : m'.memory.Reachable m'.anchors message := by
  obtain ⟨-, -, hvalues⟩ := Action.stackValues_ok (p.stack h)
  obtain ⟨depth, -, -, hcell⟩ := hvalues message (by simp)
  obtain ⟨cls, fields, hshape, hmem⟩ := Memory.mem_of_cell hcell
  exact (Memory.Reachable.root (by simp [anchors]) (Memory.isLive_of_cell hcell)).shape hshape hmem live

/-- The message is filled, and so is its array. -/
theorem filled (p : m.Pleads call width array message m') (h : m.Puzzles call) :
    m'.memory.shape message = some (m.specials.get m.memory Special.classMessage,
      (messageFields call.selector array call.lookupClass m.specials.nil width).toArray) := by
  obtain ⟨m₁, c, -, hmemory⟩ := p.memory
  rw [hmemory, Memory.shape_setField, if_neg (ne_context h c.fresh), c.filled]

theorem fresh (p : m.Pleads call width array message m') : ¬m.memory.Issued message := by
  obtain ⟨m₁, c, -⟩ := p
  exact c.fresh

theorem gained (p : m.Pleads call width array message m') (h : m.Puzzles call) :
    m.Gains array (m.specials.get m.memory Special.classArray) call.arguments m' := by
  obtain ⟨m₁, c, -, hmemory⟩ := p.memory
  refine c.gained.later (hmemory ▸ Memory.later_modify ..) fun hfresh _ => ?_
  rw [hmemory, Memory.shape_setField, if_neg (ne_context h hfresh)]

/-- When the method has been entered the send is reported. -/
theorem reports {cache : MethodCache} (p : (m.puzzled pc).Pleads call width array message m₂)
    (h : m.Puzzles call) (two : 2 ≤ width) (ready : m.Ready)
    (enters : (m₂.remembering cache).Enters m')
    (starts : (m₂.remembering cache).Starts call.receiver method [message] header m')
    (counters : m'.counters = m₂.counters) :
    m.Reports pc call method header width array message m' := by
  have h₀ : (m.puzzled pc).Puzzles call := h.noted ..
  have ready₀ : (m.puzzled pc).Ready := ready
  have hregisters : (m₂.remembering cache).registers =
      { m.registers with pc, sp := m.registers.sp - call.arguments.length + 1 } := p.registers
  have hspecials : (m₂.remembering cache).specials = m.specials := p.specials
  have hactive : (m₂.remembering cache).registers.context = m.registers.context := by rw [hregisters]
  have keeps (v : Value) (fresh : ¬m.memory.Issued v) (hv : m₂.memory.Reachable m₂.anchors v) :
      m'.memory.shape v = m₂.memory.shape v :=
    Memory.shape_congr (enters.kept v hv (hactive ▸ ne_context h fresh) fun large =>
      p.not_head ready₀ fresh)
  have hfilled := p.filled h₀
  have hmessage := p.reachable_message h₀ (Memory.isLive_iff_shape.2 ⟨_, hfilled⟩)
  refine ⟨counters.trans p.counters, starts.registers, hactive ▸ starts.other, fun i => ?_, ?_, p.fresh,
    ?_, ?_, ?_, fun i hi hne => ?_⟩
  · rw [starts.frame, hactive, hspecials]
  · exact (keeps message p.fresh hmessage).trans hfilled
  · refine (p.gained h₀).later enters.later fun hfresh live => keeps array hfresh ?_
    exact hmessage.shape hfilled (List.mem_cons_of_mem _ (mem_messageFields two)) live
  · rw [← hactive, starts.pc, hregisters]
  · have hdeep := h.deep
    have hsp : m.registers.sp - call.arguments.length + 1 - ([message].length + 1) =
        m.registers.sp - (call.arguments.length + 1) := by
      rw [List.length_singleton]
      omega
    rw [← hactive, starts.sp, hregisters, hsp]
  · rw [← hactive, starts.kept i hi, hactive]
    exact p.cell h₀.closed.moored_context fun _ => hne

/-- The method is entered, unless the memory is spent. -/
theorem achieves_reports (p : (m.puzzled pc).Pleads call width array message m₂)
    (cache : MethodCache) (h : m.Puzzles call) (two : 2 ≤ width) (ready : m.Ready)
    (headed : MethodHeader.of m₂.memory method = .ok header)
    (fits : Context.receiver + max 2 (header.tempCount + 1) ≤ Context.size header.largeFrame) :
    Action.Achieves (Action.enterMethod call.receiver method 1) (m₂.remembering cache)
      fun _ m' => m.Reports pc call method header width array message m' ∧
        ∀ role, m.Cast role → m.Lends role → ∃ role', m'.Cast role' ∧
          role' m'.registers.context = .context ∧ role' m.registers.context = .context ∧
          role' message = .other ∧ (role' array = .other ∨ m'.memory.Overrun array) := by
  have h₀ : (m.puzzled pc).Puzzles call := h.noted ..
  have ready₀ : (m.puzzled pc).Ready := ready
  have hsize : m₂.memory.slots.size ≤ m.memory.slots.size + 2 := p.size
  have hcapacity := h.capacity
  have hdeep : 2 ≤ m₂.registers.sp := by
    have hdeep := h.deep
    rw [p.registers]
    change 2 ≤ m.registers.sp - call.arguments.length + 1
    omega
  have hfields : ∃ x, m₂.memory.cell m₂.registers.context Context.stackPointer = some x := by
    have hdeep := h.deep
    rw [p.registers]
    refine p.exists_cell h₀.closed.moored_context (exists_cell_of_le h.room ?_)
    simp only [Context.stackPointer]
    omega
  have hcast (role : Value → Role) (cast : m.Cast role) : (m.puzzled pc).Cast role :=
    cast.of_cells rfl cast.context (.refl _) fun _ _ _ hx => .inl hx
  have hroom : m₂.memory.slots.size + 1 < 0x100000000 := by omega
  have hstack : Action.stackValues ([message].length + 1) (m₂.remembering cache) =
      .ok (call.receiver :: [message]) (m₂.remembering cache) :=
    Action.stackValues_congr (m := m₂) rfl (fun _ => rfl) (p.stack h₀)
  refine (achieves_enterMethod (m := m₂.remembering cache) p.stocked (p.ready ready₀) hroom headed
    hstack hdeep hfields fits).mono ?_
  rintro _ m' ⟨enters, starts, hcounters, hroles⟩
  refine ⟨p.reports h two ready enters starts hcounters, fun role cast lends => ?_⟩
  obtain ⟨role', cast', hold, hnew⟩ := p.exists_cast h₀ (hcast role cast)
  have hlends : (m₂.remembering cache).Lends role' := fun large c hc => by
    obtain ⟨m₁, hcomposes, hpool, -⟩ := p.memory
    have hhead := hcomposes.head (hpool ▸ hc)
    obtain ⟨-, o, ho, -⟩ := ready large c hhead
    rw [hold c (Memory.issued_of_isLive (Memory.isLive_of_get? ho))]
    exact lends large c hhead
  have hcached : (m₂.remembering cache).Cast role' :=
    cast'.of_cells rfl cast'.context (.refl _) fun _ _ _ hx => .inl hx
  obtain ⟨hcast', hactive⟩ := hroles role' hcached hlends
  refine ⟨role', hcast', hactive, ?_, hnew _ p.fresh ?_, ?_⟩
  · have live := Action.isLive_of_stackValues h.stack
    exact (hold m.registers.context (Memory.issued_of_isLive live)).trans cast.context
  · exact Memory.isLive_iff_shape.2 ⟨_, p.filled h₀⟩
  · rcases p.gained h₀ with ⟨hfresh, hshape⟩ | hover
    · exact .inl (hnew _ hfresh (Memory.isLive_iff_shape.2 ⟨_, hshape⟩))
    · exact .inr (enters.later.overrun hover)

end Pleads

/-! ### The look at the clock -/

/-- The same objects have the same classes. -/
def SameClasses (m m' : Machine) : Prop :=
  ∀ v, (m'.memory.get? v).map Object.cls = (m.memory.get? v).map Object.cls

instance : Errands SameClasses where
  refl _ _ := rfl
  trans _ _ _ h h' v := (h' v).trans (h v)
  setCell {m v i x} w := by
    rw [setCell, Memory.get?_setField]
    split
    · rename_i e
      rw [e, Option.map_map]
      rfl
    · rfl
  withRegisters _ := rfl
  switched _ := rfl
  interrupts _ := rfl
  reclaimable _ := rfl

/-- Nothing is counted but switches. -/
def CountsSwitches (m m' : Machine) : Prop :=
  m'.counters = { m.counters with processSwitches := m'.counters.processSwitches }

instance : Errands CountsSwitches where
  refl _ := rfl
  trans _ _ _ h h' := by
    rw [CountsSwitches] at h h' ⊢
    rw [h', h]
  setCell := rfl
  withRegisters := rfl
  switched := rfl
  interrupts := rfl
  reclaimable := rfl

/-- An object with the same class and the same fields. -/
theorem SameClasses.shape {cls : Value} {fields : Array Value} (h : SameClasses m m')
    (cells : ∀ i, m'.memory.cell v i = m.memory.cell v i)
    (hshape : m.memory.shape v = some (cls, fields)) : m'.memory.shape v = some (cls, fields) := by
  obtain ⟨o, ho, rfl, rfl⟩ := Memory.shape_eq_some.1 hshape
  have hcls := h v
  rw [ho, Option.map_some, Option.map_eq_some_iff] at hcls
  obtain ⟨o', ho', hcls⟩ := hcls
  refine Memory.shape_eq_some.2 ⟨o', ho', hcls, Array.ext_getElem? fun i => ?_⟩
  have hcell := cells i
  rw [Memory.cell, Memory.cell, ho, ho'] at hcell
  exact hcell

/-- No signal stores into the two contexts or the two new objects. -/
theorem Reports.checkInterrupts {role : Value → Role}
    (h : m.Reports pc call method header width array message m₂) (cast : m₂.Cast role)
    (active : role m₂.registers.context = .context) (sender : role m.registers.context = .context)
    (unused : role message = .other) (unused' : role array = .other ∨ m₂.memory.Overrun array)
    (checked : Action.checkInterrupts m₂ = .ok () m')
    (stays : m'.counters.processSwitches = m₂.counters.processSwitches) :
    m.Reports pc call method header width array message m' := by
  have q := (cast.checkInterrupts _ _ checked).quiet.resolve_right fun hlt => by
    rw [stays] at hlt
    exact absurd hlt (Nat.lt_irrefl _)
  have hcounters : CountsSwitches m₂ m' := Action.checkInterrupts_within _ _ _ checked
  have hclasses : SameClasses m₂ m' := Action.checkInterrupts_within _ _ _ checked
  have hremains : Remains m₂ m' := Action.checkInterrupts_within _ _ _ checked
  have hsender := q.cells m.registers.context (by rw [sender]; decide) (by rw [sender]; decide)
  have hframe := q.cells m₂.registers.context (by rw [active]; decide) (by rw [active]; decide)
  have other (v : Value) (hv : role v = .other) := q.cells v (by rw [hv]; decide) (by rw [hv]; decide)
  refine ⟨?_, ?_, ?_, fun i => ?_, ?_, h.fresh, ?_, ?_, ?_, fun i hi hne => ?_⟩
  · rw [hcounters, stays, h.counters]
  · rw [q.registers]
    exact h.registers
  · rw [q.registers]
    exact h.other
  · rw [q.registers, hframe, h.frame]
  · exact hclasses.shape (other _ unused) h.filled
  · rcases h.gained with ⟨hfresh, hshape⟩ | hover
    · rcases unused' with unused' | hover
      · exact .inl ⟨hfresh, hclasses.shape (other _ unused') hshape⟩
      · exact .inr (hremains.later.overrun hover)
    · exact .inr (hremains.later.overrun hover)
  · rw [hsender, h.pc]
  · rw [hsender, h.sp]
  · rw [hsender, h.kept i hi hne]

/-- An instruction that sends comes down to one action. -/
theorem step_sends {a : Sending} {instruction : Instruction}
    (fetched : Action.fetchInstruction m = .ok instruction m₁) (sends : instruction.Sends m₁ a) :
    Action.step m = Action.sendToClass a.selector a.argCount a.lookupClass m₁ := by
  rw [Action.step_eq, bind_of_ok fetched, Action.execute_sends sends]

/-- The method for `doesNotUnderstand:` is found, unless the memory is spent. -/
theorem Puzzles.achieves_findSelector (h : m.Puzzles call) (apart : m.Apart call)
    (messages : m.Messages width) (moored : m.Moored call.lookupClass)
    (found : findMethod m.memory call.lookupClass m.reportSelector m.specials.nil = .ok (some method))
    (headed : MethodHeader.of m.memory method = .ok header) :
    Action.Achieves (Action.findSelector call.selector call.arguments.length call.lookupClass) m
      fun entry m' => ∃ array message m₂ cache,
        entry = ⟨m.reportSelector, call.lookupClass, method, header.primitive⟩ ∧
        MethodHeader.of m₂.memory method = .ok header ∧
        (m.noted m.registers.pc { m.counters with
          doesNotUnderstand := m.counters.doesNotUnderstand + 1 } (m.methodCache.misses + 1)).Pleads
            call width array message m₂ ∧
        m' = m₂.remembering cache := by
  have hne : call.selector ≠ m.reportSelector := by
    intro e
    rw [← e, h.unknown] at found
    cases found
  have h' := h.noted m.registers.pc { m.counters with
    doesNotUnderstand := m.counters.doesNotUnderstand + 1 } (m.methodCache.misses + 1)
  refine .congr (h.findSelector_eq hne)
    (.bind ((h'.achieves_pleads ⟨messages.two, messages.spec⟩).mono ?_))
  rintro _ m₂ ⟨array, message, p⟩
  obtain ⟨headed', cache, hlookup⟩ := p.lookup_some h' apart moored found headed
  exact .after hlookup (.of_ok rfl ⟨array, message, m₂, cache, rfl, headed', p, rfl⟩)

/-- Before the send has been counted the call puzzles as well. -/
theorem Puzzles.fetched (h : m.Puzzles call) (pc : Nat) : (m.fetchedTo pc).Puzzles call :=
  h.noted pc { m.counters with bytecodes := m.counters.bytecodes + 1 } m.methodCache.misses

theorem Puzzles.sent (h : m.Puzzles call) : m.sent.Puzzles call :=
  h.noted m.registers.pc { m.counters with sends := m.counters.sends + 1 } m.methodCache.misses

/-- A send that is not understood, and that cannot be reported either, fails unless the memory is
spent. -/
theorem Puzzles.step_none {instruction : Instruction}
    (fetched : Action.fetchInstruction m = .ok instruction m₁)
    (sends : instruction.Sends m₁ call.sending)
    (h : m.Puzzles call) (apart : m.Apart call) (messages : m.Messages width)
    (hnone : findMethod m.memory call.lookupClass m.reportSelector m.specials.nil = .ok none) :
    ∃ e m', Action.step m = .error e m' ∧
      (e = .recursiveDoesNotUnderstand m.reportSelector ∨ e.Spent m') := by
  obtain ⟨pc, rfl⟩ := Action.fetchInstruction_ok fetched
  have h₁ := h.fetched pc
  have moored := h₁.closed.moored_sends sends
  obtain ⟨e, m', hfind, he⟩ := h₁.sent.findSelector_none apart ⟨messages.two, messages.spec⟩ moored hnone
  refine ⟨e, m', ?_, he⟩
  rw [step_sends fetched sends]
  exact Action.sendToClass_fails (a := call.sending) h₁.receiver_eq hfind

/-- A send that is not understood is reported, unless the memory is spent. -/
theorem Puzzles.step_some {instruction : Instruction}
    (fetched : Action.fetchInstruction m = .ok instruction m₁)
    (sends : instruction.Sends m₁ call.sending)
    (h : m.Puzzles call) (apart : m.Apart call) (messages : m.Messages width) (ready : m.Ready)
    (found : findMethod m.memory call.lookupClass m.reportSelector m.specials.nil = .ok (some method))
    (headed : MethodHeader.of m.memory method = .ok header) (ordinary : header.primitive = 0)
    (fits : Context.receiver + max 2 (header.tempCount + 1) ≤ Context.size header.largeFrame) :
    (∃ e m', Action.step m = .error e m' ∧ e.Spent m') ∨
      ∃ array message m₂, Action.step m = Action.checkInterrupts m₂ ∧
        m.Reports m₁.registers.pc call method header width array message m₂ ∧
        ∀ role, m.Cast role → m.Lends role → ∃ role', m₂.Cast role' ∧
          role' m₂.registers.context = .context ∧ role' m.registers.context = .context ∧
          role' message = .other ∧ (role' array = .other ∨ m₂.memory.Overrun array) := by
  obtain ⟨pc, rfl⟩ := Action.fetchInstruction_ok fetched
  have h₁ := h.fetched pc
  have moored := h₁.closed.moored_sends sends
  rw [step_sends fetched sends]
  rcases h₁.sent.achieves_findSelector apart ⟨messages.two, messages.spec⟩ moored found headed with
    ⟨_, _, hfind, array, message, m₂, cache, rfl, headed', p, rfl⟩ | ⟨e, m', hfind, he⟩
  · have hargCount : call.arguments.length + m₂.registers.sp - m.registers.sp = 1 := by
      have hdeep := h.deep
      rw [p.registers]
      change call.arguments.length + (m.registers.sp - call.arguments.length + 1) - m.registers.sp = 1
      omega
    have hsend : Action.sendToClass call.selector call.arguments.length call.lookupClass
        (m.fetchedTo pc) = Action.activateMethod call.receiver method 1 (m₂.remembering cache) := by
      refine (Action.sendToClass_activates (a := call.sending) h₁.receiver_eq hfind ordinary).trans ?_
      exact congrArg (fun n => Action.activateMethod call.receiver method n _) hargCount
    have p' : (m.puzzled pc).Pleads call width array message m₂ := p
    rcases p'.achieves_reports cache h messages.two ready headed' fits with
      ⟨_, m₃, henter, hreports, hroles⟩ | ⟨e, m', henter, he⟩
    · refine .inr ⟨array, message, m₃, hsend.trans ?_, hreports, hroles⟩
      exact bind_of_ok henter
    · exact .inl ⟨e, m', hsend.trans (bind_of_error henter), he⟩
  · exact .inl ⟨e, m', Action.sendToClass_fails (a := call.sending) h₁.receiver_eq hfind, he⟩

/-- A send whose selector is not found has the receiver sent `doesNotUnderstand:` with a message that
holds all that was asked, unless the memory is spent; and it fails if there is no method for that either.
What the look at the clock signals changes nothing of it, if each object is used in one role only. -/
theorem step_reports {instruction : Instruction}
    (fetched : Action.fetchInstruction m = .ok instruction m₁)
    (sends : instruction.Sends m₁ call.sending)
    (puzzles : m.Puzzles call) (apart : m.Apart call) (messages : m.Messages width) :
    (findMethod m.memory call.lookupClass m.reportSelector m.specials.nil = .ok none →
      ∃ e m', Action.step m = .error e m' ∧
        (e = .recursiveDoesNotUnderstand m.reportSelector ∨ e.Spent m')) ∧
    ∀ method header,
      findMethod m.memory call.lookupClass m.reportSelector m.specials.nil = .ok (some method) →
      MethodHeader.of m.memory method = .ok header → header.primitive = 0 →
      Context.receiver + max 2 (header.tempCount + 1) ≤ Context.size header.largeFrame → m.Ready →
      (∃ e m', Action.step m = .error e m' ∧ e.Spent m') ∨
      ∃ array message m₂, Action.step m = Action.checkInterrupts m₂ ∧
        m.Reports m₁.registers.pc call method header width array message m₂ ∧
        (¬m₂.Alarmed →
          (∃ m', Action.step m = .ok () m' ∧
            m.Reports m₁.registers.pc call method header width array message m') ∨
          ∃ n, ¬Width.integer64.Holds n ∧
            Action.step m = .error (.panic (.overflow .integer64 n)) m₂) ∧
        ∀ role m', m.Cast role → m.Lends role → Action.step m = .ok () m' →
          m'.counters.processSwitches = m.counters.processSwitches →
          m.Reports m₁.registers.pc call method header width array message m' := by
  refine ⟨puzzles.step_none fetched sends apart messages,
    fun method header found headed ordinary fits ready => ?_⟩
  rcases puzzles.step_some fetched sends apart messages ready found headed ordinary fits with
    hspent | ⟨array, message, m₂, hstep, hreports, hroles⟩
  · exact .inl hspent
  refine .inr ⟨array, message, m₂, hstep, hreports, fun hquiet => ?_,
    fun role m' cast lends hrun stays => ?_⟩
  · rcases checkInterrupts_unalarmed hquiet with ⟨interrupts, hrun⟩ | ⟨n, hn, hrun⟩
    · exact .inl ⟨_, hstep.trans hrun, { hreports with }⟩
    · exact .inr ⟨n, hn, hstep.trans hrun⟩
  · obtain ⟨role', cast', active, sender, unused, unused'⟩ := hroles role cast lends
    refine hreports.checkInterrupts cast' active sender unused unused' (hstep.symm.trans hrun) ?_
    rw [stays, hreports.counters]

/-! ### A small machine -/

open Scheduling (place)

/-- What differs between some small machines, by the numbers of objects: the semaphore that is signalled,
the array that the methods stand in, the selector that there is a method for, the number of temporaries
of this method, and the next context of the pool. -/
structure Booth where
  semaphore : Nat := 10
  methods : Nat := 4
  selector : Nat := 6
  temps : Nat := 2
  pooled : Option Nat := none
  deriving DecidableEq

/-- The special objects of a booth. -/
def Booth.specialObject (b : Booth) (i : Nat) : Value :=
  if i ∈ [Special.classArray, Special.classMethodContext, Special.classMessage] then place 2
  else if i = Special.doesNotUnderstand then place 6
  else if i = Special.interruptSemaphore then place b.semaphore
  else place 0

/-- A small machine about to send a selector that nobody has a method for, with two arguments, while an
interrupt is wanted. The first argument happens to be a method. -/
def Booth.machine (b : Booth) : Machine :=
  let pointers fields := Object.ofPointers (place 2) .indexable (List.toArray fields)
  let header temps literals : Value := .small (MethodHeader.encode 1 temps literals false 0).word
  let m := ofObjects
    [pointers [], pointers ((List.range 31).map b.specialObject),
      pointers [place 0, place 3, .small (InstanceSpec.encode 3 1)],
      pointers (.small 2 :: place b.methods :: List.replicate 7 (place 10) ++ [place b.selector]),
      pointers (List.replicate 7 (place 0) ++ [place 7]),
      stillContext 2 [place 8, place 0, place 0, place 0, place 7, .small 8], pointers [],
      .ofMethod (place 2) #[header b.temps 0] #[120], .ofMethod (place 2) #[header 2 1, place 9] #[240],
      pointers [], pointers [place 0, place 0, .small 0]]
    5 5 8 8
  ({ m with pool := { m.pool with small := b.pooled.map place } }).requestInterrupt

/-- What is sent in a booth. -/
def boothCall : Call where
  selector := place 9
  lookupClass := place 2
  receiver := place 0
  arguments := [place 7, .small 8]

/-- The header of the method that takes reports. -/
def Booth.reportHeader (b : Booth) : MethodHeader := .encode 1 b.temps 0 false 0

/-- A booth in order, one without anybody who takes reports, and four that are not in order. -/
def booths : List Booth :=
  [{}, { selector := 10 }, { semaphore := 5 }, { pooled := some 5 }, { temps := 20 }, { methods := 5 }]

/-- Fields of the objects of a booth: number of the object, index and value. -/
def Booth.cells (b : Booth) : List (Nat × Nat × Value) :=
  [(1, 0, place 0), (1, 1, place 0), (1, 2, place 0), (2, Class.superclass, place 0),
    (2, Class.dictionary, place 3), (2, Class.format, .small (InstanceSpec.encode 3 1)),
    (3, Dictionary.methods, place b.methods), (5, 6, place 0), (5, 7, place 7), (5, 8, .small 8),
    (5, 9, place 0), (7, 0, .small b.reportHeader.word), (8, 1, place 9)]

/-- What can be looked up in the booths. -/
theorem table_booth : ∀ b ∈ booths, (b.machine.memory.Addressable ∧
      b.machine.memory.slots.size + 3 < 0x100000000) ∧
    ((∀ v ∈ b.machine.memory.table.toList, ∀ o ∈ (b.machine.memory.get? v).toList,
      ∀ x ∈ o.cls :: o.pointers.toList, b.machine.memory.Resolves x) ∧
      ∀ v ∈ b.machine.held, b.machine.memory.Resolves v) ∧
    ((∀ c ∈ b.cells, b.machine.memory.cell (place c.1) c.2.1 = some c.2.2) ∧
      (b.machine.memory.get? (place 0)).map Object.cls = some (place 2) ∧
      b.machine.specials.get b.machine.memory Special.classMessage = place 2) ∧
    (findMethod b.machine.memory (place 2) (place 9) (place 0) = .ok none ∧
      findMethod b.machine.memory (place 2) b.machine.reportSelector (place 0) =
        .ok (if b.selector = 6 then some (place 7) else none)) ∧
    Action.leads Action.fetchInstruction b.machine (fun instruction m₁ =>
      decide (instruction = .send 0 2 ∧ m₁.registers.pc = 1)) = true := by decide +kernel

variable {b : Booth}

theorem cell_booth (hb : b ∈ booths) (k i : Nat) (x : Value) (h : (k, i, x) ∈ b.cells) :
    b.machine.memory.cell (place k) i = some x := by
  obtain ⟨-, -, ⟨hcells, -⟩, -⟩ := table_booth b hb
  exact hcells (k, i, x) h

theorem wellFormed_booth (hb : b ∈ booths) : b.machine.memory.WellFormed :=
  wellFormed_filled (Memory.wellFormed_empty _) (table_booth b hb).1.1

theorem closed_booth (hb : b ∈ booths) : b.machine.Closed := by
  obtain ⟨-, ⟨hfields, hheld⟩, -⟩ := table_booth b hb
  exact closed_of_table (wellFormed_booth hb).toTabled hfields hheld
    ⟨cell_booth hb 1 0 (place 0) (by simp [Booth.cells]),
      cell_booth hb 1 1 (place 0) (by simp [Booth.cells]),
      cell_booth hb 1 2 (place 0) (by simp [Booth.cells])⟩

theorem stackValue_booth (hb : b ∈ booths) (n : Nat) (hn : n ≤ 8) (h : (5, 8 - n, x) ∈ b.cells) :
    Action.stackValue n b.machine = .ok x b.machine := by
  have hsp : b.machine.registers.sp = 8 := rfl
  refine Action.stackValue_ok.2 ⟨by rwa [hsp], ?_, rfl⟩
  rw [hsp]
  exact cell_booth hb 5 (8 - n) x h

theorem stack_booth (hb : b ∈ booths) :
    Action.stackValues 3 b.machine = .ok [place 0, place 7, .small 8] b.machine := by
  have hlast := Action.stackValues_cons
    (stackValue_booth (x := .small 8) hb 0 (by decide) (by simp [Booth.cells])) rfl
  have hfirst := Action.stackValues_cons
    (stackValue_booth (x := place 7) hb 1 (by decide) (by simp [Booth.cells])) hlast
  exact Action.stackValues_cons
    (stackValue_booth (x := place 0) hb 2 (by decide) (by simp [Booth.cells])) hfirst

theorem puzzles_booth (hb : b ∈ booths) : b.machine.Puzzles boothCall := by
  obtain ⟨⟨-, hsize⟩, -, -, ⟨hunknown, -⟩, -⟩ := table_booth b hb
  refine ⟨closed_booth hb, (wellFormed_booth hb).toStocked, MethodCache.all_empty, stack_booth hb,
    (by decide : 2 < 8), ⟨place 0, cell_booth hb 5 9 (place 0) (by simp [Booth.cells])⟩, hsize, ?_, hunknown⟩
  exact Memory.isLive_of_cell (cell_booth hb 2 Class.dictionary (place 3) (by simp [Booth.cells]))

theorem messages_booth (hb : b ∈ booths) : b.machine.Messages 3 := by
  obtain ⟨-, -, ⟨-, -, hmessage⟩, -⟩ := table_booth b hb
  refine ⟨by decide, InstanceSpec.encode 3 1, ?_, by decide, by decide⟩
  rw [hmessage]
  exact cell_booth hb 2 Class.format _ (by simp [Booth.cells])

theorem sends_booth (hb : b ∈ booths) : ∃ m₁,
    Action.fetchInstruction b.machine = .ok (.send 0 2) m₁ ∧ m₁.registers.pc = 1 ∧
      Instruction.Sends m₁ boothCall.sending (.send 0 2) := by
  obtain ⟨-, -, ⟨-, hcls, -⟩, -, hfetch⟩ := table_booth b hb
  obtain ⟨instruction, m₁, hrun, hinstruction⟩ := Action.exists_of_leads hfetch
  obtain ⟨rfl, hpc⟩ := of_decide_eq_true hinstruction
  obtain ⟨pc, rfl⟩ := Action.fetchInstruction_ok hrun
  obtain ⟨o, ho, hcls⟩ := Option.map_eq_some_iff.1 hcls
  have hliteral := cell_booth hb 8 1 (place 9) (by simp [Booth.cells])
  have hreceiver := cell_booth hb 5 6 (place 0) (by simp [Booth.cells])
  refine ⟨_, hrun, hpc, .send hliteral ⟨place 0, ?_, Action.classOf_ok.2 ⟨.inr ⟨o, ho, hcls⟩, rfl⟩⟩⟩
  exact Action.stackValue_ok.2 ⟨(by decide : 2 ≤ 8), hreceiver, rfl⟩

theorem found_booth (hb : b ∈ booths) (selector : b.selector = 6) :
    findMethod b.machine.memory (place 2) b.machine.reportSelector (place 0) = .ok (some (place 7)) := by
  obtain ⟨-, -, -, ⟨-, hfound⟩, -⟩ := table_booth b hb
  rw [hfound, if_pos selector]

theorem headed_booth (hb : b ∈ booths) :
    MethodHeader.of b.machine.memory (place 7) = .ok b.reportHeader :=
  MethodHeader.of_ok.2 (cell_booth hb 7 0 _ (by simp [Booth.cells]))

/-- The lookup in a booth in order reads four objects. -/
theorem apart_booth (hb : b ∈ booths) (order : b.methods = 4) : b.machine.Apart boothCall := by
  intro hconsults
  have h : b.machine.memory.Consults (place 0) (place 2) (place 5) := hconsults
  rcases h.of_root (cell_booth hb 2 Class.superclass (place 0) (by simp [Booth.cells])) with e | ⟨d, hd, he⟩
  · exact absurd e (by decide)
  · have hdictionary := cell_booth hb 2 Class.dictionary (place 3) (by simp [Booth.cells])
    obtain rfl := Option.some.inj (hdictionary.symm.trans hd)
    rcases he with e | harray
    · exact absurd e (by decide)
    · have hmethods := cell_booth hb 3 Dictionary.methods (place b.methods)
        (by simp [Booth.cells])
      rw [hmethods, order] at harray
      exact absurd harray (by decide)

/-- What the objects of a booth in order are used as. -/
def boothRole : Value → Role := rolesOf [.other, .array, .other, .other, .other, .context, .other, .other,
  .other, .other, .list]

theorem cast_booth : ({} : Booth).machine.Cast boothRole :=
  cast_rolesOf (wellFormed_booth (b := {}) (by decide)).toTabled (by decide) (by decide) (by decide)
    (by decide +kernel) (by decide +kernel) (by decide +kernel)

/-- The error that an action ends with. -/
def fault? (x : Action Unit) (m : Machine) : Option Fault :=
  match x m with
  | .ok .. => none
  | .error e _ => some e

/-- Whether the step of a booth switches to no other process and leaves a machine that passes a test. -/
def Booth.ends (b : Booth) (t : Machine → Bool) : Bool :=
  Action.leads Action.step b.machine fun _ m' => t m' &&
    decide (m'.counters.processSwitches = b.machine.counters.processSwitches)

/-- How the steps of the booths end. -/
theorem ends_booth :
    ({} : Booth).ends (fun m' => m'.memory.cell (place 10) ProcessList.excessSignals =
      some (.small 1)) = true ∧
    ({ semaphore := 5 } : Booth).ends (fun m' => m'.memory.cell (place 5) Context.stackPointer =
      some (.small 1)) = true ∧
    ({ pooled := some 5 } : Booth).ends (fun m' => m'.registers.context = place 5) = true ∧
    fault? Action.step ({ temps := 20 } : Booth).machine = some (.malformed .methodFrame (place 7)) ∧
    fault? Action.step ({ methods := 5 } : Booth).machine =
      some (.malformed .methodHeader (place 12)) := by decide +kernel

/-- In a booth in order the send is reported although a semaphore is signalled, and without anybody who
takes reports it fails. -/
theorem step_reports_booth :
    (∃ m₁ m', Action.fetchInstruction ({} : Booth).machine = .ok (.send 0 2) m₁ ∧
      Instruction.Sends m₁ boothCall.sending (.send 0 2) ∧ ({} : Booth).machine.Puzzles boothCall ∧
      ({} : Booth).machine.Apart boothCall ∧ ({} : Booth).machine.Messages 3 ∧
      Action.step ({} : Booth).machine = .ok () m' ∧
      m'.memory.cell (place 10) ProcessList.excessSignals = some (.small 1) ∧
      ∃ array message, ({} : Booth).machine.Reports 1 boothCall (place 7) ({} : Booth).reportHeader 3
        array message m') ∧
    ∃ e m', Action.step ({ selector := 10 } : Booth).machine = .error e m' ∧
      (e = .recursiveDoesNotUnderstand (place 6) ∨ e.Spent m') := by
  obtain ⟨_, m', hrun, hcheck⟩ := Action.exists_of_leads ends_booth.1
  obtain ⟨hsignals, hstays⟩ := Bool.and_eq_true_iff.1 hcheck
  have hlends : ({} : Booth).machine.Lends boothRole := by
    rintro (_ | _) c hc <;> cases hc
  have hready : ({} : Booth).machine.Ready := by
    rintro (_ | _) c hc <;> cases hc
  constructor
  · obtain ⟨m₁, hfetch, hpc, hsends⟩ := sends_booth (b := {}) (by decide)
    have puzzles := puzzles_booth (b := {}) (by decide)
    have apart := apart_booth (b := {}) (by decide) rfl
    have messages := messages_booth (b := {}) (by decide)
    refine ⟨m₁, m', hfetch, hsends, puzzles, apart, messages, hrun, of_decide_eq_true hsignals, ?_⟩
    rcases (step_reports hfetch hsends puzzles apart messages).2 (place 7) _
      (found_booth (b := {}) (by decide) rfl) (headed_booth (b := {}) (by decide)) (by decide)
      (by decide) hready with ⟨e, _, hfails, -⟩ | ⟨array, message, m₂, -, -, -, hreports⟩
    · rw [hrun] at hfails
      cases hfails
    · exact ⟨array, message, hpc ▸ hreports _ m' cast_booth hlends hrun (of_decide_eq_true hstays)⟩
  · obtain ⟨m₁, hfetch, hpc, hsends⟩ := sends_booth (b := { selector := 10 }) (by decide)
    obtain ⟨-, -, -, ⟨-, hnone⟩, -⟩ := table_booth { selector := 10 } (by decide)
    exact (step_reports hfetch hsends (puzzles_booth (by decide)) (apart_booth (by decide) rfl)
      (messages_booth (by decide))).1 hnone

/-- A send that should be reported in a booth, by a method with one argument and no primitive, is not,
although the memory is not spent and no process is switched to. -/
structure Booth.Misreports (b : Booth) : Prop where
  sends : ∃ m₁, Action.fetchInstruction b.machine = .ok (.send 0 2) m₁ ∧ m₁.registers.pc = 1 ∧
    Instruction.Sends m₁ boothCall.sending (.send 0 2)
  puzzles : b.machine.Puzzles boothCall
  messages : b.machine.Messages 3
  found : findMethod b.machine.memory boothCall.lookupClass b.machine.reportSelector
    b.machine.specials.nil = .ok (some (place 7))
  headed : MethodHeader.of b.machine.memory (place 7) = .ok b.reportHeader
  ordinary : b.reportHeader.primitive = 0 ∧ b.reportHeader.argCount = 1
  stays : ∀ m', Action.step b.machine = .ok () m' →
    m'.counters.processSwitches = b.machine.counters.processSwitches
  wrong : ∀ array message m', Action.step b.machine = .ok () m' →
    ¬b.machine.Reports 1 boothCall (place 7) b.reportHeader 3 array message m'
  spare : ∀ e m', Action.step b.machine = .error e m' → ¬e.Spent m'

theorem misreports_of_error {e : Fault} (hb : b ∈ booths) (selector : b.selector = 6)
    (ordinary : b.reportHeader.primitive = 0 ∧ b.reportHeader.argCount = 1)
    (error : fault? Action.step b.machine = some e) (spare : ∀ m', ¬e.Spent m') : b.Misreports := by
  have fails {m' : Machine} (hrun : Action.step b.machine = .ok () m') : False := by
    rw [fault?, hrun] at error
    cases error
  refine ⟨sends_booth hb, puzzles_booth hb, messages_booth hb, found_booth hb selector,
    headed_booth hb, ordinary, fun m' hrun => (fails hrun).elim, fun _ _ m' hrun => (fails hrun).elim,
    fun e' m' hrun => ?_⟩
  rw [fault?, hrun] at error
  obtain rfl := Option.some.inj error
  exact spare m'

theorem misreports_of_ok {t : Machine → Bool} (hb : b ∈ booths) (selector : b.selector = 6)
    (ordinary : b.reportHeader.primitive = 0 ∧ b.reportHeader.argCount = 1)
    (ends : b.ends t = true)
    (wrong : ∀ array message m', t m' = true →
      ¬b.machine.Reports 1 boothCall (place 7) b.reportHeader 3 array message m') : b.Misreports := by
  obtain ⟨_, m', hrun, hcheck⟩ := Action.exists_of_leads ends
  obtain ⟨htest, hstays⟩ := Bool.and_eq_true_iff.1 hcheck
  refine ⟨sends_booth hb, puzzles_booth hb, messages_booth hb, found_booth hb selector,
    headed_booth hb, ordinary, fun m₂ hrun' => ?_, fun array message m₂ hrun' => ?_,
    fun e m₂ hrun' => ?_⟩
  · obtain rfl := (EStateM.Result.ok.inj (hrun.symm.trans hrun')).2
    exact of_decide_eq_true hstays
  · obtain rfl := (EStateM.Result.ok.inj (hrun.symm.trans hrun')).2
    exact wrong array message m' htest
  · rw [hrun] at hrun'
    cases hrun'

/-- A send is not reported as it should be if a semaphore that is due is the sender, if the pool gives
out the active context, if the frame of the method does not fit its context, and if the lookup reads the
context that the message is stored into. -/
theorem misreports_booth : ({ semaphore := 5 } : Booth).Misreports ∧
    ({ pooled := some 5 } : Booth).Misreports ∧ ({ temps := 20 } : Booth).Misreports ∧
    ({ methods := 5 } : Booth).Misreports := by
  obtain ⟨-, hsemaphore, hpooled, htemps, hmethods⟩ := ends_booth
  refine ⟨misreports_of_ok (by decide) rfl (by decide) hsemaphore ?_,
    misreports_of_ok (by decide) rfl (by decide) hpooled ?_,
    misreports_of_error (by decide) rfl (by decide) htemps fun _ => Fault.not_spent_malformed,
    misreports_of_error (by decide) rfl (by decide) hmethods fun _ => Fault.not_spent_malformed⟩
  · intro array message m' htest h
    have hsp := (of_decide_eq_true htest).symm.trans h.sp
    exact absurd (Option.some.inj hsp) (by decide)
  · intro array message m' htest h
    exact h.other (of_decide_eq_true htest)

end Machine

end Smalltalk
