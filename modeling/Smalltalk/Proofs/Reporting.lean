import Smalltalk.Proofs.Consulting
import Smalltalk.Proofs.Entering
import Smalltalk.Proofs.Resends

/-!
# Sends that are not understood

When nobody on the superclass chain has a method for a selector, the arguments are replaced by a message
that holds them, and the receiver is sent `doesNotUnderstand:` with the message instead. Two objects are
made before the second lookup, and room for them may have to be made, but everything that this lookup
reads can be reached from the lookup class. So the method that it finds is the one that was there before
the send.
-/

namespace Smalltalk

open Outcome Recycling

/-- A send with everything that is on the stack. -/
structure Call where
  selector : Value
  lookupClass : Value
  receiver : Value
  arguments : List Value

/-- What a call asks for. -/
def Call.sending (call : Call) : Sending where
  selector := call.selector
  argCount := call.arguments.length
  lookupClass := call.lookupClass

variable {m m₁ m₂ m' : Machine} {call : Call} {array message method v x : Value} {header : MethodHeader}
  {i pc width : Nat} {found : Option Value}

theorem Action.stackValues_cons {n : Nat} {xs : List Value} (hx : stackValue n m = .ok x m)
    (hxs : stackValues n m = .ok xs m) : stackValues (n + 1) m = .ok (x :: xs) m :=
  (bind_of_ok hx).trans (bind_of_ok hxs)

theorem Memory.Resolves.issued {memory : Memory} (h : memory.Resolves v) : memory.Issued v := by
  cases v with
  | small n => trivial
  | ref index generation => exact Memory.issued_of_isLive (h.resolve_left (by simp [Value.isSmall]))

namespace Machine

/-- The selector that reports a send that is not understood. -/
def reportSelector (m : Machine) : Value := m.specials.get m.memory Special.doesNotUnderstand

/-- Nobody on the superclass chain has a method for the selector of a call. Nothing that the machine
holds is stale, the cache has right answers only, the stack has room for one more value, and the table
for three more objects. -/
structure Puzzles (m : Machine) (call : Call) : Prop where
  closed : m.Closed
  stocked : m.memory.Stocked
  cached : m.methodCache.All fun e => m.memory.isLive e.cls = true → e.Answers m.memory m.specials.nil
  stack : Action.stackValues (call.arguments.length + 1) m = .ok (call.receiver :: call.arguments) m
  deep : call.arguments.length < m.registers.sp
  room : ∃ x, m.memory.cell m.registers.context (m.registers.sp + 1) = some x
  capacity : m.memory.slots.size + 3 < 0x100000000
  live : m.memory.isLive call.lookupClass = true
  unknown : findMethod m.memory call.lookupClass call.selector m.specials.nil = .ok none

/-- The lookup for a call does not read the active context. -/
def Apart (m : Machine) (call : Call) : Prop :=
  ¬m.memory.Consults m.specials.nil call.lookupClass m.registers.context

/-- The machine with other counts, at another bytecode. -/
def noted (m : Machine) (pc : Nat) (counters : Counters) (misses : Nat) : Machine :=
  { m with
    registers := { m.registers with pc }
    counters
    methodCache := { m.methodCache with misses } }

/-- What is counted does not matter. -/
theorem Puzzles.noted (h : m.Puzzles call) (pc : Nat) (counters : Counters) (misses : Nat) :
    (m.noted pc counters misses).Puzzles call where
  closed := ⟨h.closed.fields, h.closed.held, ⟨h.closed.coherent.nil, h.closed.coherent.falseObject,
    h.closed.coherent.trueObject⟩⟩
  stocked := h.stocked
  cached := h.cached
  stack := Action.stackValues_frame (m := m) rfl rfl (fun _ => rfl) h.stack
  deep := h.deep
  room := h.room
  capacity := h.capacity
  live := h.live
  unknown := h.unknown

/-! ### The message on the stack -/

/-- The arguments have been replaced by a message. -/
def Pleads (m : Machine) (call : Call) (width : Nat) (array message : Value) (m' : Machine) : Prop :=
  ∃ m₁, m.Composes call.selector call.lookupClass call.arguments width array message m₁ ∧
    m' = Action.pushed (Action.popped m₁ call.arguments.length) message

namespace Puzzles

/-- The position of the first argument, where the message goes. -/
theorem exists_place (h : m.Puzzles call) :
    ∃ x, m.memory.cell m.registers.context (m.registers.sp - call.arguments.length + 1) = some x :=
  exists_cell_of_le h.room (by omega)

theorem arguments_eq (h : m.Puzzles call) :
    Action.stackValues call.arguments.length m = .ok call.arguments m := by
  obtain ⟨_, _, e, -, harguments⟩ := Action.stackValues_succ h.stack
  obtain ⟨rfl, rfl⟩ := List.cons.inj e
  exact harguments

theorem receiver_eq (h : m.Puzzles call) :
    Action.stackValue call.arguments.length m = .ok call.receiver m := by
  obtain ⟨_, _, e, hreceiver, -⟩ := Action.stackValues_succ h.stack
  obtain ⟨rfl, rfl⟩ := List.cons.inj e
  exact hreceiver

/-- The arguments are replaced by a message, unless the memory is spent. -/
theorem achieves_pleads (h : m.Puzzles call) (messages : m.Messages width) :
    Action.Achieves (do
      let message ← Action.createMessage call.selector call.arguments.length call.lookupClass
      Action.popThenPush call.arguments.length message) m fun _ m' =>
        ∃ array message, m.Pleads call width array message m' := by
  have hcapacity := h.capacity
  refine .bind ((achieves_createMessage h.closed h.stocked (by omega) messages h.arguments_eq).mono ?_)
  rintro message m₁ ⟨array, c⟩
  have hplace : ∃ x, m₁.memory.cell m₁.registers.context
      (m₁.registers.sp - call.arguments.length + 1) = some x := by
    rw [c.registers, c.cell h.closed.moored_context]
    exact h.exists_place
  have hdeep : call.arguments.length ≤ m₁.registers.sp := by
    rw [c.registers]
    exact Nat.le_of_lt h.deep
  exact .of_ok (a := ()) (Action.popThenPush_ok.2 ⟨hdeep, hplace, rfl⟩) ⟨array, message, m₁, c, rfl⟩

/-- Where a search finds no method the cache has none either. -/
theorem uncached (h : m.Puzzles call) {selector : Value}
    (hnone : findMethod m.memory call.lookupClass selector m.specials.nil = .ok none) :
    m.methodCache.All fun e => e.selector = selector → e.cls ≠ call.lookupClass := by
  rintro place e he rfl hcls
  have hentry : lookupEntry m.memory call.lookupClass e.selector m.specials.nil = .ok none := by
    rw [lookupEntry, hnone]
    rfl
  have hanswers := h.cached place e he (hcls ▸ h.live)
  rw [CacheEntry.Answers, hcls, hentry] at hanswers
  cases hanswers

/-- Where a search finds a method the cache has it or nothing. -/
theorem cached_eq (h : m.Puzzles call) {selector : Value} {new : CacheEntry}
    (hfound : lookupEntry m.memory call.lookupClass selector m.specials.nil = .ok (some new)) :
    m.methodCache.All fun e => e.selector = selector → e.cls = call.lookupClass → e = new := by
  rintro place e he rfl hcls
  have hanswers := h.cached place e he (hcls ▸ h.live)
  rw [CacheEntry.Answers, hcls, hfound] at hanswers
  exact (Option.some.inj (Except.ok.inj hanswers)).symm

/-- A selector that is not found is reported by a message. -/
theorem findSelector_eq (h : m.Puzzles call) (hne : call.selector ≠ m.reportSelector) :
    Action.findSelector call.selector call.arguments.length call.lookupClass m = ((do
        let message ← Action.createMessage call.selector call.arguments.length call.lookupClass
        Action.popThenPush call.arguments.length message) >>= fun _ => do
      match ← Action.lookup m.reportSelector call.lookupClass with
      | some e => return e
      | none => throw (Fault.recursiveDoesNotUnderstand m.reportSelector)) (m.noted m.registers.pc
        { m.counters with doesNotUnderstand := m.counters.doesNotUnderstand + 1 }
        (m.methodCache.misses + 1)) := by
  have hlookup := Action.lookup_none h.live h.unknown (h.uncached h.unknown)
  have hspecial (m : Machine) : Action.special Special.doesNotUnderstand m =
      .ok m.reportSelector m := rfl
  have hcount (m : Machine) : Action.modifyCounters (fun c => { c with
      doesNotUnderstand := c.doesNotUnderstand + 1 }) m = .ok () m.reporting := rfl
  unfold Action.findSelector
  rw [bind_of_ok hlookup]
  refine (bind_of_ok (hspecial _)).trans ?_
  refine (congrFun (if_neg hne) _).trans ?_
  refine (bind_of_ok (hcount _)).trans ?_
  rw [bind_assoc]
  rfl

end Puzzles

namespace Pleads

theorem registers (p : m.Pleads call width array message m') : m'.registers =
    { m.registers with sp := m.registers.sp - call.arguments.length + 1 } := by
  obtain ⟨m₁, c, rfl⟩ := p
  rw [← c.registers]
  rfl

theorem specials (p : m.Pleads call width array message m') : m'.specials = m.specials := by
  obtain ⟨m₁, c, rfl⟩ := p
  exact c.specials

theorem counters (p : m.Pleads call width array message m') : m'.counters = m.counters := by
  obtain ⟨m₁, c, rfl⟩ := p
  exact c.counters

theorem later (p : m.Pleads call width array message m') : m.memory.Later m'.memory := by
  obtain ⟨m₁, c, rfl⟩ := p
  exact c.later.trans (Memory.later_modify ..)

theorem size (p : m.Pleads call width array message m') :
    m'.memory.slots.size ≤ m.memory.slots.size + 2 := by
  obtain ⟨m₁, c, rfl⟩ := p
  exact Nat.le_trans (Nat.le_of_eq (slots_size_modify ..)) c.size

theorem stocked (p : m.Pleads call width array message m') : m'.memory.Stocked := by
  obtain ⟨m₁, c, rfl⟩ := p
  exact c.stocked.modify _ _

theorem remembered (p : m.Pleads call width array message m') {P : CacheEntry → Prop}
    (h : m.methodCache.All P) : m'.methodCache.All P := by
  obtain ⟨m₁, c, rfl⟩ := p
  exact c.remembered P h

/-- The message goes to the place of the first argument. -/
theorem memory (p : m.Pleads call width array message m') : ∃ m₁,
    m.Composes call.selector call.lookupClass call.arguments width array message m₁ ∧
      m'.pool = m₁.pool ∧ m'.memory = m₁.memory.setField m.registers.context
        (m.registers.sp - call.arguments.length + 1) message := by
  obtain ⟨m₁, c, rfl⟩ := p
  refine ⟨m₁, c, rfl, ?_⟩
  rw [← c.registers]
  rfl

theorem get? (p : m.Pleads call width array message m') (hv : m.Moored v)
    (hne : v ≠ m.registers.context) : m'.memory.get? v = m.memory.get? v := by
  obtain ⟨m₁, c, -, hmemory⟩ := p.memory
  rw [hmemory, Memory.get?_setField, if_neg hne, c.get? hv]

/-- Nothing on the stack has changed but what is in the place of the first argument. -/
theorem cell (p : m.Pleads call width array message m') (hv : m.Moored v)
    (hi : v = m.registers.context → i ≠ m.registers.sp - call.arguments.length + 1) :
    m'.memory.cell v i = m.memory.cell v i := by
  obtain ⟨m₁, c, -, hmemory⟩ := p.memory
  rw [hmemory, Memory.cell_setField, if_neg fun e => hi e.1 e.2, c.cell hv]

theorem isLive (p : m.Pleads call width array message m') (hv : m.Moored v) :
    m'.memory.isLive v = m.memory.isLive v := by
  obtain ⟨m₁, c, -, hmemory⟩ := p.memory
  rw [hmemory, Memory.isLive_setField, Memory.isLive, c.get? hv, Memory.isLive]

theorem hash (p : m.Pleads call width array message m') (hv : m.Moored v) :
    Dictionary.selectorHash m'.memory v = Dictionary.selectorHash m.memory v := by
  obtain ⟨m₁, c, -, hmemory⟩ := p.memory
  rw [Dictionary.selectorHash, Dictionary.selectorHash, ← c.get? hv, hmemory, Memory.get?_setField]
  split
  · rename_i e
    rw [e, Option.map_map]
    rfl
  · rfl

/-- The second lookup finds what a lookup before the send would have found. -/
theorem findMethod (p : m.Pleads call width array message m') (h : m.Puzzles call) (apart : m.Apart call)
    (moored : m.Moored call.lookupClass)
    (hfound : findMethod m.memory call.lookupClass m.reportSelector m.specials.nil = .ok found) :
    Smalltalk.findMethod m'.memory call.lookupClass m.reportSelector m'.specials.nil = .ok found := by
  rw [p.specials]
  refine findMethod_congr (p.hash (h.closed.moored_special _)) (fun v hv => ?_) p.later.size hfound
  refine p.get? (h.closed.moored_consults moored hv) ?_
  rintro rfl
  exact apart hv

/-- If there is nothing to be found the send cannot be reported. -/
theorem lookup_none (p : m.Pleads call width array message m') (h : m.Puzzles call)
    (apart : m.Apart call) (moored : m.Moored call.lookupClass)
    (hnone : Smalltalk.findMethod m.memory call.lookupClass m.reportSelector m.specials.nil =
      .ok none) : ∃ m₁, Action.lookup m.reportSelector call.lookupClass m' = .ok none m₁ :=
  ⟨_, Action.lookup_none ((p.isLive moored).trans h.live) (p.findMethod h apart moored hnone)
    (p.remembered (h.uncached hnone))⟩

/-- The method that is found is the one that was there before the send. -/
theorem lookup_some (p : m.Pleads call width array message m') (h : m.Puzzles call)
    (apart : m.Apart call) (moored : m.Moored call.lookupClass)
    (hfound : Smalltalk.findMethod m.memory call.lookupClass m.reportSelector m.specials.nil =
      .ok (some method))
    (headed : MethodHeader.of m.memory method = .ok header) :
    MethodHeader.of m'.memory method = .ok header ∧
      ∃ cache, Action.lookup m.reportSelector call.lookupClass m' =
        .ok (some ⟨m.reportSelector, call.lookupClass, method, header.primitive⟩)
          { m' with methodCache := cache } := by
  have headed' : MethodHeader.of m'.memory method = .ok header := by
    rw [MethodHeader.of_ok, p.cell (h.closed.moored_findMethod moored hfound)]
    · exact MethodHeader.of_ok.1 headed
    · exact fun _ => Nat.ne_of_lt (Nat.succ_pos _)
  exact ⟨headed', Action.lookup_eq (lookupEntry_of (p.findMethod h apart moored hfound) headed')
    (p.remembered (h.cached_eq (lookupEntry_of hfound headed)))⟩

/-! ### Before the method is entered -/

/-- The message stands above the receiver. -/
theorem stack (p : m.Pleads call width array message m') (h : m.Puzzles call) :
    Action.stackValues 2 m' = .ok [call.receiver, message] m' := by
  obtain ⟨-, hreceiver, -⟩ := Action.stackValue_ok.1 h.receiver_eq
  obtain ⟨x, hx⟩ := h.exists_place
  have hdeep := h.deep
  have hcontext : m'.registers.context = m.registers.context := by rw [p.registers]
  have hsp : m'.registers.sp = m.registers.sp - call.arguments.length + 1 := by rw [p.registers]
  have hbelow : Action.stackValue 1 m' = .ok call.receiver m' := by
    refine Action.stackValue_ok.2 ⟨by omega, ?_, rfl⟩
    rw [hcontext, hsp, Nat.add_sub_cancel, p.cell h.closed.moored_context fun _ => by omega, hreceiver]
  have htop : Action.stackValue 0 m' = .ok message m' := by
    obtain ⟨m₁, c, -, hmemory⟩ := p.memory
    refine Action.stackValue_ok.2 ⟨Nat.zero_le _, ?_, rfl⟩
    rw [hcontext, hsp, Nat.sub_zero, hmemory, Memory.cell_setField, if_pos ⟨rfl, rfl⟩,
      c.cell h.closed.moored_context, hx]
    rfl
  exact Action.stackValues_cons hbelow (Action.stackValues_cons htop rfl)

theorem exists_cell (p : m.Pleads call width array message m') (hv : m.Moored v)
    (h : ∃ x, m.memory.cell v i = some x) : ∃ x, m'.memory.cell v i = some x := by
  obtain ⟨m₁, c, -, hmemory⟩ := p.memory
  obtain ⟨x, hx⟩ := h
  rw [hmemory, Memory.cell_setField]
  split
  · rename_i e
    rw [← e.1, ← e.2, c.cell hv, hx]
    exact ⟨_, rfl⟩
  · exact ⟨x, (c.cell hv i).trans hx⟩

/-- The contexts that the pool gives out next are the same, if there still are any. -/
theorem ready (p : m.Pleads call width array message m') (h : m.Ready) : m'.Ready := by
  obtain ⟨m₁, c, hpool, hmemory⟩ := p.memory
  intro large w hw
  rw [hpool] at hw
  obtain ⟨hne, o, ho, hsize⟩ := h large w (c.head hw)
  have hroot : w ∈ m.anchors ++ m₁.pool.roots := List.mem_append_right _ (mem_roots_of_head hw)
  refine ⟨by rw [p.registers]; exact hne, o, ?_, hsize⟩
  rw [hmemory, Memory.get?_setField, if_neg hne, c.kept w (.root hroot (Memory.isLive_of_get? ho)), ho]

/-- What was there before holds what it held, but for the place of the first argument. -/
theorem cell_of_issued (p : m.Pleads call width array message m') (hv : m.memory.Issued v)
    (hx : m'.memory.cell v i = some x) :
    v = m.registers.context ∧ i = m.registers.sp - call.arguments.length + 1 ∨
      m.memory.cell v i = some x := by
  obtain ⟨m₁, c, -, hmemory⟩ := p.memory
  rw [hmemory, Memory.cell_setField] at hx
  split at hx
  · exact .inl ‹_›
  · obtain ⟨o, ho, hi⟩ := Memory.cell_eq_some.1 hx
    exact .inr (Memory.cell_eq_some.2 ⟨o, c.object v o hv ho, hi⟩)

/-- The new objects are used as nothing in particular. -/
theorem exists_cast {role : Value → Role} (p : m.Pleads call width array message m') (h : m.Puzzles call)
    (cast : m.Cast role) : ∃ role', m'.Cast role' ∧
      (∀ v, m.memory.Issued v → role' v = role v) ∧
      ∀ v, ¬m.memory.Issued v → m'.memory.isLive v = true → role' v = .other := by
  classical
  let role' v := if ¬m.memory.Issued v ∧ m'.memory.isLive v = true then Role.other else role v
  have hold (v : Value) (hv : m.memory.Issued v) : role' v = role v := if_neg fun e => e.1 hv
  have hnew (v : Value) (hv : ¬m.memory.Issued v) (live : m'.memory.isLive v = true) :
      role' v = .other := if_pos ⟨hv, live⟩
  have hcontext := hold _ (Memory.issued_of_isLive (Action.isLive_of_stackValues h.stack))
  have hnil : m.memory.Issued m.specials.nil := cast.known _ (by rw [cast.nil.2]; decide)
  have harray : m.memory.Issued m.specials.array := cast.known _ (by rw [cast.array]; decide)
  have hactive : m'.registers.context = m.registers.context := by rw [p.registers]
  refine ⟨role', ⟨?_, ?_, ?_, fun i => ?_, fun w i x r hx hr => ?_, fun v hv => ?_⟩, hold, hnew⟩
  · rw [p.specials, hold _ harray, cast.array]
  · rw [hactive, hcontext, cast.context]
  · rw [p.specials, hold _ hnil]
    exact cast.nil
  · rw [p.specials]
    by_contra hsome
    obtain ⟨x, hx⟩ := Option.ne_none_iff_exists'.1 hsome
    rcases p.cell_of_issued hnil hx with ⟨e, -⟩ | hx
    · have hrole := cast.context
      rw [← e, cast.nil.2] at hrole
      cases hrole
    · rw [cast.bare] at hx
      cases hx
  · by_cases hw : m.memory.Issued w
    · rw [hold _ hw] at hr
      rcases p.cell_of_issued hw hx with ⟨rfl, rfl⟩ | hx
      · rw [cast.context, Role.field, if_neg (by simp [Context.sender])] at hr
        cases hr
      · obtain ⟨o, ho, hi⟩ := Memory.cell_eq_some.1 hx
        have hresolves : m.memory.Resolves x := h.closed.fields w o ho x
          (List.mem_cons_of_mem _ (Array.mem_toList_iff.2 (Array.mem_of_getElem? hi)))
        rw [p.specials, hold x hresolves.issued]
        exact cast.fits w i x r hx hr
    · rw [hnew _ hw (Memory.isLive_of_cell hx)] at hr
      cases hr
  · by_cases hissued : m.memory.Issued v
    · exact p.later.issued hissued
    · by_cases live : m'.memory.isLive v = true
      · exact Memory.issued_of_isLive live
      · have hsame : role' v = role v := if_neg fun e => live e.2
        exact absurd (cast.known v (hsame ▸ hv)) hissued

end Pleads

end Machine

/-! ### The send -/

namespace Action

variable {a : Sending} {receiver : Value} {entry : CacheEntry} {e : Fault}

/-- A send starts with a count, the receiver and the search for a method. -/
theorem trySend_eq (hreceiver : stackValue a.argCount m = .ok receiver m) :
    trySend a m = (findSelector a.selector a.argCount a.lookupClass >>= fun entry => do
      if 0 < entry.primitive then
        modify fun m => { m with lastPrimitiveSend := some (a.selector, a.lookupClass) }
      let argCount := a.argCount + (← Action.registers).sp - m.registers.sp
      let trial ← if 0 < entry.primitive then tryPrimitive entry.primitive argCount
        else pure .unhandled
      return (receiver, entry, argCount, trial)) m.sent := by
  have hcount : modifyCounters (fun c => { c with sends := c.sends + 1 }) m = .ok () m.sent := rfl
  have hreceiver : stackValue a.argCount m.sent = .ok receiver m.sent :=
    stackValue_ok.2 ((stackValue_ok.1 hreceiver).imp_right fun h => ⟨h.1, rfl⟩)
  unfold trySend
  rw [bind_of_ok hcount, bind_of_ok hreceiver, bind_of_ok (registers_ok.2 ⟨rfl, rfl⟩)]
  rfl

/-- A send fails if no method is found for it. -/
theorem sendToClass_fails (hreceiver : stackValue a.argCount m = .ok receiver m)
    (hfind : findSelector a.selector a.argCount a.lookupClass m.sent = .error e m') :
    sendToClass a.selector a.argCount a.lookupClass m = .error e m' := by
  refine sendToClass_eq.trans ((congrFun (sendWithin_succ _ a) m).trans (bind_of_error ?_))
  rw [trySend_eq hreceiver, bind_of_error hfind]

/-- A method without a primitive is activated. -/
theorem sendToClass_activates (hreceiver : stackValue a.argCount m = .ok receiver m)
    (hfind : findSelector a.selector a.argCount a.lookupClass m.sent = .ok entry m')
    (ordinary : entry.primitive = 0) :
    sendToClass a.selector a.argCount a.lookupClass m =
      activateMethod receiver entry.method (a.argCount + m'.registers.sp - m.registers.sp) m' := by
  have htry : trySend a m = .ok (receiver, entry,
      a.argCount + m'.registers.sp - m.registers.sp, .unhandled) m' := by
    rw [trySend_eq hreceiver, bind_of_ok hfind, ordinary]
    rfl
  refine sendToClass_eq.trans ((congrFun (sendWithin_succ _ a) m).trans ?_)
  rw [bind_of_ok htry]

end Action

namespace Machine

variable {a : Sending} {instruction : Instruction}

theorem Closed.moored_stack {n : Nat} (h : m.Closed) (hv : Action.stackValue n m = .ok v m') :
    m.Moored v := h.moored_cell h.moored_context (Action.stackValue_ok.1 hv).2.1

theorem Closed.moored_classBelow {n : Nat} (h : m.Closed) (hcls : m.ClassBelow n v) : m.Moored v := by
  obtain ⟨receiver, hreceiver, hcls⟩ := hcls
  rcases (Action.classOf_ok.1 hcls).1 with ⟨-, rfl⟩ | ⟨o, ho, rfl⟩
  · exact h.moored_special _
  · exact h.moored_shape (h.moored_stack hreceiver) (Memory.shape_of_get? ho) List.mem_cons_self

/-- The class that a lookup starts at can be reached. -/
theorem Closed.moored_sends (h : m.Closed) (hsends : instruction.Sends m a) :
    m.Moored a.lookupClass := by
  cases hsends with
  | send _ cls => exact h.moored_classBelow cls
  | sendSuper _ association owner superclass =>
    exact h.moored_cell (h.moored_cell (h.moored_cell h.moored_method association) owner) superclass
  | arithmetic _ _ _ calls => exact h.moored_classBelow calls.cls
  | special _ calls => exact h.moored_classBelow calls.cls
  | jumpIf _ _ _ _ _ cls => exact h.moored_classBelow cls

/-! ### Nobody to report to -/

/-- The machine when the arguments of a send that is not understood are replaced. -/
def puzzled (m : Machine) (pc : Nat) : Machine :=
  m.noted pc { m.counters with
    bytecodes := m.counters.bytecodes + 1
    sends := m.counters.sends + 1
    doesNotUnderstand := m.counters.doesNotUnderstand + 1 } (m.methodCache.misses + 1)

/-- The send fails with the error of a fault, unless the memory is spent. -/
theorem Puzzles.findSelector_none (h : m.Puzzles call) (apart : m.Apart call)
    (messages : m.Messages width) (moored : m.Moored call.lookupClass)
    (hnone : Smalltalk.findMethod m.memory call.lookupClass m.reportSelector m.specials.nil =
      .ok none) : ∃ e m', Action.findSelector call.selector call.arguments.length call.lookupClass m =
        .error e m' ∧ (e = .recursiveDoesNotUnderstand m.reportSelector ∨ e.Spent m') := by
  by_cases hself : call.selector = m.reportSelector
  · have hlookup := Action.lookup_none h.live h.unknown (h.uncached h.unknown)
    have hspecial (m : Machine) : Action.special Special.doesNotUnderstand m =
      .ok m.reportSelector m := rfl
    refine ⟨.recursiveDoesNotUnderstand m.reportSelector,
      m.noted m.registers.pc m.counters (m.methodCache.misses + 1), ?_, .inl rfl⟩
    unfold Action.findSelector
    rw [bind_of_ok hlookup]
    refine (bind_of_ok (hspecial _)).trans ((congrFun (if_pos hself) _).trans ?_)
    rw [hself]
    rfl
  · rw [h.findSelector_eq hself]
    have h' := h.noted m.registers.pc { m.counters with
      doesNotUnderstand := m.counters.doesNotUnderstand + 1 } (m.methodCache.misses + 1)
    rcases h'.achieves_pleads ⟨messages.two, messages.spec⟩ with
      ⟨_, m₁, hrun, array, message, p⟩ | ⟨e, m₁, hrun, he⟩
    · obtain ⟨m₂, hlookup⟩ := p.lookup_none h' apart moored hnone
      refine ⟨.recursiveDoesNotUnderstand m.reportSelector, m₂, ?_, .inl rfl⟩
      refine (bind_of_ok hrun).trans ?_
      exact bind_of_ok hlookup
    · exact ⟨e, m₁, bind_of_error hrun, .inr he⟩

end Machine

end Smalltalk
