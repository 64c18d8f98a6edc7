import Smalltalk.Proofs.Sends
import Smalltalk.Proofs.Trials

/-!
# Closed steps

A step that ends leaves a closed machine closed, wherever it had to make room, with one exception. A
primitive that performs a message takes the selector off the stack before the message is sent. If the
message is then not understood, the selector is held by nothing while the array and the message that
report it are made; when that frees it, the message ends up with a stale reference. The main statement
says that this is the only way for a step to leave a stale reference behind.
-/

namespace Smalltalk

open Outcome

namespace Machine

variable {m m' : Machine} {s : SpecialObjects} {v x cls selector message receiver method : Value}
  {n : Nat}

/-! ### Messages -/

theorem Sound.reachable_array (h : m.Sound s) (room : m.memory.Addressable) :
    m.memory.Reachable m.anchors m.specials.array :=
  .root (by simp [anchors]) (Memory.isLive_of_cell (h.coherent room).nil)

/-- What making a message leaves behind. -/
structure Packs (s : SpecialObjects) (m : Machine) (message : Value) (m' : Machine) : Prop where
  sound : m'.Sound s
  proper : m'.Proper message
  registers : m'.registers = m.registers
  later : m.memory.Later m'.memory
  frame : m'.memory.Addressable → ∀ i x, m.memory.cell m.registers.context i = some x →
    m'.memory.cell m.registers.context i = some x

theorem Allots.packs (h : Allots s m v m') : Packs s m v m' where
  sound := h.sound
  proper := h.proper
  registers := h.registers
  later := h.later
  frame _ i x hx := by
    have hreach : m.memory.Reachable m.anchors m.registers.context :=
      .root (by simp [Machine.anchors]) (Memory.isLive_of_cell hx)
    rw [Memory.cell_congr (h.kept _ hreach), hx]

theorem Packs.trans {m₁ : Machine} (h : Packs s m v m₁) (h' : Packs s m₁ x m') :
    Packs s m x m' where
  sound := h'.sound
  proper := h'.proper
  registers := h'.registers.trans h.registers
  later := h.later.trans h'.later
  frame room i y hy := by
    have hy := h.frame (h'.later.addressable room) i y hy
    rw [← h.registers] at hy ⊢
    exact h'.frame room i y hy

/-- A field of a new object may be filled. -/
theorem Packs.setCell {i : Nat} (h : Packs s m v m')
    (harray : m'.memory.Addressable → v ≠ m'.specials.array)
    (hcontext : m'.memory.Addressable → m.memory.isLive m.registers.context = true →
      v ≠ m.registers.context) (hx : m'.Proper x) : Packs s m v (m'.setCell v i x) where
  sound := h.sound.setCell hx harray
  proper := (h.sound.toSafe.follows_setCell hx).proper v h.proper
  registers := h.registers
  later := h.later.trans (Memory.later_modify ..)
  frame room j y hy := by
    have room' := (Memory.later_modify m'.memory v _).addressable room
    have hne := hcontext room' (Memory.isLive_of_cell hy)
    rw [Machine.setCell, Memory.cell_setField, if_neg fun e => hne e.1.symm]
    exact h.frame room' j y hy

theorem addressable_setCell {i : Nat} (room : (m.setCell v i x).memory.Addressable) :
    m.memory.Addressable := (Memory.later_modify m.memory v _).addressable room

theorem resolves_setCell {i : Nat} (m : Machine) (v x y : Value) :
    (m.setCell v i x).memory.Resolves y ↔ m.memory.Resolves y := by
  rw [Machine.setCell, Memory.Resolves, Memory.Resolves, Memory.isLive_setField]

/-- A message is made safely if its selector is still there in the end. -/
theorem Sound.createMessage (h : m.Sound s) (hcls : m.Anchored cls) :
    Gives (Action.createMessage selector n cls) m fun message m' =>
      m'.memory.Resolves selector → Packs s m message m' := by
  refine .bind (h.stackValues fun arguments harguments => ?_)
  refine .bind (gives_special (.bind ((h.allocate fun x hx => ?_).mono fun array m₁ h₁ => ?_)))
  · rcases List.mem_cons.1 hx with rfl | hx
    · exact h.anchored_special _
    · exact harguments x (by simpa [Object.ofPointers] using hx)
  have hpins : ∀ x ∈ [array], m₁.Proper x := by
    intro x hx
    rw [List.mem_singleton.1 hx]
    exact h₁.proper
  refine .bind ((h₁.sound.withPins_allots hpins fun h₂ => ?_).mono fun message m₂ h₂ => ?_)
  · exact .bind (gives_special (h₂.instantiate (h₂.anchored_special _)))
  obtain ⟨h₂, hpinned⟩ := h₂
  have hpacks := h₁.packs.trans h₂.packs
  have harray : m₂.memory.Addressable → message ≠ m₂.specials.array := fun room e =>
    h₂.fresh room _ (h₁.sound.reachable_array (h₂.later.addressable room)) (by rw [e, h₂.specials])
  have hcontext : m₂.memory.Addressable → m.memory.isLive m.registers.context = true →
      message ≠ m.registers.context := by
    intro room live e
    have hreach : m.memory.Reachable m.anchors m.registers.context :=
      .root (by simp [anchors]) live
    refine h₂.fresh room _ ?_ e.symm
    rw [h₁.anchors]
    exact hreach.of_shape h₁.kept
  have filled : m₂.memory.Resolves selector →
      Packs s m message ((m₂.setCell message 0 selector).setCell message 1 array) := by
    intro hselector
    have f₃ := h₂.sound.toSafe.follows_setCell (v := message) (i := 0) (x := selector)
      fun _ => hselector
    have p₃ := hpacks.setCell (i := 0) harray hcontext (x := selector) fun _ => hselector
    exact p₃.setCell (fun room => harray (addressable_setCell room))
      (fun room => hcontext (addressable_setCell room))
      (f₃.proper _ (hpinned array List.mem_cons_self))
  intro message' m' hrun hselector
  -- storing changes no liveness, so the selector is there when it is stored
  obtain ⟨_, m₃, hstore, hrun⟩ := bind_ok.1 hrun
  obtain ⟨-, rfl⟩ := Action.store_ok.1 hstore
  obtain ⟨_, m₄, hstore, hrun⟩ := bind_ok.1 hrun
  obtain ⟨-, rfl⟩ := Action.store_ok.1 hstore
  obtain ⟨o, m₅, ho, hrun⟩ := bind_ok.1 hrun
  obtain ⟨-, rfl⟩ := Action.object_ok.1 ho
  split at hrun
  · obtain ⟨_, m₆, hstore, hrun⟩ := bind_ok.1 hrun
    obtain ⟨-, rfl⟩ := Action.store_ok.1 hstore
    obtain ⟨rfl, rfl⟩ := pure_ok.1 hrun
    simp only [resolves_setCell] at hselector
    have p₄ := filled hselector
    have hcls₂ := h₂.anchored (h₁.anchored hcls)
    refine p₄.setCell (fun room => harray (addressable_setCell (addressable_setCell room)))
      (fun room => hcontext (addressable_setCell (addressable_setCell room))) fun room => ?_
    rw [resolves_setCell, resolves_setCell]
    exact hcls₂.proper (addressable_setCell (addressable_setCell room))
  · obtain ⟨rfl, rfl⟩ := pure_ok.1 hrun
    simp only [resolves_setCell] at hselector
    exact filled hselector

/-- The first field of a message is its selector. -/
theorem createMessage_selector : Gives (Action.createMessage selector n cls) m fun message m' =>
    m'.memory.cell message 0 = some selector := by
  refine .bind fun _ _ _ => .bind fun _ _ _ => .bind fun array _ _ => .bind fun message m₁ _ => ?_
  refine .bind fun _ m₂ hstore => ?_
  obtain ⟨⟨x, hx⟩, rfl⟩ := Action.store_ok.1 hstore
  have hcell : (m₁.setCell message 0 selector).memory.cell message 0 = some selector := by
    rw [Machine.setCell, Memory.cell_setField, if_pos ⟨rfl, rfl⟩, hx, Option.map_some]
  -- the other fields of the message are stored behind it
  have other : ∀ {m₂ : Machine} {i : Nat} {y : Value}, 0 ≠ i →
      m₂.memory.cell message 0 = some selector →
      Gives (Action.store message i y) m₂ fun _ m' => m'.memory.cell message 0 = some selector := by
    intro m₂ i y hi h _ m' hstore
    obtain ⟨-, rfl⟩ := Action.store_ok.1 hstore
    rw [Machine.setCell, Memory.cell_setField, if_neg fun e => hi e.2, h]
  refine .bind ((other (by decide) hcell).mono fun _ m₃ h₃ => .bind (gives_object fun o _ => ?_))
  exact .ite (fun _ => .bind ((other (by decide) h₃).mono fun _ _ h₄ => .pure h₄)) fun _ => .pure h₃

/-! ### Lookup -/

/-- The machine once a send has been counted. -/
def sending (m : Machine) : Machine :=
  { m with counters := { m.counters with sends := m.counters.sends + 1 } }

/-- The machine once a send that is not understood has been counted. -/
def reporting (m : Machine) : Machine :=
  { m with counters := { m.counters with doesNotUnderstand := m.counters.doesNotUnderstand + 1 } }

/-- The selector is freed while the message that reports it is made, and so the message has a field
that does not resolve. -/
def Forgets (m : Machine) (selector : Value) (argCount : Nat) (cls : Value) : Prop :=
  ∃ m₁ message m₂, Action.lookup selector cls m = .ok none m₁ ∧
    Action.createMessage selector argCount cls m₁.reporting = .ok message m₂ ∧
    m₂.memory.cell message 0 = some selector ∧ ¬m₂.memory.Resolves selector

/-- Replacing the arguments leaves the receiver below them. -/
theorem cell_replaced (m : Machine) (n : Nat) (x : Value) :
    (Action.pushed (Action.popped m n) x).memory.cell m.registers.context (m.registers.sp - n) =
      m.memory.cell m.registers.context (m.registers.sp - n) := by
  change (m.memory.setField m.registers.context (m.registers.sp - n + 1) x).cell _ _ = _
  rw [Memory.cell_setField, if_neg fun e => absurd e.2 (by omega)]

/-- The receiver stays below the arguments, also when a message takes their place. -/
theorem Sound.findSelector (h : m.Sound s) (hcls : m.Anchored cls)
    (hreceiver : m.memory.cell m.registers.context (m.registers.sp - n) = some receiver) :
    Gives (Action.findSelector selector n cls) m fun _ m' =>
      m.Forgets selector n cls ∨ (m'.Sound s ∧ m'.Anchored receiver) := by
  refine .bind fun found m₁ hlookup => ?_
  have alike := Attempt.lookup_alike hlookup
  have h₁ := h.alike alike
  have hreceiver₁ : m₁.memory.cell m₁.registers.context (m₁.registers.sp - n) = some receiver := by
    rw [alike.memory, alike.registers]
    exact hreceiver
  cases found with
  | some e => exact .pure (.inr ⟨h₁, h₁.anchored_context.cell h₁.toSafe hreceiver₁⟩)
  | none =>
    have alike₂ : Alike m m₁.reporting := ⟨alike.memory, alike.specials, alike.registers, alike.pool⟩
    refine .bind (gives_special (.ite (fun _ => .bind .throw) fun _ => ?_))
    refine .bind fun _ m₂ hcount => ?_
    obtain rfl := Action.modifyCounters_ok.1 hcount
    refine .bind fun message m₃ hmessage => ?_
    by_cases hselector : m₃.memory.Resolves selector
    · have hpacks := (h.alike alike₂).createMessage (hcls.alike alike₂) message m₃ hmessage hselector
      have h₄ := (hpacks.sound.popped n).pushed hpacks.proper
      refine .bind fun _ m₄ hpush => ?_
      obtain ⟨-, -, rfl⟩ := Action.popThenPush_ok.1 hpush
      refine .bind fun found m₅ hlookup₅ => ?_
      have alike₅ := Attempt.lookup_alike hlookup₅
      have hanchored : (Action.pushed (Action.popped m₃ n) message).Anchored receiver := by
        intro room
        have hregisters : m₃.registers = m₁.registers := hpacks.registers
        have hcell : m₃.memory.cell m₁.registers.context (m₁.registers.sp - n) = some receiver :=
          hpacks.frame (addressable_setCell room) _ _ hreceiver₁
        rw [← hregisters, ← cell_replaced m₃ n message] at hcell
        exact h₄.anchored_context.cell h₄.toSafe hcell room
      cases found with
      | none => exact .throw
      | some e => exact .pure (.inr ⟨h₄.alike alike₅, hanchored.alike alike₅⟩)
    · exact fun _ _ _ => .inl ⟨m₁, message, m₃, hlookup, hmessage,
        createMessage_selector message m₃ hmessage, hselector⟩

/-! ### Activation -/

theorem mem_fillFrame {o : Object} {sender nil : Value} {frame : Array Value} {count : Nat}
    (hx : x ∈ (Action.fillFrame o sender method nil frame count).pointers) :
    x ∈ o.pointers ∨ x = sender ∨ x = method ∨ x = nil ∨ x ∈ frame := by
  simp only [Action.fillFrame, Array.mem_append, Array.mem_replicate] at hx
  rcases hx with (hx | hx | hx) | hx
  · rcases Array.mem_or_eq_of_mem_setIfInBounds hx with hx | rfl
    · rcases Array.mem_or_eq_of_mem_setIfInBounds hx with hx | rfl
      · rcases Array.mem_or_eq_of_mem_setIfInBounds hx with hx | rfl
        · exact .inl (Primitive.mem_of_extract hx)
        · exact .inr (.inr (.inl rfl))
      · exact .inr (.inr (.inr (.inl rfl)))
    · exact .inr (.inl rfl)
  · exact .inr (.inr (.inr (.inr hx)))
  · exact .inr (.inr (.inr (.inl hx.2)))
  · exact .inl (Primitive.mem_of_extract hx)

theorem isLive_of_header {memory : Memory} {header : MethodHeader}
    (h : MethodHeader.of memory method = .ok header) : memory.isLive method = true := by
  cases ho : memory.get? method with
  | none => simp [MethodHeader.of, ho] at h
  | some o => exact Memory.isLive_of_get? ho

/-- A context is made while the method is pinned. -/
theorem Sound.pinnedContext {large : Bool} (h : m.Sound s) (hmethod : m.Proper method) :
    Gives (Action.withPins [method] (Action.allocateContext large)) m fun context m' =>
      Supplies s m context m' ∧ m'.Proper method := by
  intro context m' hrun
  obtain ⟨m₁, hinner, rfl⟩ := withPins_ok hrun
  have hvalues : ∀ x ∈ #[method], m.Proper x := by
    intro x hx
    rw [Array.mem_singleton.1 hx]
    exact hmethod
  have hs := allocateContext_supplies (h.pinned hvalues) hinner
  have hpins : ∀ x ∈ m₁.memory.pins.take m.memory.pins.size, m₁.Proper x := by
    intro x hx
    rw [← Array.mem_toList_iff, toList_take] at hx
    exact hs.safe.proper_pin (Array.mem_toList_iff.1 (List.mem_of_mem_take hx))
  refine ⟨⟨hs.safe.withPins hpins, fun room => hs.proper ⟨room.size, room.generation⟩, hs.registers,
    fun x hx room => hs.anchored x (hx.withPins _) ⟨room.size, room.generation⟩⟩, fun room => ?_⟩
  exact hs.anchored method (anchored_pinned hvalues (by simp)) ⟨room.size, room.generation⟩

/-- The receiver of a new context is still on the stack of the sender when it is made. -/
theorem Sound.enterMethod (h : m.Sound s) (hreceiver : m.Anchored receiver) :
    Gives (Action.enterMethod receiver method n) m fun _ m' => m'.Safe s := by
  refine .bind (.get (.bind fun header m₁ hread => ?_))
  obtain ⟨hheader, rfl⟩ := Action.ofExcept_ok.1 hread
  have hmethod : m.Proper method := fun _ => .inr (isLive_of_header hheader)
  refine .bind ((h.pinnedContext hmethod).mono fun context m₁ h₁ => ?_)
  obtain ⟨h₁, hmethod₁⟩ := h₁
  have hreceiver₁ := h₁.anchored receiver hreceiver
  refine .bind (h₁.safe.nil fun nil hnil => .bind (gives_registers ?_))
  refine .bind (h₁.safe.stackValues fun frame hframe => .bind (gives_object fun o ho => ?_))
  refine .ite (fun _ => .bind .throw) fun _ => ?_
  refine .bind fun _ m₂ hfill => ?_
  obtain rfl := Action.modifyMemory_ok.1 hfill
  have f₂ : Follows s m₁ (m₁.modified context fun o => Action.fillFrame o m₁.registers.context
      method nil frame.toArray header.tempCount) := by
    refine h₁.safe.follows_modified fun o ho x hx => ?_
    rcases List.mem_cons.1 hx with rfl | hx
    · exact h₁.safe.proper_of_shape (Memory.shape_of_get? ho) List.mem_cons_self
    · rcases mem_fillFrame (Array.mem_toList_iff.1 hx) with hx | rfl | rfl | rfl | hx
      · exact h₁.safe.proper_of_shape (Memory.shape_of_get? ho)
          (List.mem_cons_of_mem _ (Array.mem_toList_iff.2 hx))
      · exact h₁.safe.anchored_context.proper
      · exact hmethod₁
      · exact hnil
      · exact (hframe x (List.mem_toArray.1 hx)).proper
  refine .bind (f₂.safe.popN fun f₃ => ?_)
  have f₃ := f₂.trans f₃
  refine .bind (f₃.safe.modify ⟨rfl, rfl, rfl, rfl⟩ fun f₄ => ?_)
  have f₄ := f₃.trans f₄
  refine .bind (f₄.safe.saveRegisters.mono fun _ m₅ f₅ => .bind (.modify ?_))
  have f₅ := f₄.trans f₅
  have f₆ := f₅.safe.follows_withRegisters (r :=
    { context, home := context, method, receiver, pc := 0
      sp := Context.receiver + header.tempCount, literalCount := header.literalCount })
    (f₅.proper _ h₁.proper) (f₅.proper _ h₁.proper) (f₅.proper _ hmethod₁) (f₅.proper _ hreceiver₁)
  exact f₆.safe.saveRegisters.mono fun _ _ f₇ => f₇.safe

theorem Sound.activateMethod (h : m.Sound s) (hreceiver : m.Anchored receiver) :
    Gives (Action.activateMethod receiver method n) m fun _ m' => m'.Safe s :=
  .bind ((h.enterMethod hreceiver).mono fun _ _ h₁ => h₁.checkInterrupts.mono fun _ _ f => f.safe)

/-! ### Primitives -/

/-- How a trial of a primitive leaves the machine. -/
def Tried (s : SpecialObjects) (m m' : Machine) : Action.Trial → Prop
  | .handled => m'.Settled s
  | .resend selector _ cls => m'.Sound s ∧ m'.Proper selector ∧ m'.Anchored cls
  | .unhandled => m.Undone m'

theorem gives_run? {α : Type} {y : Attempt α} {Q : Option α → Machine → Prop}
    (hy : Gives y m fun a m' => Q (some a) m')
    (hdeclined : ∀ m', y m = .error .declined m' → Q none m') : Gives y.run? m Q := by
  intro found m' hrun
  simp only [Attempt.run?] at hrun
  split at hrun
  · rename_i a m₁ hok
    obtain ⟨rfl, rfl⟩ := EStateM.Result.ok.inj hrun
    exact hy a m₁ hok
  · rename_i m₁ herror
    obtain ⟨rfl, rfl⟩ := EStateM.Result.ok.inj hrun
    exact hdeclined m₁ herror
  · exact absurd hrun (by simp)

theorem Safe.proper_quickConstant (h : m.Safe s) (hv : Action.quickConstant m.specials n = some v) :
    m.Proper v := by
  unfold Action.quickConstant at hv
  split at hv
  case h_8 => exact absurd hv (by simp)
  all_goals obtain rfl := Option.some.inj hv
  all_goals first | exact proper_small _ | exact h.proper_of_held (by simp [held])

theorem Sound.quickPrimitive (h : m.Sound s) :
    Gives (Action.quickPrimitive n) m fun trial m' => m.Tried s m' trial := by
  have answer : ∀ {v}, m.Proper v → Gives (do
      Action.popThenPush 1 v
      return .handled : Action Action.Trial) m fun trial m' => m.Tried s m' trial := by
    intro v hv
    exact .bind ((h.toSafe.popThenPush hv).mono fun _ _ f => .pure (.inl f.safe))
  refine .ite (fun _ => .pure (.inl h.toSafe)) fun _ => .bind (.get ?_)
  split
  · rename_i v hv
    exact answer (h.toSafe.proper_quickConstant hv)
  · refine .bind (h.toSafe.stackValue fun receiver _ => .bind (gives_object? ?_))
    split
    · rename_i v hv
      obtain ⟨o, ho, hv⟩ := Option.bind_eq_some_iff.1 hv
      exact answer (h.toSafe.proper_of_cell (Memory.cell_eq_some.2 ⟨o, ho, hv⟩))
    · exact .pure (.refl m)

theorem Sound.tryPrimitive {number : Nat} (h : m.Sound s) :
    Gives (Action.tryPrimitive number n) m fun trial m' => m.Tried s m' trial := by
  unfold Action.tryPrimitive
  refine .ite (fun _ => h.quickPrimitive) fun _ => ?_
  split
  · exact .pure (.refl m)
  · rename_i p hp
    have hmem := Primitive.mem_all_of_find? hp
    refine .bind (gives_run? ((Primitive.all_end p hmem n h).mono fun c m₁ h₁ => ?_) fun m₁ h₁ => ?_)
    · cases c with
      | done => exact .pure h₁
      | resend selector count cls => exact .pure h₁
    · have hundone := Primitive.all_yield p hmem n m m₁ h₁
      refine .bind fun _ m₂ hcount => ?_
      obtain rfl := Action.modifyCounters_ok.1 hcount
      exact .pure (hundone.trans (.of_memory rfl rfl rfl rfl rfl))

/-! ### Sends -/

/-- A send, or one that it is handed on to, is not understood, and its selector is freed while that is
reported. -/
inductive Drops : Value → Nat → Value → Machine → Prop
  | here {selector cls : Value} {argCount : Nat} {m : Machine} (known : m.Proper selector)
      (forgets : m.sending.Forgets selector argCount cls) : Drops selector argCount cls m
  | handed {selector cls selector' cls' : Value} {argCount argCount' : Nat} {m m₁ m₂ : Machine}
      {entry : CacheEntry}
      (found : Action.findSelector selector argCount cls m.sending = .ok entry m₁)
      (tried : Action.tryPrimitive entry.primitive (argCount + m₁.registers.sp - m.registers.sp)
        { m₁ with lastPrimitiveSend := some (selector, cls) } =
          .ok (.resend selector' argCount' cls') m₂)
      (drops : Drops selector' argCount' cls' m₂) : Drops selector argCount cls m

/-- A send leaves a safe machine behind, unless it drops a selector. -/
theorem Sound.sendWithin {limit : Nat} (h : m.Sound s) (hselector : m.Proper selector)
    (hcls : m.Anchored cls) : Gives (Action.sendWithin limit selector n cls) m fun _ m' =>
      m'.Settled s ∨ Drops selector n cls m := by
  induction limit generalizing m selector n cls with
  | zero => exact .throw
  | succ limit ih =>
    unfold Action.sendWithin
    refine .bind fun _ m₀ hcount => ?_
    obtain rfl := Action.modifyCounters_ok.1 hcount
    have alike : Alike m m.sending := ⟨rfl, rfl, rfl, rfl⟩
    refine .bind fun receiver m₀ hreceiver => ?_
    obtain ⟨-, hcell, rfl⟩ := Action.stackValue_ok.1 hreceiver
    refine .bind (gives_registers (.bind fun entry m₁ hfind => ?_))
    rcases (h.alike alike).findSelector (hcls.alike alike) hcell entry m₁ hfind with hdrop | ⟨h₁, hr₁⟩
    · exact fun _ _ _ => .inr (.here hselector hdrop)
    by_cases hp : 0 < entry.primitive
    · simp only [hp, if_true]
      have alike₂ : Alike m₁ { m₁ with lastPrimitiveSend := some (selector, cls) } :=
        ⟨rfl, rfl, rfl, rfl⟩
      refine .bind (.modify (.bind (gives_registers (.bind fun trial m₃ htry => ?_))))
      have htried := (h₁.alike alike₂).tryPrimitive trial m₃ htry
      cases trial with
      | handled => exact .pure (.inl htried)
      | resend selector' count cls' =>
        obtain ⟨h₃, hselector₃, hcls₃⟩ := htried
        exact (ih h₃ hselector₃ hcls₃).mono fun _ _ hm => hm.imp_right (.handed hfind htry)
      | unhandled =>
        have hr₃ := htried.anchored (h₁.alike alike₂).stocked (hr₁.alike alike₂)
        exact ((htried.sound s (h₁.alike alike₂)).activateMethod hr₃).mono fun _ _ hm =>
          .inl (.inl hm)
    · simp only [hp, if_false]
      refine .bind (gives_registers (.bind (.pure ?_)))
      exact (h₁.activateMethod hr₁).mono fun _ _ hm => .inl (.inl hm)

/-! ### Instructions -/

/-- An instruction leaves a safe machine, or it sends something. -/
def Carried (s : SpecialObjects) (instruction : Instruction) (m m' : Machine) : Prop :=
  m'.Safe s ∨ ∃ a, instruction.Sends m a

theorem ClassBelow.anchored (h : m.Sound s) (hcls : m.ClassBelow n cls) : m.Anchored cls := by
  obtain ⟨receiver, hreceiver, hcls⟩ := hcls
  have hanchored : m.Anchored receiver :=
    h.toSafe.stackValue (Q := fun x _ => m.Anchored x) (fun _ hx => hx) _ _ hreceiver
  exact h.classOf (Q := fun x _ => m.Anchored x) hanchored (fun _ hx => hx) _ _ hcls

theorem CallsSpecial.sound {index : Nat} {a : Sending} (h : m.Sound s) (calls : m.CallsSpecial index a) :
    m.Proper a.selector ∧ m.Anchored a.lookupClass :=
  ⟨((h.anchored_special _).cell h.toSafe calls.selector).proper, calls.cls.anchored h⟩

/-- What an instruction sends is proper. -/
theorem Sound.sends {instruction : Instruction} {a : Sending} (h : m.Sound s)
    (sends : instruction.Sends m a) : m.Proper a.selector ∧ m.Anchored a.lookupClass := by
  have literal {i : Nat} {x : Value} (hx : m.memory.cell m.registers.method (i + 1) = some x) :
      m.Proper x := (h.anchored_method.cell h.toSafe hx).proper
  cases sends with
  | send selector cls => exact ⟨literal selector, cls.anchored h⟩
  | sendSuper selector association owner superclass =>
    exact ⟨literal selector, ((h.anchored_method.cell h.toSafe association).cell h.toSafe owner).cell
      h.toSafe superclass⟩
  | arithmetic _ _ _ calls => exact calls.sound h
  | special _ calls => exact calls.sound h
  | jumpIf _ _ _ selector _ cls => exact ⟨selector ▸ (h.anchored_special _).proper, cls.anchored h⟩

theorem Safe.literal {Q : Value → Machine → Prop} {index : Nat} (h : m.Safe s)
    (hQ : ∀ x, m.Proper x → Q x m) : Gives (Action.literal index) m Q :=
  .bind (gives_registers (h.fetch hQ))

theorem Safe.readVariable {Q : Value → Machine → Prop} {place : Variable} (h : m.Safe s)
    (hQ : ∀ x, m.Proper x → Q x m) : Gives (Action.readVariable place) m Q := by
  cases place with
  | field index => exact .bind (gives_registers (h.fetch hQ))
  | temporary index => exact .bind (gives_registers (h.fetch hQ))
  | literal index => exact h.literal hQ
  | global index => exact .bind (h.literal fun _ _ => h.fetch hQ)

theorem Safe.writeVariable {place : Variable} (h : m.Safe s) (hx : m.Proper x) :
    Gives (Action.writeVariable x place) m fun _ m' => m'.Safe s := by
  cases place with
  | field index => exact .bind (gives_registers (h.store hx fun f => f.safe))
  | temporary index => exact .bind (gives_registers (h.store hx fun f => f.safe))
  | literal index => exact .bind (gives_registers .throw)
  | global index => exact .bind (h.literal fun _ _ => h.store hx fun f => f.safe)

theorem Safe.proper_truth (h : m.Safe s) (b : Bool) : m.Proper (m.specials.truth b) := by
  refine h.proper_of_held ?_
  cases b <;> simp [held, SpecialObjects.truth]

theorem gives_truth {Q : Value → Machine → Prop} {b : Bool} (hQ : Q (m.specials.truth b) m) :
    Gives (Action.truth b) m Q := by
  intro x m' hrun
  obtain ⟨rfl, rfl⟩ := Action.truth_ok.1 hrun
  exact hQ

theorem Safe.constantValue {Q : Value → Machine → Prop} {c : Constant} (h : m.Safe s)
    (hQ : ∀ x, m.Proper x → Q x m) : Gives (Action.constantValue c) m Q := by
  cases c with
  | receiver => exact .bind (gives_registers (.pure (hQ _ h.anchored_receiver.proper)))
  | true => exact gives_truth (hQ _ (h.proper_truth true))
  | false => exact gives_truth (hQ _ (h.proper_truth false))
  | nil => exact h.nil hQ
  | integer k => exact .pure (hQ _ (proper_small _))

/-! ### Jumps -/

/-- The program counter has moved, and nothing that is held has changed. -/
structure Advances (m m' : Machine) : Prop where
  memory : m'.memory = m.memory
  specials : m'.specials = m.specials
  pool : m'.pool = m.pool
  registers : ∃ pc, m'.registers = { m.registers with pc }

theorem Advances.refl (m : Machine) : Advances m m := ⟨rfl, rfl, rfl, m.registers.pc, rfl⟩

theorem Advances.trans {m'' : Machine} (h : Advances m m') (h' : Advances m' m'') :
    Advances m m'' := by
  obtain ⟨pc, hpc⟩ := h.registers
  obtain ⟨pc', hpc'⟩ := h'.registers
  refine ⟨h'.memory.trans h.memory, h'.specials.trans h.specials, h'.pool.trans h.pool, pc', ?_⟩
  rw [hpc', hpc]

theorem Advances.safe (e : Advances m m') (h : m.Safe s) : m'.Safe s := by
  obtain ⟨pc, hpc⟩ := e.registers
  have hmoved : (m.withRegisters { m.registers with pc }).Safe s :=
    h.withRegisters h.anchored_context.proper h.anchored_home.proper h.anchored_method.proper
      h.anchored_receiver.proper
  exact hmoved.alike ⟨e.memory, e.specials, hpc, by rw [e.pool]; rfl⟩

theorem Advances.sound (e : Advances m m') (h : m.Sound s) : m'.Sound s where
  toSafe := e.safe h.toSafe
  coherent room := by
    rw [e.memory] at room
    exact (h.coherent room).of_cell e.specials fun i => by rw [e.memory]
  frame := by
    obtain ⟨pc, hpc⟩ := e.registers
    rw [hpc, e.specials]
    exact h.frame

theorem advances_skipByte : Gives Action.skipByte m fun _ m' => Advances m m' :=
  .modify ⟨rfl, rfl, rfl, _, rfl⟩

theorem advances_countBytecode : Gives Action.countBytecode m fun _ m' => Advances m m' :=
  .modify ⟨rfl, rfl, rfl, m.registers.pc, rfl⟩

theorem gives_peekByte {Q : Option UInt8 → Machine → Prop} (hQ : ∀ found, Q found m) :
    Gives Action.peekByte m Q :=
  .bind (gives_registers (.bind (gives_object? (.pure (hQ _)))))

theorem advances_nextByte : Gives Action.nextByte m fun _ m' => Advances m m' := by
  refine .bind (gives_registers (.bind (gives_object fun _ _ => .bind (gives_peekByte ?_))))
  intro found
  cases found with
  | none => exact .throw
  | some byte => exact .bind (advances_skipByte.mono fun _ _ e => .pure e)

theorem advances_jump {offset : Int} : Gives (Action.jump offset) m fun _ m' => Advances m m' := by
  refine .bind (gives_registers (.ite (fun _ => .bind .throw) fun _ => ?_))
  exact .modify ⟨rfl, rfl, rfl, _, rfl⟩

/-- A value that is no truth value is put back before the send. -/
theorem Sound.jumpIf {condition : Bool} {offset : Int} (h : m.Sound s) :
    Gives (Action.jumpIf condition offset) m fun _ m' => Carried s (.jumpIf condition offset) m m' := by
  intro _ m' hrun
  rcases Action.jumpIf_late Action.late_ok hrun with hsends | ⟨x, m₁, hpop, hend⟩
  · exact .inr hsends
  · have hsafe : m₁.Safe s := h.toSafe.pop (Q := fun _ m' => m'.Safe s) (fun _ _ f => f.safe) _ _ hpop
    rcases hend with hjump | hend
    · exact .inl ((advances_jump _ _ hjump.symm).safe hsafe)
    · obtain rfl := (EStateM.Result.ok.inj hend).2
      exact .inl hsafe

theorem Safe.pushTruth {b : Bool} (h : m.Safe s) :
    Gives (do Action.push (← Action.truth b)) m fun _ m' => m'.Safe s :=
  .bind (gives_truth ((h.push (h.proper_truth b)).mono fun _ _ f => f.safe))

theorem Safe.answerComparison {result : Bool} (h : m.Safe s) :
    Gives (Action.answerComparison result) m fun _ m' => m'.Safe s := by
  refine .bind (h.popN fun f => .bind (gives_peekByte fun found => ?_))
  -- both kinds of jump are fetched and counted first
  have taken : ∀ {rest : Action Unit}, (∀ {m₁}, m₁.Safe s → Gives rest m₁ fun _ m' => m'.Safe s) →
      Gives (do
        Action.skipByte
        Action.countBytecode
        rest) (Action.popped m 2) fun _ m' => m'.Safe s := by
    intro rest hrest
    refine .bind (advances_skipByte.mono fun _ _ e => .bind (advances_countBytecode.mono ?_))
    exact fun _ _ e' => hrest ((e.trans e').safe f.safe)
  cases found with
  | none => exact f.safe.pushTruth
  | some next =>
    refine .ite (fun _ => taken fun h₁ => ?_) fun _ => .ite (fun _ => taken fun h₁ => ?_) fun _ => ?_
    · exact .ite (fun _ => advances_jump.mono fun _ _ e => e.safe h₁) fun _ => .pure h₁
    · refine .bind (advances_nextByte.mono fun _ _ e => ?_)
      exact .ite (fun _ => advances_jump.mono fun _ _ e' => (e.trans e').safe h₁) fun _ =>
        .pure (e.safe h₁)
    · exact f.safe.pushTruth

/-! ### Special selectors -/

theorem Sound.answerAtOnce {index : Nat} {x y : Value} (h : m.Sound s) :
    ∀ answer ∈ Action.answerAtOnce index x y, Gives answer m fun _ m' => m'.Safe s := by
  have push : ∀ {m₁ v}, m₁.Safe s → m₁.Proper v →
      Gives (Action.popThenPush 2 v) m₁ fun _ m' => m'.Safe s := fun h₁ hv =>
    (h₁.popThenPush hv).mono fun _ _ f => f.safe
  intro answer hanswer
  unfold Action.answerAtOnce at hanswer
  split at hanswer
  · split at hanswer
    · obtain rfl := Option.some.inj hanswer
      exact h.toSafe.answerComparison
    · split at hanswer
      · obtain rfl := Option.some.inj hanswer
        exact .bind ((h.makePoint (proper_small _) (proper_small _)).mono fun _ _ hm => push hm.1 hm.2)
      · obtain ⟨v, hv, rfl⟩ := Option.map_eq_some_iff.1 hanswer
        obtain ⟨k, -, hk⟩ := Option.bind_eq_some_iff.1 hv
        rw [eq_small_of_ofInt? hk]
        exact push h.toSafe (proper_small k)
  · cases hanswer

theorem Sound.arithmetic {index : Nat} (h : m.Sound s) :
    Gives (Action.arithmetic index) m fun _ m' => Carried s (.arithmetic index) m m' := by
  intro u m' hrun
  rcases Action.arithmetic_late Action.late_ok hrun with hsends | ⟨x, y, answer, hanswer, hrun⟩
  · exact .inr hsends
  · exact .inl (h.answerAtOnce answer hanswer u m' hrun)

/-- A quick way that was taken, or left without a trace. -/
def Quick (s : SpecialObjects) (m m' : Machine) (taken : Bool) : Prop :=
  if taken then m'.Safe s else m = m'

theorem Sound.quickly {y : Attempt Value} (hy : Gives y m fun v m' => m'.Safe s ∧ m'.Proper v)
    (hdeclined : Attempt.Yields Eq y) :
    Gives (Action.quickly n y) m fun taken m' => Quick s m m' taken := by
  refine .bind (gives_run? (hy.mono fun v m₁ h₁ => ?_) fun m₁ h₁ => ?_)
  · exact .bind ((h₁.1.popThenPush h₁.2).mono fun _ _ f => .pure f.safe)
  · exact .pure (hdeclined m m₁ h₁)

theorem Sound.quickSize (h : m.Sound s) :
    Gives Action.quickSize m fun taken m' => Quick s m m' taken := by
  refine .bind (h.toSafe.stackValue fun x _ => .bind fun found m₁ hsize => ?_)
  obtain rfl := Action.indexableSize_within (R := Eq) m found m₁ hsize
  cases found with
  | none => exact .pure rfl
  | some size =>
    refine .ite (fun _ => .bind (h.positive32.mono fun v m₁ hv => ?_)) fun _ => .pure rfl
    exact .bind ((hv.sound.toSafe.popThenPush hv.proper).mono fun _ _ f => .pure f.safe)

theorem Sound.quickBlock (h : m.Sound s) :
    Gives (do return (← (Attempt.blockValue n).run?).isSome) m fun taken m' => Quick s m m' taken := by
  refine .bind (gives_run? ((Attempt.blockValue_gives h.toSafe).mono fun _ m₁ h₁ => .pure h₁) ?_)
  exact fun m₁ h₁ => .pure (Attempt.blockValue_yields m m₁ h₁)

theorem Sound.quickSpecial {index : Nat} (h : m.Sound s) :
    Gives (Action.quickSpecial index) m fun taken m' => Quick s m m' taken := by
  unfold Action.quickSpecial
  split
  · exact Sound.quickly (Attempt.indexedAt_gives h) Attempt.indexedAt_true_yields
  · exact Sound.quickly (Attempt.indexedAtPut_gives h) Attempt.indexedAtPut_true_yields
  · exact h.quickSize
  · refine .bind (h.toSafe.stackValue fun a _ => .bind (h.toSafe.stackValue fun b _ => ?_))
    refine .bind (gives_truth (.bind ((h.toSafe.popThenPush (h.toSafe.proper_truth _)).mono ?_)))
    exact fun _ _ f => .pure f.safe
  · refine .bind (h.toSafe.stackValue fun x hx => .bind (h.classOf hx fun cls hcls => ?_))
    exact .bind ((h.toSafe.popThenPush hcls.proper).mono fun _ _ f => .pure f.safe)
  · exact Sound.quickly (Attempt.blockCopy_gives h) Attempt.blockCopy_yields
  · exact h.quickBlock
  · exact h.quickBlock
  · exact .pure rfl

/-! ### Steps -/

theorem Sound.execute {instruction : Instruction} (h : m.Sound s) :
    Gives (Action.execute instruction) m fun _ m' => Carried s instruction m m' := by
  have push : ∀ {m₁ x}, m₁.Safe s → m₁.Proper x →
      Gives (Action.push x) m₁ fun _ m' => Carried s instruction m m' := fun h₁ hx =>
    (h₁.push hx).mono fun _ _ f => .inl f.safe
  have unwind : ∀ {m₁ x target}, m₁.Safe s → m₁.Proper x → m₁.Proper target →
      Gives (Action.returnTo x target) m₁ fun _ m' => Carried s instruction m m' := fun h₁ hx ht =>
    (h₁.returnTo hx ht).mono fun _ _ f => .inl f.safe
  cases instruction with
  | push place => exact .bind (h.toSafe.readVariable fun x hx => push h.toSafe hx)
  | pushConstant c => exact .bind (h.toSafe.constantValue fun x hx => push h.toSafe hx)
  | pushContext =>
    refine .bind (h.toSafe.modify ⟨rfl, rfl, rfl, rfl⟩ fun f => .bind (gives_registers ?_))
    exact push f.safe f.safe.anchored_context.proper
  | store place =>
    refine .bind (h.toSafe.stackValue fun x hx => ?_)
    exact (h.toSafe.writeVariable hx.proper).mono fun _ _ hm => .inl hm
  | popInto place =>
    refine .bind (h.toSafe.pop fun x hx f => ?_)
    exact (f.safe.writeVariable (f.proper x hx.proper)).mono fun _ _ hm => .inl hm
  | returnConstant c =>
    refine .bind (h.toSafe.constantValue fun x hx => .bind (gives_registers ?_))
    exact .bind (h.toSafe.fetch fun target ht => unwind h.toSafe hx ht)
  | returnTop =>
    refine .bind (h.toSafe.pop fun x hx f => .bind (gives_registers ?_))
    exact .bind (f.safe.fetch fun target ht => unwind f.safe (f.proper x hx.proper) ht)
  | blockReturn =>
    refine .bind (h.toSafe.pop fun x hx f => .bind (gives_registers ?_))
    exact .bind (f.safe.fetch fun target ht => unwind f.safe (f.proper x hx.proper) ht)
  | send index argCount => exact fun _ _ hrun => .inr (Action.execute_send_late Action.late_ok hrun)
  | sendSuper index argCount =>
    exact fun _ _ hrun => .inr (Action.execute_sendSuper_late Action.late_ok hrun)
  | pop => exact .bind (h.toSafe.pop fun x hx f => .pure (.inl f.safe))
  | duplicate => exact .bind (h.toSafe.stackValue fun x hx => push h.toSafe hx.proper)
  | jump offset => exact advances_jump.mono fun _ _ e => .inl (e.safe h.toSafe)
  | longJump offset =>
    refine .bind (advances_jump.mono fun _ _ e => .ite (fun _ => ?_) fun _ => ?_)
    · exact (e.safe h.toSafe).checkInterrupts.mono fun _ _ f => .inl f.safe
    · exact .pure (.inl (e.safe h.toSafe))
  | jumpIf condition offset => exact h.jumpIf
  | arithmetic index => exact h.arithmetic
  | special index =>
    intro u m' hrun
    rcases Action.special_late Action.late_ok hrun with hsends | ⟨m₁, hquick, hend⟩
    · exact .inr hsends
    · obtain rfl := (EStateM.Result.ok.inj hend).2
      exact .inl (h.quickSpecial true _ hquick)

/-- Fetching an instruction moves the program counter. -/
theorem advances_fetchInstruction : Gives Action.fetchInstruction m fun _ m' => Advances m m' := by
  intro instruction m' hrun
  obtain ⟨pc, rfl⟩ := Action.fetchInstruction_ok hrun
  exact ⟨rfl, rfl, rfl, pc, rfl⟩

/-- A step leaves a safe machine, or it sends something from a machine that may allocate. -/
theorem Sound.step (h : m.Sound s) : Gives Action.step m fun _ m' => m'.Safe s ∨
    ∃ instruction m₁ a, Action.fetchInstruction m = .ok instruction m₁ ∧ instruction.Sends m₁ a ∧
      Action.sendToClass a.selector a.argCount a.lookupClass m₁ = .ok () m' ∧ m₁.Sound s := by
  rw [Action.step_eq]
  refine .bind fun instruction m₁ hfetch _ m' hrun => ?_
  have h₁ := (advances_fetchInstruction _ _ hfetch).sound h
  rcases h₁.execute _ _ hrun with hsafe | ⟨a, sends⟩
  · exact .inl hsafe
  · rw [Action.execute_sends sends] at hrun
    exact .inr ⟨instruction, m₁, a, hfetch, sends, hrun, h₁⟩

/-- The machine ends up closed if its special objects are still what they were. -/
theorem Settled.closed (h : m'.Settled s) (room : m'.memory.Addressable)
    (hsame : m'.specials = s → m'.Coherent) : m'.Closed := by
  have closed : ∀ {s}, m'.Safe s → m'.Coherent → m'.Closed := fun h hc =>
    ⟨fun v o ho => (h.secure room).fields v _ _ (Memory.shape_of_get? ho),
      (h.secure room).held, hc⟩
  rcases h with h | ⟨h, hc⟩
  · exact closed h (hsame h.specials)
  · exact closed h hc

theorem Closed.sound (h : m.Closed) (hw : m.memory.WellFormed)
    (hframe : m.registers.context ≠ m.specials.array) : m.Sound m.specials := by
  refine ⟨⟨rfl, hw.toStocked, fun _ => ⟨hw, fun v c ps hs => ?_, h.held⟩⟩, fun _ => h.coherent, hframe⟩
  obtain ⟨o, ho, rfl, rfl⟩ := Memory.shape_eq_some.1 hs
  exact h.fields v o ho

/-! ### A small machine -/

instance (memory : Memory) (v : Value) : Decidable (memory.Resolves v) :=
  inferInstanceAs (Decidable (_ ∨ _))

/-- A memory in which objects are placed one after the other. -/
def filled (memory : Memory) (objects : List Object) : Memory :=
  objects.foldl (fun memory o => (memory.place o).2) memory

theorem later_filled (memory : Memory) (objects : List Object) :
    memory.Later (filled memory objects) := by
  induction objects generalizing memory with
  | nil => exact .refl memory
  | cons o objects ih => exact (Memory.later_place memory o).trans (ih (memory.place o).2)

theorem wellFormed_filled {memory : Memory} {objects : List Object} (h : memory.WellFormed)
    (room : (filled memory objects).Addressable) : (filled memory objects).WellFormed := by
  induction objects generalizing memory with
  | nil => exact h
  | cons o objects ih => exact ih (h.place ((later_filled _ objects).addressable room)) room

/-- It is enough to look at the objects in the table. -/
theorem closed_of_table (hw : m.memory.Tabled)
    (fields : ∀ v ∈ m.memory.table.toList, ∀ o ∈ (m.memory.get? v).toList,
      ∀ x ∈ o.cls :: o.pointers.toList, m.memory.Resolves x)
    (held : ∀ v ∈ m.held, m.memory.Resolves v) (coherent : m.Coherent) : m.Closed := by
  exact ⟨fun _ _ ho => hw.of_table fields ho, held, coherent⟩

/-- The objects of a small machine: nil, the special objects, a class with two methods, their
selectors, the active method with its context, and a selector without a method. The first method
performs a selector with an argument, the second one reports a message. -/
def benchObjects : List Object :=
  let cls : Value := .ref 2 0
  let header args prim : Value := .small (MethodHeader.encode args args 0 false prim).word
  let pointers format fields := Object.ofPointers cls format (List.toArray fields)
  let nil : Value := .ref 0 0
  [pointers .empty [],
    pointers .indexable [nil, nil, nil, nil, nil, nil, nil, cls, nil, nil, cls, nil, cls, nil, nil, cls,
      nil, nil, nil, nil, .ref 6 0],
    pointers .fixed [nil, .ref 3 0, .small (InstanceSpec.encode 3 1)],
    pointers .fixedIndexable [.small 2, .ref 4 0, .ref 5 0, .ref 6 0],
    pointers .indexable [.ref 7 0, .ref 8 0], pointers .empty [], pointers .empty [],
    .ofMethod cls #[header 2 83] #[], .ofMethod cls #[header 1 0] #[],
    .ofMethod cls #[header 0 0, .ref 5 0] #[240],
    pointers .indexable ([nil, .small 0, .small 0, .ref 9 0, nil, nil, nil, .ref 11 0, .small 0] ++
      List.replicate 14 nil),
    pointers .empty []]

/-- A small machine about to send `perform:with:`, which hands on a message that is not understood. -/
def bench : Machine :=
  let nil : Value := .ref 0 0
  let m := Machine.create (filled (.empty .standard) benchObjects)
    { array := .ref 1 0, nil, falseObject := nil, trueObject := nil } {} default
  m.withRegisters { m.registers with
    context := .ref 10 0
    home := .ref 10 0
    method := .ref 9 0
    sp := 8 }

theorem wellFormed_bench : bench.memory.WellFormed :=
  wellFormed_filled (Memory.wellFormed_empty _) (by decide +kernel)

theorem closed_bench : bench.Closed := by
  refine closed_of_table wellFormed_bench.toTabled ?_ ?_ ⟨?_, ?_, ?_⟩
  all_goals decide +kernel

/-! ### Closed steps -/

/-- A step leaves a closed machine closed, unless the instruction sends something, and that send drops
a selector. -/
theorem step_closed (h : m.Closed) (hw : m.memory.WellFormed)
    (hframe : m.registers.context ≠ m.specials.array) (hstep : Action.step m = .ok () m')
    (room : m'.memory.Addressable)
    (hsame : m'.specials = m.specials → ∀ i < 3,
      m'.memory.cell m.specials.array i = m.memory.cell m.specials.array i) :
    m'.Closed ∨ ∃ instruction m₁ a, Action.fetchInstruction m = .ok instruction m₁ ∧
      instruction.Sends m₁ a ∧ Drops a.selector a.argCount a.lookupClass m₁ := by
  have coherent : m'.specials = m.specials → m'.Coherent := by
    intro e
    have hcell := hsame e
    refine ⟨?_, ?_, ?_⟩
    · rw [e, hcell _ (by decide), h.coherent.nil]
    · rw [e, hcell _ (by decide), h.coherent.falseObject]
    · rw [e, hcell _ (by decide), h.coherent.trueObject]
  rcases (h.sound hw hframe).step () m' hstep with hsafe | ⟨instruction, m₁, a, hfetch, sends, hrun, h₁⟩
  · exact .inl (Settled.closed (.inl hsafe) room coherent)
  · obtain ⟨hselector, hcls⟩ := h₁.sends sends
    rcases h₁.sendWithin hselector hcls () m' hrun with hsettled | hdrops
    · exact .inl (hsettled.closed room coherent)
    · exact .inr ⟨instruction, m₁, a, hfetch, sends, hdrops⟩

/-- The message that is handed on is reported, in a new context. -/
theorem step_closed_bench : bench.Closed ∧ bench.memory.WellFormed ∧
    bench.registers.context ≠ bench.specials.array ∧
    ∃ m', Action.step bench = .ok () m' ∧ m'.memory.Addressable ∧
      (m'.specials = bench.specials → ∀ i < 3,
        m'.memory.cell bench.specials.array i = bench.memory.cell bench.specials.array i) ∧
      (m'.Closed ∨ ∃ instruction m₁ a, Action.fetchInstruction bench = .ok instruction m₁ ∧
        instruction.Sends m₁ a ∧ Drops a.selector a.argCount a.lookupClass m₁) := by
  have hframe : bench.registers.context ≠ bench.specials.array := by decide
  have hleads : Action.leads Action.step bench (fun _ m' => decide (m'.memory.Addressable ∧
      m'.counters.doesNotUnderstand = 1 ∧ ∀ i ∈ List.range 3,
        m'.memory.cell bench.specials.array i = bench.memory.cell bench.specials.array i)) = true := by
    decide +kernel
  obtain ⟨_, m', hstep, htest⟩ := Action.exists_of_leads hleads
  obtain ⟨room, -, hcell⟩ := of_decide_eq_true htest
  have hsame : m'.specials = bench.specials → ∀ i < 3,
      m'.memory.cell bench.specials.array i = bench.memory.cell bench.specials.array i :=
    fun _ i hi => hcell i (List.mem_range.2 hi)
  exact ⟨closed_bench, wellFormed_bench, hframe, m', hstep, room, hsame,
    step_closed closed_bench wellFormed_bench hframe hstep room hsame⟩

end Machine

end Smalltalk
