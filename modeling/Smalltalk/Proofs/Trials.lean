import Smalltalk.Proofs.Declining

/-!
# Primitives that answer

A primitive that is not declined leaves a safe machine, or hands on a send on a machine that may
allocate. Whatever it made room for and then needs again was anchored at that moment. Only the
selector that it hands on is not: it has been taken off the stack.
-/

namespace Smalltalk

open Outcome

/-- A safe machine that still knows its special objects, or has taken them up anew. -/
def Machine.Settled (m : Machine) (s : SpecialObjects) : Prop :=
  m.Safe s ∨ (m.Safe m.specials ∧ m.Coherent)

/-- How a primitive that was not declined leaves the machine. -/
def Machine.Ended (m : Machine) (s : SpecialObjects) : Completion → Prop
  | .done => m.Settled s
  | .resend selector _ cls => m.Sound s ∧ m.Proper selector ∧ m.Anchored cls

namespace Attempt

open Machine Smalltalk.Action

variable {α : Type} {m : Machine} {s : SpecialObjects} {v : Value} {n depth : Nat} {x : Attempt α}
  {Q : α → Machine → Prop}

theorem gives_lift {y : Action α} (h : Gives y m Q) : Gives (liftM y : Attempt α) m Q :=
  fun a m' hrun => h a m' (lift_ok.1 hrun)

theorem gives_looks (hx : Stays Eq x) (hQ : ∀ a, Q a m) : Gives x m Q := by
  intro a m' hrun
  obtain rfl := hx.ok m a m' hrun
  exact hQ a

theorem gives_ofOption {found : Option α} (hQ : ∀ a, found = some a → Q a m) :
    Gives (ofOption found) m Q := by
  cases found with
  | none => exact .throw
  | some a => exact .pure (hQ a rfl)

theorem gives_require {p : Prop} [Decidable p] {Q : Unit → Machine → Prop} (hQ : p → Q () m) :
    Gives (require p) m Q := by
  unfold require
  split
  · exact .pure (hQ ‹p›)
  · exact .throw

theorem gives_stackValue {Q : Value → Machine → Prop} (h : m.Safe s)
    (hQ : ∀ x, m.Anchored x → Q x m) : Gives (stackValue depth) m Q := gives_lift (h.stackValue hQ)

theorem gives_stackObject {Q : Value → Machine → Prop} (h : m.Safe s)
    (hQ : ∀ x, m.Anchored x → Q x m) : Gives (stackObject depth) m Q :=
  .bind (gives_stackValue h fun x hx => .bind (gives_require fun _ => .pure (hQ x hx)))

theorem gives_newPositive32 (h : m.Sound s) :
    Gives (newPositive32 n) m fun v m' => Allots s m v m' :=
  .bind (gives_require fun _ => gives_lift h.positive32)

/-- Answering something proper is safe. -/
theorem gives_answer (h : m.Safe s) (hv : m.Proper v) :
    Gives (answer n v) m fun c m' => m'.Ended s c :=
  .bind (gives_lift ((h.popThenPush hv).mono fun _ _ f => .pure (.inl f.safe)))

theorem gives_answerTruth {b : Bool} (h : m.Safe s) :
    Gives (answerTruth n b) m fun c m' => m'.Ended s c := by
  refine .bind (gives_lift fun x m' hrun => ?_)
  obtain ⟨rfl, rfl⟩ := truth_ok.1 hrun
  refine gives_answer h (h.proper_of_held ?_)
  cases b <;> simp [held, SpecialObjects.truth]

/-- Answering a new object. -/
theorem gives_answerNew {x : Attempt Value} (hx : Gives x m fun v m' => Allots s m v m') :
    Gives (do answer n (← x)) m fun c m' => m'.Ended s c :=
  .bind (hx.mono fun _ _ hv => gives_answer hv.sound.toSafe hv.proper)

/-- Answering a value of the stack. -/
theorem gives_answerStack (h : m.Safe s) :
    Gives (do answer n (← stackValue depth)) m fun c m' => m'.Ended s c :=
  .bind (gives_stackValue h fun _ hx => gives_answer h hx.proper)

/-- Whatever can be undone keeps the machine ready to allocate and what is anchored. -/
theorem gives_undone {y : Action α} (hy : Within Undone y) (h : m.Sound s)
    (hQ : ∀ a m', m'.Sound s → (∀ x, m.Anchored x → m'.Anchored x) → Q a m') :
    Gives y m Q := fun a m' hrun =>
  hQ a m' ((hy m a m' hrun).sound s h) fun _ hx => (hy m a m' hrun).anchored h.stocked hx

theorem gives_onDevices {f : Device.Devices → α × Device.Devices} (h : m.Safe s)
    (hQ : ∀ a m', Follows s m m' → Q a m') : Gives (onDevices f) m Q := by
  intro a m' hrun
  simp only [onDevices, EStateM.Result.ok.injEq] at hrun
  obtain ⟨rfl, rfl⟩ := hrun
  exact hQ _ _ (h.follows_alike ⟨rfl, rfl, rfl, rfl⟩)

/-! ### Elements -/

section
variable {array : Value} {slot : Nat} {entry : AtEntry} {mode : AccessMode}

theorem elementAt_gives (h : m.Sound s) :
    Gives (elementAt array slot entry mode) m fun v m' => m'.Safe s ∧ m'.Proper v := by
  refine .bind (gives_lift (gives_object fun o ho => ?_))
  have pointer : ∀ {i : Nat}, Gives (ofOption o.pointers[i]?) m
      fun v m' => m'.Safe s ∧ m'.Proper v := by
    intro i
    refine gives_ofOption fun x hx => ⟨h.toSafe, ?_⟩
    exact h.proper_of_cell (Memory.cell_eq_some.2 ⟨o, ho, hx⟩)
  refine .ite (fun _ => pointer) fun _ => ?_
  cases o.format
  case words =>
    refine .bind (gives_looks .ofOption fun word => ?_)
    exact (gives_lift h.positive32).mono fun _ _ hv => ⟨hv.sound.toSafe, hv.proper⟩
  case bytes =>
    refine .bind (gives_looks .ofOption fun byte => .ite (fun _ => ?_) fun _ => ?_)
    · exact gives_lift (.bind (gives_special (h.fetch fun _ hx => ⟨h.toSafe, hx⟩)))
    · exact .pure ⟨h.toSafe, proper_small _⟩
  case method =>
    exact .bind (gives_looks .require fun _ => .bind (gives_looks .ofOption fun _ =>
      .pure ⟨h.toSafe, proper_small _⟩))
  all_goals exact pointer

theorem indexedAt_gives {fromBytecode : Bool} (h : m.Sound s) :
    Gives (indexedAt fromBytecode mode) m fun v m' => m'.Safe s ∧ m'.Proper v := by
  refine .bind (gives_looks stackObject_stays fun array => ?_)
  refine .bind (gives_looks stackPositive32_stays fun index => ?_)
  refine .bind (gives_looks (.lift isInstanceOf_within) fun b => .ite (fun _ => ?_) fun _ => ?_)
  · have half : ∀ k, Gives (liftM (positive32 k) : Attempt Value) m
        fun v m' => m'.Safe s ∧ m'.Proper v := fun k =>
      (gives_lift h.positive32).mono fun _ _ hv => ⟨hv.sound.toSafe, hv.proper⟩
    refine .bind (gives_looks floatValue_stays fun bits => ?_)
    split
    · exact half _
    · exact half _
    · exact .throw
  · refine .ite (fun _ => .bind (gives_looks cachedEntry_stays fun entry => ?_)) fun _ =>
      .bind (gives_lift (gives_undone atEntry_within h fun entry m₁ h₁ _ => ?_))
    · exact .bind (gives_looks .require fun _ => elementAt_gives h)
    · exact .bind (gives_looks .require fun _ => elementAt_gives h₁)

theorem putPointer_gives {x : Value} (h : m.Safe s) (hx : m.Proper x) :
    Gives (putPointer v slot x) m fun _ m' => Follows s m m' := by
  refine .bind (gives_looks (.lift object_within) fun _ => .bind (gives_looks .require fun _ => ?_))
  refine gives_lift fun u m' hrun => ?_
  obtain rfl := modifyMemory_ok.1 hrun
  exact h.follows_setCell hx

/-- A change of a raw part. -/
theorem modifyBody_gives {f : Object → Object} (h : m.Safe s)
    (hf : ∀ o, (f o).cls = o.cls ∧ (f o).pointers = o.pointers) :
    Gives (modifyMemory fun memory => memory.modify v f) m fun _ m' => Follows s m m' := by
  intro u m' hrun
  obtain rfl := modifyMemory_ok.1 hrun
  refine h.follows_modified fun o ho x hx => ?_
  rw [(hf o).1, (hf o).2] at hx
  exact h.proper_of_shape (Memory.shape_of_get? ho) hx

theorem putByte_gives {byte : UInt8} (h : m.Safe s) :
    Gives (putByte v slot byte) m fun _ m' => Follows s m m' := by
  refine .bind (gives_looks (.lift object_within) fun _ => .bind (gives_looks .ofOption fun _ => ?_))
  refine .bind (gives_looks .require fun _ => gives_lift (modifyBody_gives h fun o => ?_))
  unfold Object.setByte
  split
  · exact ⟨rfl, rfl⟩
  · exact ⟨rfl, rfl⟩

theorem putWord_gives {word : UInt32} (h : m.Safe s) :
    Gives (putWord v slot word) m fun _ m' => Follows s m m' := by
  refine .bind (gives_looks (.lift object_within) fun _ => .bind (gives_looks .ofOption fun _ => ?_))
  refine .bind (gives_looks .require fun _ => gives_lift (modifyBody_gives h fun o => ?_))
  unfold Object.setWord
  split
  · exact ⟨rfl, rfl⟩
  · exact ⟨rfl, rfl⟩

theorem elementPut_gives {x : Value} (h : m.Safe s) (hx : m.Proper x) :
    Gives (elementPut array slot x entry mode) m fun _ m' => Follows s m m' := by
  refine .bind (gives_looks (.lift object_within) fun o => ?_)
  refine .ite (fun _ => putPointer_gives h hx) fun _ => ?_
  cases o.format
  case words => exact .bind (gives_looks positive32Value_stays fun _ => putWord_gives h)
  case bytes => exact .bind (gives_looks byteToPut_stays fun _ => putByte_gives h)
  case method =>
    exact .bind (gives_looks byteToPut_stays fun _ => .bind (gives_looks .require fun _ =>
      putByte_gives h))
  all_goals exact putPointer_gives h hx

theorem indexedAtPut_gives {fromBytecode : Bool} (h : m.Sound s) :
    Gives (indexedAtPut fromBytecode mode) m fun v m' => m'.Safe s ∧ m'.Proper v := by
  refine .bind (gives_looks stackObject_stays fun array => ?_)
  refine .bind (gives_looks stackPositive32_stays fun index => ?_)
  refine .bind (gives_stackValue h.toSafe fun x hx => ?_)
  -- the element is stored in a machine that has still what was on the stack
  have rest : ∀ {m₁ : Machine} (entry : AtEntry), m₁.Safe s → m₁.Proper x → Gives (do
      require (1 ≤ index ∧ index ≤ entry.size)
      elementPut array (index - 1) x entry mode
      return x) m₁ fun v m' => m'.Safe s ∧ m'.Proper v := by
    intro m₁ entry h₁ hx₁
    refine .bind (gives_looks .require fun _ => .bind ((elementPut_gives h₁ hx₁).mono fun _ _ f => ?_))
    exact .pure ⟨f.safe, f.proper x hx₁⟩
  refine .ite (fun _ => .bind (gives_looks cachedEntry_stays fun entry => ?_)) fun _ =>
    .bind (gives_lift (gives_undone atEntry_within h fun entry m₁ h₁ keep => ?_))
  · exact rest entry h.toSafe hx.proper
  · exact rest entry h₁.toSafe (keep x hx).proper

end

/-! ### Blocks -/

theorem blockCopy_gives (h : m.Sound s) :
    Gives Attempt.blockCopy m fun v m' => m'.Safe s ∧ m'.Proper v := by
  refine .bind (gives_stackObject h.toSafe fun context hcontext => ?_)
  refine .bind (gives_stackValue h.toSafe fun argCount hargCount => ?_)
  refine .bind (gives_looks .require fun _ => .bind (gives_looks (.lift isContext_within) fun _ => ?_))
  refine .bind (gives_looks .require fun _ => .bind (gives_looks (.lift fetch_within) fun _ => ?_))
  have rest : ∀ home, m.Anchored home → Gives (do
      let o ← Action.object home
      let nil ← Action.nil
      let cls ← Action.special Special.classBlockContext
      let block ← Action.allocate (.ofPointers cls o.format (Array.replicate o.pointers.size nil))
      let r ← Action.registers
      let start ← Action.immediate (Context.encodePc (r.pc + 2) r.literalCount)
      Action.assertFrame block
      Action.store block Context.caller nil
      Action.store block Context.instructionPointer start
      Action.store block Context.stackPointer (.small 0)
      Action.store block Context.blockArgCount argCount
      Action.store block Context.initialPointer start
      Action.store block Context.home home
      modify fun m => { m with reclaimable := 0 }
      return block : Attempt Value) m fun v m' => m'.Safe s ∧ m'.Proper v := by
    intro home hhome
    refine .bind (gives_lift (gives_object fun o _ => .bind (gives_lift (gives_nil ?_))))
    refine .bind (gives_lift (gives_special (.bind ?_)))
    refine (gives_lift (h.allocate fun x hx => ?_)).mono fun block m₁ hb => ?_
    · simp only [Object.ofPointers, Array.toList_replicate, List.mem_cons, List.mem_replicate] at hx
      rcases hx with rfl | ⟨-, rfl⟩
      · exact h.anchored_special _
      · exact h.anchored_nil
    · refine .bind (gives_lift (gives_registers (.bind (gives_lift (gives_immediate ?_)))))
      refine .bind (gives_looks (.lift assertFrame_within) fun _ => ?_)
      have hnil := (hb.anchored h.anchored_nil).proper
      refine .bind (gives_lift (hb.sound.toSafe.store hnil fun f₁ => ?_))
      refine .bind (gives_lift (f₁.safe.store (proper_small _) fun f₂ => ?_))
      refine .bind (gives_lift (f₂.safe.store (proper_small _) fun f₃ => ?_))
      have f₃ := (f₁.trans f₂).trans f₃
      have hcount := f₃.proper _ (hb.anchored hargCount).proper
      refine .bind (gives_lift (f₃.safe.store hcount fun f₄ => ?_))
      refine .bind (gives_lift (f₄.safe.store (proper_small _) fun f₅ => ?_))
      have f₅ := f₃.trans (f₄.trans f₅)
      have hhome' := f₅.proper _ (hb.anchored hhome).proper
      refine .bind (gives_lift (f₅.safe.store hhome' fun f₆ => ?_))
      refine .bind (f₆.safe.modify ⟨rfl, rfl, rfl, rfl⟩ fun f₇ => .pure ?_)
      exact ⟨f₇.safe, f₇.proper _ (f₆.proper _ (f₅.proper _ hb.proper))⟩
  refine .ite (fun _ => .bind (gives_lift fun home m₁ hrun => ?_)) fun _ =>
    .bind (.pure (rest context hcontext))
  obtain ⟨hcell, rfl⟩ := fetch_ok.1 hrun
  exact rest home (hcontext.cell h.toSafe hcell)

theorem blockValue_gives (h : m.Safe s) :
    Gives (Attempt.blockValue n) m fun _ m' => m'.Safe s := by
  refine .bind (gives_stackValue h fun block hblock => ?_)
  refine .bind (gives_looks (.lift isInstanceOf_within) fun _ => .bind (gives_looks .require fun _ => ?_))
  refine .bind (gives_looks (.lift fetch_within) fun _ => .bind (gives_looks .ofOption fun _ => ?_))
  refine .bind (gives_looks .require fun _ => .bind (gives_looks (.lift fetch_within) fun _ => ?_))
  refine .bind (gives_looks (.lift nil_within) fun _ => .bind (gives_looks .require fun _ => ?_))
  refine .bind (gives_looks (.lift object_within) fun _ => .bind (gives_looks .require fun _ => ?_))
  refine .bind (gives_lift (h.stackValues fun arguments harguments => ?_))
  refine .bind (gives_lift (h.fetch fun start hstart => .bind (gives_lift (gives_registers ?_))))
  refine .bind ((Gives.forM (P := Follows s m) (fun p hp m₁ f₁ => ?_) (.refl h)).mono
    fun _ m₁ f₁ => ?_)
  · obtain ⟨x, i⟩ := p
    have hx : x ∈ arguments := by
      obtain ⟨-, -, hx⟩ := List.mem_zipIdx hp
      rw [hx]
      exact List.getElem_mem _
    refine gives_lift (f₁.safe.store (f₁.proper x (harguments x hx).proper) fun f₂ => ?_)
    exact f₁.trans f₂
  · refine .bind (gives_lift (f₁.safe.store (f₁.proper _ hstart) fun f₂ => ?_))
    refine .bind (gives_lift (f₂.safe.store (proper_small _) fun f₃ => ?_))
    have f₃ := f₁.trans (f₂.trans f₃)
    have hcaller := f₃.proper _ h.anchored_context.proper
    refine .bind (gives_lift (f₃.safe.store hcaller fun f₄ => ?_))
    refine .bind (gives_lift (f₄.safe.popN fun f₅ => gives_lift ?_))
    have f₅ := f₃.trans (f₄.trans f₅)
    exact (f₅.safe.activate (f₅.proper _ hblock.proper)).mono fun _ _ f₆ => f₆.safe

/-! ### Performing -/

/-- The stack has grown; below its former top, and outside of the active context, nothing changed. -/
structure Raised (s : SpecialObjects) (m m' : Machine) : Prop where
  sound : m'.Sound s
  proper : ∀ x, m.Proper x → m'.Proper x
  context : m'.registers.context = m.registers.context
  sp : m.registers.sp ≤ m'.registers.sp
  cls : ∀ w o, m.memory.get? w = some o → ∃ o', m'.memory.get? w = some o' ∧ o'.cls = o.cls
  cell : ∀ w j, j ≤ m.registers.sp ∨ w ≠ m.registers.context →
    m'.memory.cell w j = m.memory.cell w j

theorem Raised.refl (h : m.Sound s) : Raised s m m :=
  ⟨h, fun _ => id, rfl, Nat.le_refl _, fun _ o ho => ⟨o, ho, rfl⟩, fun _ _ _ => rfl⟩

theorem Raised.pushed {m' : Machine} {x : Value} (h : Raised s m m') (hx : m'.Proper x) :
    Raised s m (Action.pushed m' x) where
  sound := h.sound.pushed hx
  proper y hy := (h.sound.toSafe.follows_pushed hx).proper y (h.proper y hy)
  context := h.context
  sp := Nat.le_succ_of_le h.sp
  cls w o ho := by
    obtain ⟨o', ho', hcls⟩ := h.cls w o ho
    have hget := Memory.get?_setField m'.memory m'.registers.context w (m'.registers.sp + 1) x
    by_cases hw : w = m'.registers.context
    · subst hw
      rw [if_pos rfl, ho'] at hget
      exact ⟨_, hget, hcls⟩
    · rw [if_neg hw] at hget
      exact ⟨o', hget.trans ho', hcls⟩
  cell w j hj := by
    rw [← h.cell w j hj]
    have hset := Memory.cell_setField m'.memory m'.registers.context w (m'.registers.sp + 1) j x
    refine hset.trans (if_neg fun e => ?_)
    rcases hj with hj | hj
    · have := h.sp
      omega
    · exact hj (e.1.trans h.context)

theorem pushAll_gives {xs : List Value} (h : m.Sound s) (hxs : ∀ x ∈ xs, m.Proper x) :
    Gives (xs.forM fun x => liftM (push x) : Attempt PUnit) m fun _ m' => Raised s m m' := by
  refine .forM (fun x hx m₁ h₁ => gives_lift fun u m₂ hrun => ?_) (.refl h)
  obtain ⟨-, rfl⟩ := push_ok.1 hrun
  exact h₁.pushed (h₁.proper x (hxs x hx))

/-- The class of the value that was on top is still anchored. -/
theorem Raised.anchored_class {m' m₁ : Machine} {receiver cls : Value} (h : Raised s m m')
    (hm : m.Sound s) (hreceiver : m.memory.cell m.registers.context m.registers.sp = some receiver)
    (hcls : Action.classOf receiver m = .ok cls m₁) : m'.Anchored cls := by
  have safe := h.sound.toSafe
  have hcell : m'.memory.cell m'.registers.context m.registers.sp = some receiver := by
    rw [h.context, h.cell _ _ (.inl (Nat.le_refl _))]
    exact hreceiver
  obtain ⟨hc, -⟩ := classOf_ok.1 hcls
  rcases hc with ⟨-, rfl⟩ | ⟨o, ho, rfl⟩
  · have hspecial : m.specials.get m.memory Special.classSmallInteger =
        m'.specials.get m'.memory Special.classSmallInteger := by
      have harray := h.cell m.specials.array Special.classSmallInteger (.inr fun e => hm.frame e.symm)
      have hspecials : m'.specials = m.specials := safe.specials.trans hm.specials.symm
      change (m.memory.cell m.specials.array _).getD _ = (m'.memory.cell m'.specials.array _).getD _
      rw [hspecials, harray]
    rw [hspecial]
    exact h.sound.anchored_special _
  · obtain ⟨o', ho', e⟩ := h.cls _ o ho
    rw [← e]
    exact (safe.anchored_context.cell safe hcell).cls safe ho'

/-- So are the superclasses of a class that is anchored. -/
theorem anchored_ancestor {m' m₁ : Machine} {ancestor cls : Value} {hops : Nat}
    (h : m'.Safe s) (same : ∀ w, m'.memory.cell w Class.superclass =
      m.memory.cell w Class.superclass) (hcls : m'.Anchored cls) (hrun : Action.isAncestorWithin ancestor hops cls m = .ok true m₁) : m'.Anchored ancestor := by
  induction hops generalizing cls with
  | zero =>
    unfold Action.isAncestorWithin at hrun
    split at hrun
    · rename_i e
      rw [← e]
      exact hcls
    · obtain ⟨nil, _, hnil, hrun⟩ := bind_ok.1 hrun
      split at hrun
      · exact absurd (pure_ok.1 hrun).1 (by simp)
      · exact (throw_ok.1 hrun).elim
  | succ hops ih =>
    unfold Action.isAncestorWithin at hrun
    split at hrun
    · rename_i e
      rw [← e]
      exact hcls
    · obtain ⟨nil, _, hnil, hrun⟩ := bind_ok.1 hrun
      obtain ⟨-, rfl⟩ := nil_ok.1 hnil
      split at hrun
      · exact absurd (pure_ok.1 hrun).1 (by simp)
      · obtain ⟨next, _, hnext, hrun⟩ := bind_ok.1 hrun
        obtain ⟨hcell, rfl⟩ := fetch_ok.1 hnext
        rw [← same] at hcell
        exact ih (hcls.cell h hcell) hrun

theorem lookup_alike {selector cls : Value} {found : Option CacheEntry} {m' : Machine}
    (hrun : lookup selector cls m = .ok found m') : Alike m m' := by
  simp only [lookup] at hrun
  split at hrun
  · simp only [EStateM.Result.ok.injEq] at hrun
    rw [← hrun.2]
    exact ⟨rfl, rfl, rfl, rfl⟩
  · exact absurd hrun (by simp)

theorem checkArity_gives {selector cls : Value} :
    Gives (checkArity selector cls n) m fun _ m' => Alike m m' := by
  refine .bind (gives_lift fun found m₁ hrun => ?_)
  have alike := lookup_alike hrun
  cases found with
  | none => exact .pure alike
  | some e =>
    refine .bind (.get (.bind (gives_lift fun header m₂ hheader => ?_)))
    obtain ⟨-, rfl⟩ := ofExcept_ok.1 hheader
    exact gives_looks .require fun _ => alike

/-- After performing, the class of the receiver is anchored. -/
theorem anchored_performed {m₁ m' : Machine} {receiver cls : Value} {count : Nat} (h : m.Sound s)
    (alike : Alike m m₁)
    (hreceiver : m.memory.cell m.registers.context (m.registers.sp - count) = some receiver)
    (hcls : Action.classOf receiver m = .ok cls m) (hr : Raised s (Action.popped m₁ count) m') :
    m'.Anchored cls := by
  have hclass : Action.classOf receiver (Action.popped m₁ count) =
      .ok cls (Action.popped m₁ count) := by
    refine classOf_ok.2 ⟨?_, rfl⟩
    change (_ ∧ m₁.specials.get m₁.memory _ = cls) ∨ ∃ o, m₁.memory.get? receiver = some o ∧ _
    rw [alike.memory, alike.specials]
    exact (classOf_ok.1 hcls).1
  refine hr.anchored_class ((h.alike alike).popped count) ?_ hclass
  change m₁.memory.cell m₁.registers.context (m₁.registers.sp - count) = some receiver
  rw [alike.memory, alike.registers]
  exact hreceiver

/-- The last steps of performing: the operands go off the stack and the arguments are pushed. -/
theorem perform_gives {selector cls : Value} {arguments : List Value} {count : Nat} (h : m.Sound s)
    (hselector : m.Proper selector) (harguments : ∀ x ∈ arguments, m.Proper x)
    (hcls : ∀ {m'}, Raised s (Action.popped m count) m' → m'.Anchored cls) :
    Gives (do
      Action.popN count
      arguments.forM fun x => Action.push x
      return .resend selector n cls : Attempt Completion) m fun c m' => m'.Ended s c := by
  refine .bind (gives_lift (h.toSafe.popN fun f => ?_))
  refine .bind ((pushAll_gives (h.popped count) fun x hx => f.proper x (harguments x hx)).mono
    fun _ m' hr => .pure ?_)
  exact ⟨hr.sound, hr.proper _ (f.proper _ hselector), hcls hr⟩

theorem performWithArray_gives {cls : Value} {extra : Nat} (h : m.Sound s)
    (hcls : ∀ {m₁ m'}, Alike m m₁ → Raised s (Action.popped m₁ (extra + 2)) m' → m'.Anchored cls) :
    Gives (performWithArray cls extra) m fun c m' => m'.Ended s c := by
  refine .bind (gives_stackObject h.toSafe fun selector hselector => ?_)
  refine .bind (gives_stackObject h.toSafe fun array harray => ?_)
  refine .bind (gives_lift (gives_object fun o ho => .bind (gives_looks .require fun _ => ?_)))
  refine .bind (gives_looks (.lift registers_within) fun r => ?_)
  refine .bind (gives_looks (.lift object_within) fun _ => .bind (gives_looks .require fun _ => ?_))
  refine .bind (checkArity_gives.mono fun _ m₁ alike => ?_)
  have keep := (h.toSafe.follows_alike alike).proper
  refine perform_gives (h.alike alike) (keep _ hselector.proper) (fun x hx => ?_) (hcls alike)
  exact keep x (harray.pointer h.toSafe ho (Array.mem_toList_iff.1 hx)).proper

end Attempt

namespace Primitive

open Attempt Machine Smalltalk.Action

variable {m : Machine} {s : SpecialObjects} {n : Nat}

/-! ### Numbers -/

theorem integerOp_ends {op : Int → Int → Option Int} (h : m.Sound s) :
    Gives (integerOp op n) m fun c m' => m'.Ended s c := by
  refine .bind (gives_looks stackInteger_stays fun a => ?_)
  refine .bind (gives_looks stackInteger_stays fun b => .bind (gives_ofOption fun v hv => ?_))
  obtain ⟨k, -, hk⟩ := Option.bind_eq_some_iff.1 hv
  rw [eq_small_of_ofInt? hk]
  exact gives_answer h.toSafe (proper_small k)

theorem integerComparison_ends {op : Int → Int → Bool} (h : m.Sound s) :
    Gives (integerComparison op n) m fun c m' => m'.Ended s c :=
  .bind (gives_looks stackInteger_stays fun _ => .bind (gives_looks stackInteger_stays fun _ =>
    gives_answerTruth h.toSafe))

theorem bitOp_ends {op : Nat → Nat → Nat} (h : m.Sound s) :
    Gives (bitOp op n) m fun c m' => m'.Ended s c :=
  .bind (gives_looks stackPositive32_stays fun _ => .bind (gives_looks stackPositive32_stays fun _ =>
    gives_answerNew (gives_newPositive32 h)))

theorem bitShift_ends (h : m.Sound s) : Gives (bitShift n) m fun c m' => m'.Ended s c :=
  .bind (gives_looks stackPositive32_stays fun _ => .bind (gives_looks stackInteger_stays fun _ =>
    .bind (gives_looks .ofOption fun _ => gives_answerNew (gives_newPositive32 h))))

theorem point_ends (h : m.Sound s) : Gives (point n) m fun c m' => m'.Ended s c :=
  .bind (gives_stackValue h.toSafe fun _ hx => .bind (gives_stackValue h.toSafe fun _ hy =>
    .bind ((gives_lift (h.makePoint hx.proper hy.proper)).mono fun _ _ hv =>
      gives_answer hv.1 hv.2)))

theorem floatOp_ends {op : UInt64 → UInt64 → Option UInt64} (h : m.Sound s) :
    Gives (floatOp op n) m fun c m' => m'.Ended s c :=
  .bind (gives_looks stackFloat_stays fun _ => .bind (gives_looks stackFloat_stays fun _ =>
    .bind (gives_looks .ofOption fun _ => gives_answerNew (gives_lift h.makeFloat))))

theorem floatComparison_ends {op : UInt64 → UInt64 → Bool} (h : m.Sound s) :
    Gives (floatComparison op n) m fun c m' => m'.Ended s c :=
  .bind (gives_looks stackFloat_stays fun _ => .bind (gives_looks stackFloat_stays fun _ =>
    gives_answerTruth h.toSafe))

theorem asFloat_ends (h : m.Sound s) : Gives (asFloat n) m fun c m' => m'.Ended s c :=
  .bind (gives_looks stackInteger_stays fun _ => gives_answerNew (gives_lift h.makeFloat))

theorem truncated_ends (h : m.Sound s) : Gives (truncated n) m fun c m' => m'.Ended s c :=
  .bind (gives_looks stackFloat_stays fun _ => .bind (gives_looks .require fun _ =>
    gives_answer h.toSafe (proper_small _)))

theorem logarithm_ends (h : m.Sound s) : Gives (logarithm n) m fun c m' => m'.Ended s c :=
  .bind (gives_looks stackFloat_stays fun _ => gives_answerNew (gives_lift h.makeFloat))

/-! ### Objects -/

theorem newInstanceOf_allots {cls : Value} {count : Nat} (h : m.Sound s) (hcls : m.Anchored cls) :
    Gives (newInstanceOf cls count) m fun v m' => Allots s m v m' :=
  .bind (gives_looks instanceSpec_stays fun _ => .bind (gives_looks .require fun _ =>
    gives_lift (h.instantiate hcls)))

theorem basicNew_ends (h : m.Sound s) : Gives (basicNew n) m fun c m' => m'.Ended s c :=
  .bind (gives_stackObject h.toSafe fun _ hcls => gives_answerNew (newInstanceOf_allots h hcls))

theorem basicNewSized_ends (h : m.Sound s) : Gives (basicNewSized n) m fun c m' => m'.Ended s c :=
  .bind (gives_stackObject h.toSafe fun _ hcls => .bind (gives_looks stackPositive32_stays fun _ =>
    .bind (gives_looks .require fun _ => gives_answerNew (newInstanceOf_allots h hcls))))

/-- After a renaming the machine knows its special objects again; the answer stands on the stack
already. -/
theorem arrayBecome_ends {twoWay : Bool} (h : m.Sound s) :
    Gives (arrayBecome twoWay n) m fun c m' => m'.Ended s c := by
  refine .bind (gives_stackObject h.toSafe fun receiver hreceiver => ?_)
  refine .bind (gives_stackObject h.toSafe fun argument hargument => ?_)
  refine .bind (gives_lift (gives_object fun source hsource => ?_))
  refine .bind (gives_lift (gives_object fun target htarget => ?_))
  refine .bind (gives_lift fun b m₁ hrun => .bind (gives_require fun hb => ?_))
  rcases become_ok hrun with ⟨rfl, -⟩ | ⟨-, names, hnames, hrenamed⟩
  · exact absurd hb (by simp)
  · have proper : ∀ p ∈ names, m.Proper p.2 := by
      intro p hp
      rcases List.mem_append.1 (mem_of_ofLists hnames p hp) with hp | hp
      · exact h.proper_of_shape (Memory.shape_of_get? hsource) (List.mem_cons_of_mem _ hp)
      · exact h.proper_of_shape (Memory.shape_of_get? htarget) (List.mem_cons_of_mem _ hp)
    obtain ⟨safe, coherent⟩ := hrenamed.safe h.toSafe proper
    intro c m' hrun
    obtain ⟨x, _, hx, hrun⟩ := bind_ok.1 hrun
    obtain ⟨-, hcell, rfl⟩ := stackValue_ok.1 (lift_ok.1 hx)
    obtain ⟨_, _, hpush, hrun⟩ := bind_ok.1 hrun
    obtain ⟨hsp, -, rfl⟩ := popThenPush_ok.1 (lift_ok.1 hpush)
    obtain ⟨rfl, rfl⟩ := pure_ok.1 hrun
    have follows := (safe.follows_popped 2).safe.follows_pushed
      ((safe.follows_popped 2).proper x (safe.proper_of_cell hcell))
    exact .inr ⟨follows.safe, coherent.of_cell rfl (cell_putBack hcell hsp _)⟩

theorem identityHash_ends (h : m.Sound s) : Gives (identityHash n) m fun c m' => m'.Ended s c :=
  .bind (gives_looks stackObject_stays fun _ => .bind (gives_looks (.lift object_within) fun _ =>
    gives_answer h.toSafe (proper_small _)))

theorem identical_ends (h : m.Sound s) : Gives (identical n) m fun c m' => m'.Ended s c :=
  .bind (gives_looks stackValue_stays fun _ => .bind (gives_looks stackValue_stays fun _ =>
    gives_answerTruth h.toSafe))

theorem classOf_ends (h : m.Sound s) : Gives (classOf n) m fun c m' => m'.Ended s c :=
  .bind (gives_lift (h.stackValue fun _ hv => .bind (gives_lift (h.classOf hv fun _ hc =>
    gives_answer h.toSafe hc.proper))))

theorem specialObjectsArray_ends (h : m.Sound s) :
    Gives (specialObjectsArray n) m fun c m' => m'.Ended s c :=
  .bind (.get (gives_answer h.toSafe h.anchored_array.proper))

theorem clone_ends (h : m.Sound s) : Gives (clone n) m fun c m' => m'.Ended s c :=
  .bind (gives_stackObject h.toSafe fun _ hv => .bind (gives_lift (gives_object fun _ ho =>
    gives_answerNew (gives_lift (h.allocate fun _ hx =>
      hv.shape h.toSafe (Memory.shape_of_get? ho) hx)))))

theorem newMethod_ends (h : m.Sound s) : Gives (newMethod n) m fun c m' => m'.Ended s c := by
  refine .bind (gives_stackObject h.toSafe fun cls hcls => ?_)
  refine .bind (gives_looks stackPositive32_stays fun count => ?_)
  refine .bind (gives_looks stackInteger_stays fun header => ?_)
  refine .bind (gives_looks instanceSpec_stays fun spec => .bind (gives_looks .require fun _ => ?_))
  refine .bind (gives_lift (gives_nil (gives_answerNew (gives_lift (h.allocate fun x hx => ?_)))))
  simp only [Object.ofMethod, Array.toList_append, List.cons_append, List.nil_append,
    Array.toList_replicate, List.mem_cons, List.mem_replicate] at hx
  rcases hx with rfl | rfl | ⟨-, rfl⟩
  · exact hcls
  · exact anchored_small header
  · exact h.anchored_nil

/-- The answer of a query that finds objects and moves the position hint only. -/
def Found (memory : Memory) (answer : Option Value × Memory) : Prop :=
  (∃ hint, answer.2 = { memory with hint }) ∧ ∀ v, answer.1 = some v → memory.isLive v = true

theorem findFrom_live {memory : Memory} {cls : Option Value} {start count i : Nat} {v : Value}
    (h : memory.findFrom cls start count = some (i, v)) : memory.isLive v = true := by
  induction count generalizing start with
  | zero => exact absurd h (by simp [Memory.findFrom])
  | succ count ih =>
    simp only [Memory.findFrom] at h
    split at h
    · exact absurd h (by simp)
    · split at h
      · rename_i w _ hwanted
        simp only [Option.some.injEq, Prod.mk.injEq] at h
        obtain ⟨-, rfl⟩ := h
        cases ho : memory.get? w with
        | none => simp [Memory.isWanted, ho] at hwanted
        | some o => exact Memory.isLive_of_get? ho
      · exact ih h

theorem enumerate_found (memory : Memory) (start : Nat) (cls : Option Value) :
    Found memory (memory.enumerate start cls) := by
  simp only [Memory.enumerate]
  split
  · rename_i i v hfound
    refine ⟨⟨i, rfl⟩, fun w hw => ?_⟩
    obtain rfl := Option.some.inj hw
    exact findFrom_live hfound
  · exact ⟨⟨memory.hint, rfl⟩, fun w hw => absurd hw (by simp)⟩

theorem indexOf_hint (memory : Memory) (v : Value) :
    ∃ hint, (memory.indexOf v).2 = { memory with hint } := by
  simp only [Memory.indexOf]
  split
  · exact ⟨memory.hint, rfl⟩
  · split
    · exact ⟨_, rfl⟩
    · exact ⟨memory.hint, rfl⟩

/-- Looking for what follows a value: its position is looked up first. -/
theorem follow_found (memory : Memory) (after : Value) (cls : Option Value) :
    Found memory (match memory.indexOf after with
      | (some i, memory) => memory.enumerate (i + 1) cls
      | (none, memory) => (none, memory)) := by
  obtain ⟨hint, hmemory⟩ := indexOf_hint memory after
  rcases hindex : memory.indexOf after with ⟨found, memory'⟩
  rw [hindex] at hmemory
  cases found with
  | none => exact ⟨⟨hint, hmemory⟩, fun w hw => absurd hw (by simp)⟩
  | some i =>
    obtain ⟨⟨hint', h⟩, hlive⟩ := enumerate_found memory' (i + 1) cls
    have hmemory : memory' = { memory with hint } := hmemory
    subst hmemory
    exact ⟨⟨hint', h⟩, hlive⟩

theorem nextInstance_found (memory : Memory) (after : Value) :
    Found memory (memory.nextInstance after) := by
  cases ho : memory.get? after with
  | none =>
    simp only [Memory.nextInstance, ho]
    exact ⟨⟨memory.hint, rfl⟩, fun w hw => absurd hw (by simp)⟩
  | some o =>
    simp only [Memory.nextInstance, ho]
    exact follow_found memory after (some o.cls)

theorem query_gives {f : Memory → Option Value × Memory} {Q : Option Value → Machine → Prop}
    (h : m.Safe s) (hf : Found m.memory (f m.memory))
    (hQ : ∀ found m', m'.Safe s → (∀ v, found = some v → m'.Proper v) → Q found m') :
    Gives (query f) m Q := by
  intro found m' hrun
  obtain ⟨⟨hint, hmemory⟩, hlive⟩ := hf
  simp only [query, EStateM.Result.ok.injEq] at hrun
  obtain ⟨rfl, rfl⟩ := hrun
  refine hQ _ _ ?_ fun v hv room => .inr ?_
  · rw [hmemory]
    refine h.update rfl (.of_slots rfl) (h.stocked.of_slots rfl rfl)
      (fun hw => ⟨⟨hw.listed, hw.once⟩, ⟨hw.vacant, hw.distinct⟩⟩) (fun _ => id)
      (fun v c ps hs x hx => h.proper_of_shape hs hx) fun v hv => h.proper_of_held hv
  · rw [hmemory]
    exact hlive v hv

/-- A query whose answer is what was found, or else nil. -/
theorem foundOrNil_ends (f : Memory → Option Value × Memory) (h : m.Sound s)
    (hf : Found m.memory (f m.memory)) : Gives (do
      let found ← (query f : Attempt (Option Value))
      answer n (found.getD (← Action.nil))) m fun c m' => m'.Ended s c := by
  refine .bind (gives_lift (query_gives h.toSafe hf fun found m₁ h₁ hfound => ?_))
  refine .bind (gives_lift (h₁.nil fun nil hnil => ?_))
  cases found with
  | none => exact gives_answer h₁ hnil
  | some w => exact gives_answer h₁ (hfound w rfl)

theorem someInstance_ends (h : m.Sound s) : Gives (someInstance n) m fun c m' => m'.Ended s c :=
  .bind (gives_looks stackObject_stays fun cls =>
    foundOrNil_ends (fun memory => memory.firstInstance cls) h (enumerate_found ..))

theorem nextInstance_ends (h : m.Sound s) : Gives (nextInstance n) m fun c m' => m'.Ended s c :=
  .bind (gives_looks stackObject_stays fun after =>
    foundOrNil_ends (fun memory => memory.nextInstance after) h (nextInstance_found ..))

theorem someObject_ends (h : m.Sound s) : Gives (someObject n) m fun c m' => m'.Ended s c :=
  foundOrNil_ends Memory.firstObject h (enumerate_found ..)

theorem nextObject_ends (h : m.Sound s) : Gives (nextObject n) m fun c m' => m'.Ended s c := by
  refine .bind (gives_looks stackObject_stays fun after => ?_)
  refine .bind (gives_lift (query_gives h.toSafe (follow_found _ after none)
    fun found m₁ h₁ hfound => ?_))
  cases found with
  | none => exact gives_answer h₁ (proper_small 0)
  | some w => exact gives_answer h₁ (hfound w rfl)

/-! ### Elements -/

theorem readElement_ends {mode : AccessMode} (h : m.Sound s) :
    Gives (readElement mode n) m fun c m' => m'.Ended s c :=
  .bind ((indexedAt_gives h).mono fun _ _ hv => gives_answer hv.1 hv.2)

theorem writeElement_ends {mode : AccessMode} (h : m.Sound s) :
    Gives (writeElement mode n) m fun c m' => m'.Ended s c :=
  .bind ((indexedAtPut_gives h).mono fun _ _ hv => gives_answer hv.1 hv.2)

theorem size_ends (h : m.Sound s) : Gives (size n) m fun c m' => m'.Ended s c :=
  .bind (gives_looks (.lift stackValue_within) fun _ =>
    .bind (gives_looks (.lift indexableSize_within) fun _ => .bind (gives_looks .ofOption fun _ =>
      gives_answerNew (gives_newPositive32 h))))

theorem mem_of_extract {α : Type} {xs : Array α} {start stop : Nat} {x : α}
    (hx : x ∈ xs.extract start stop) : x ∈ xs := by
  obtain ⟨i, hi, rfl⟩ := Array.mem_extract_iff_getElem.1 hx
  exact Array.getElem_mem ..

theorem mem_of_slice? {α : Type} {xs part : Array α} {start count : Nat} {x : α}
    (h : slice? xs start count = some part) (hx : x ∈ part) : x ∈ xs := by
  simp only [slice?, Option.ite_none_right_eq_some, Option.some.injEq] at h
  obtain ⟨-, rfl⟩ := h
  exact mem_of_extract hx

theorem mem_of_overwrite? {α : Type} {xs part ys : Array α} {start : Nat} {x : α}
    (h : overwrite? xs start part = some ys) (hx : x ∈ ys) : x ∈ xs ∨ x ∈ part := by
  simp only [overwrite?, Option.ite_none_right_eq_some, Option.some.injEq] at h
  obtain ⟨-, rfl⟩ := h
  rcases Array.mem_append.1 hx with hx | hx
  · rcases Array.mem_append.1 hx with hx | hx
    · exact .inl (mem_of_extract hx)
    · exact .inr hx
  · exact .inl (mem_of_extract hx)

theorem replaceElements_ends (h : m.Sound s) :
    Gives (replaceElements n) m fun c m' => m'.Ended s c := by
  refine .bind (gives_stackObject h.toSafe fun dest hdest => ?_)
  refine .bind (gives_looks stackInteger_stays fun start => ?_)
  refine .bind (gives_looks stackInteger_stays fun stop => ?_)
  refine .bind (gives_stackObject h.toSafe fun source hsource => ?_)
  refine .bind (gives_looks stackInteger_stays fun sourceStart => ?_)
  refine .bind (gives_looks natural_stays fun count => ?_)
  refine .bind (gives_looks natural_stays fun destPos => ?_)
  refine .bind (gives_looks natural_stays fun sourcePos => ?_)
  refine .bind (gives_lift (gives_object fun destObject hd => ?_))
  refine .bind (gives_lift (gives_object fun sourceObject hs => ?_))
  have raw : ∀ body : Body, Gives (do
      Action.modifyMemory fun memory => memory.modify dest fun o => { o with body }
      answer 4 dest : Attempt Completion) m fun c m' => m'.Ended s c := by
    intro body
    refine .bind ((gives_lift (modifyBody_gives h.toSafe fun o => ?_)).mono fun _ _ f => ?_)
    · exact ⟨rfl, rfl⟩
    · exact gives_answer f.safe (f.proper dest hdest.proper)
  refine .ite (fun _ => ?_) fun _ => .ite (fun _ => ?_) fun _ => .ite (fun _ => ?_) fun _ =>
    .bind .throw
  · refine .bind (gives_looks (.lift fixedFields_within) fun _ => ?_)
    refine .bind (gives_looks (.lift fixedFields_within) fun _ => ?_)
    refine .bind (gives_ofOption fun part hpart => .bind (gives_ofOption fun pointers hps => ?_))
    refine .bind (gives_lift fun u m' hrun => ?_)
    obtain rfl := modifyMemory_ok.1 hrun
    have f : Follows s m (m.modified dest fun o => { o with pointers }) := by
      refine h.toSafe.follows_modified fun o ho x hx => ?_
      rcases List.mem_cons.1 hx with rfl | hx
      · exact h.proper_of_shape (Memory.shape_of_get? ho) List.mem_cons_self
      · rcases mem_of_overwrite? hps (Array.mem_toList_iff.1 hx) with hx | hx
        · exact (hdest.pointer h.toSafe hd hx).proper
        · exact (hsource.pointer h.toSafe hs (mem_of_slice? hpart hx)).proper
    exact gives_answer f.safe (f.proper dest hdest.proper)
  · exact .bind (gives_looks .ofOption fun _ => .bind (gives_looks .ofOption fun _ => raw _))
  · exact .bind (gives_looks .ofOption fun _ => .bind (gives_looks .ofOption fun _ => raw _))

/-! ### Control -/

theorem blockCopy_ends (h : m.Sound s) : Gives (blockCopy n) m fun c m' => m'.Ended s c :=
  .bind ((blockCopy_gives h).mono fun _ _ hv => gives_answer hv.1 hv.2)

theorem blockValue_ends (h : m.Sound s) : Gives (blockValue n) m fun c m' => m'.Ended s c :=
  .bind ((blockValue_gives h.toSafe).mono fun _ _ hm => .pure (.inl hm))

theorem perform_ends (h : m.Sound s) : Gives (perform n) m fun c m' => m'.Ended s c := by
  cases n with
  | zero => exact .throw
  | succ count =>
    refine .bind (gives_stackObject h.toSafe fun selector hselector => ?_)
    refine .bind (gives_lift fun receiver m₁ hreceiver => ?_)
    obtain ⟨-, hcell, rfl⟩ := stackValue_ok.1 hreceiver
    refine .bind (gives_lift fun cls m₁ hcls => ?_)
    obtain ⟨-, rfl⟩ := classOf_ok.1 hcls
    refine .bind (checkArity_gives.mono fun _ m₁ alike => ?_)
    have h₁ := h.alike alike
    refine .bind (gives_lift (h₁.stackValues fun arguments harguments => ?_))
    refine perform_gives h₁ ((h.toSafe.follows_alike alike).proper _ hselector.proper)
      (fun x hx => (harguments x hx).proper) fun hr => ?_
    exact anchored_performed h alike hcell hcls hr

theorem performWithArguments_ends (h : m.Sound s) :
    Gives (performWithArguments n) m fun c m' => m'.Ended s c := by
  refine .bind (gives_lift fun receiver m₁ hreceiver => ?_)
  obtain ⟨-, hcell, rfl⟩ := stackValue_ok.1 hreceiver
  refine .bind (gives_lift fun cls m₁ hcls => ?_)
  obtain ⟨-, rfl⟩ := classOf_ok.1 hcls
  exact performWithArray_gives h fun alike hr => anchored_performed h alike hcell hcls hr

theorem performInSuperclass_ends (h : m.Sound s) :
    Gives (performInSuperclass n) m fun c m' => m'.Ended s c := by
  refine .bind (gives_looks stackObject_stays fun lookupClass => ?_)
  refine .bind (gives_lift fun receiver m₁ hreceiver => ?_)
  obtain ⟨-, hcell, rfl⟩ := stackValue_ok.1 hreceiver
  refine .bind (gives_lift fun cls m₁ hcls => ?_)
  obtain ⟨-, rfl⟩ := classOf_ok.1 hcls
  refine .bind (gives_lift fun b m₁ hancestor => ?_)
  obtain rfl := isAncestor_within (R := Eq) m b m₁ hancestor
  refine .bind (gives_require fun hb => performWithArray_gives h fun {m₁ m'} alike hr => ?_)
  -- the chain of superclasses was followed before the operands were taken off the stack
  subst hb
  have hclass := anchored_performed h alike hcell hcls hr
  obtain ⟨_, _, hget, hrun⟩ := bind_ok.1 hancestor
  obtain ⟨rfl, rfl⟩ := get_ok.1 hget
  refine anchored_ancestor hr.sound.toSafe (fun w => ?_) hclass hrun
  rw [hr.cell w Class.superclass (.inl (Nat.zero_le _))]
  exact congrArg (fun memory => memory.cell w Class.superclass) alike.memory

theorem flushCache_ends (h : m.Sound s) : Gives (flushCache n) m fun c m' => m'.Ended s c :=
  .bind (h.toSafe.modify ⟨rfl, rfl, rfl, rfl⟩ fun f => .pure (.inl f.safe))

theorem flushMethod_ends (h : m.Sound s) : Gives (flushMethod n) m fun c m' => m'.Ended s c :=
  .bind (gives_looks (.lift stackValue_within) fun _ =>
    .bind (h.toSafe.modify ⟨rfl, rfl, rfl, rfl⟩ fun f => .pure (.inl f.safe)))

theorem flushSelector_ends (h : m.Sound s) : Gives (flushSelector n) m fun c m' => m'.Ended s c :=
  .bind (gives_looks (.lift stackValue_within) fun _ =>
    .bind (h.toSafe.modify ⟨rfl, rfl, rfl, rfl⟩ fun f => .pure (.inl f.safe)))

/-! ### Processes -/

theorem receiverOf_gives {special : Nat} {Q : Value → Machine → Prop} (h : m.Safe s)
    (hQ : ∀ x, m.Proper x → Q x m) : Gives (receiverOf special) m Q :=
  .bind (gives_lift (h.stackValue fun _ hx => .bind (gives_looks (.lift isInstanceOf_within) fun _ =>
    .bind (gives_looks .require fun _ => .pure (hQ _ hx.proper)))))

/-- An action that keeps the machine safe, and nothing after it. -/
theorem done_ends {y : Action Unit} (h : Gives y m fun _ m' => Follows s m m') :
    Gives (do y; return .done : Attempt Completion) m fun c m' => m'.Ended s c :=
  .bind (gives_lift (h.mono fun _ _ f => .pure (.inl f.safe)))

theorem signal_ends (h : m.Sound s) : Gives (signal n) m fun c m' => m'.Ended s c :=
  .bind (receiverOf_gives h.toSafe fun _ _ => done_ends h.signal)

theorem wait_ends (h : m.Sound s) : Gives (wait n) m fun c m' => m'.Ended s c :=
  .bind (receiverOf_gives h.toSafe fun _ hx => done_ends (h.wait hx))

theorem resume_ends (h : m.Sound s) : Gives (resume n) m fun c m' => m'.Ended s c :=
  .bind (receiverOf_gives h.toSafe fun _ hx => .bind (gives_looks (.lift activeProcess_within) fun _ =>
    .bind (gives_looks .require fun _ => done_ends (h.resume hx))))

theorem suspend_ends (h : m.Sound s) : Gives (suspend n) m fun c m' => m'.Ended s c := by
  refine .bind (gives_looks (.lift stackValue_within) fun _ => ?_)
  refine .bind (gives_looks (.lift activeProcess_within) fun _ => .bind (gives_looks .require fun _ => ?_))
  refine .bind (gives_lift (h.toSafe.nil fun nil hnil => ?_))
  refine .bind ((gives_lift (h.toSafe.popThenPush hnil)).mono fun _ _ f => ?_)
  exact done_ends (f.safe.suspendActive)

theorem registerSemaphore_gives {index : Nat} {v : Value} (h : m.Safe s) (hv : m.Proper v) :
    Gives (registerSemaphore index v) m fun _ m' => Follows s m m' := by
  refine .bind (gives_looks (.lift isInstanceOf_within) fun b => ?_)
  refine .bind (gives_lift (h.nil fun nil hnil => .bind (.get (gives_lift (h.store ?_ id)))))
  split
  · exact hv
  · exact hnil

theorem lowSpaceSemaphore_ends (h : m.Sound s) :
    Gives (lowSpaceSemaphore n) m fun c m' => m'.Ended s c :=
  .bind (gives_stackValue h.toSafe fun _ hv =>
    .bind ((registerSemaphore_gives h.toSafe hv.proper).mono fun _ _ f => gives_answerStack f.safe))

theorem interruptSemaphore_ends (h : m.Sound s) :
    Gives (interruptSemaphore n) m fun c m' => m'.Ended s c :=
  .bind (gives_stackValue h.toSafe fun _ hv =>
    .bind ((registerSemaphore_gives h.toSafe hv.proper).mono fun _ _ f => gives_answerStack f.safe))

theorem lowSpaceThreshold_ends (h : m.Sound s) :
    Gives (lowSpaceThreshold n) m fun c m' => m'.Ended s c :=
  .bind (gives_looks stackInteger_stays fun _ =>
    .bind (h.toSafe.modify ⟨rfl, rfl, rfl, rfl⟩ fun f => gives_answerStack f.safe))

theorem signalAtMilliseconds_ends (h : m.Sound s) :
    Gives (signalAtMilliseconds n) m fun c m' => m'.Ended s c := by
  refine .bind (gives_stackValue h.toSafe fun semaphore hsemaphore => ?_)
  refine .bind (gives_looks stackInteger_stays fun tick => ?_)
  refine .bind ((registerSemaphore_gives h.toSafe hsemaphore.proper).mono fun _ m₁ f₁ => ?_)
  refine .bind (gives_looks (.lift isInstanceOf_within) fun _ => ?_)
  exact .bind (f₁.safe.modify ⟨rfl, rfl, rfl, rfl⟩ fun f => gives_answerStack f.safe)

/-! ### The system -/

theorem bytesLeft_ends (h : m.Sound s) : Gives (bytesLeft n) m fun c m' => m'.Ended s c :=
  .bind (.bind (.get (.bind (gives_lift (gives_ofExcept fun _ _ =>
    .pure (gives_answer h.toSafe (proper_small _)))))))

theorem quit_ends (h : m.Sound s) : Gives (quit n) m fun c m' => m'.Ended s c :=
  .bind (h.toSafe.modify ⟨rfl, rfl, rfl, rfl⟩ fun f => .pure (.inl f.safe))

theorem makeString_ends {text : String} (h : m.Sound s) :
    Gives (do answer n (← (Action.makeString text : Attempt Value))) m fun c m' => m'.Ended s c :=
  gives_answerNew (gives_lift h.makeString)

theorem imageName_ends (h : m.Sound s) : Gives (imageName n) m fun c m' => m'.Ended s c :=
  .bind (gives_looks .require fun _ => .bind (.get (.bind (gives_looks .ofOption fun _ =>
    .bind (.bind (.get (.pure (makeString_ends h))))))))

theorem vmPath_ends (h : m.Sound s) : Gives (vmPath n) m fun c m' => m'.Ended s c :=
  .bind (.bind (.get (.pure (makeString_ends h))))

theorem reclaim_gives {scope : Scope} (h : m.Sound s) :
    Gives (Action.reclaim scope) m fun _ m' => m'.Sound s :=
  fun _ _ hrun => (reclaim_trims hrun).sound h

theorem reclaimYoungTimes_gives {count : Nat} (h : m.Sound s) :
    Gives (reclaimYoungTimes count) m fun _ m' => m'.Sound s := by
  induction count generalizing m with
  | zero => exact .pure h
  | succ count ih => exact .bind ((reclaim_gives h).mono fun _ _ h₁ => ih h₁)

theorem fullCollection_ends (h : m.Sound s) : Gives (fullCollection n) m fun c m' => m'.Ended s c := by
  have cleared : Trims m { m with pool := m.pool.clear } :=
    .of_slots rfl (.inr rfl) rfl rfl rfl rfl
  refine .bind (.modify (.bind ?_))
  refine (gives_lift (reclaimYoungTimes_gives (cleared.sound h))).mono fun _ m₁ h₁ => ?_
  exact .bind ((gives_lift (reclaim_gives h₁)).mono fun _ _ h₂ => bytesLeft_ends (n := n) h₂)

theorem incrementalCollection_ends (h : m.Sound s) :
    Gives (incrementalCollection n) m fun c m' => m'.Ended s c :=
  .bind ((gives_lift (reclaim_gives h)).mono fun _ _ h₁ => bytesLeft_ends (n := n) h₁)

theorem millisecondClock_ends (h : m.Sound s) :
    Gives (millisecondClock n) m fun c m' => m'.Ended s c :=
  .bind (.get (gives_answer h.toSafe (proper_small _)))

theorem secondsClock_ends (h : m.Sound s) : Gives (secondsClock n) m fun c m' => m'.Ended s c :=
  .bind (.get (gives_answerNew (gives_newPositive32 h)))

theorem systemAttribute_ends (h : m.Sound s) :
    Gives (systemAttribute n) m fun c m' => m'.Ended s c :=
  .bind (gives_lift (h.toSafe.nil fun _ hnil => gives_answer h.toSafe hnil))

theorem relinquish_ends (h : m.Sound s) : Gives (relinquish n) m fun c m' => m'.Ended s c := by
  have rest : ∀ {m₁ : Machine}, m₁.Safe s → Gives (do
      modify fun m => { m with devices := m.devices.takeEvent.2 }
      return .done : Attempt Completion) m₁ fun c m' => m'.Ended s c := fun h₁ =>
    .bind (h₁.modify ⟨rfl, rfl, rfl, rfl⟩ fun f => .pure (.inl f.safe))
  match n with
  | 0 => exact rest h.toSafe
  | 1 =>
    exact .bind (gives_looks stackInteger_stays fun _ => .bind (gives_lift (h.toSafe.pop fun _ _ f =>
      rest f.safe)))
  | n + 2 => exact .bind .throw

/-! ### Devices -/

theorem integerPoint_ends {p : Int × Int} (h : m.Sound s) :
    Gives (do answer n (← (integerPoint p : Attempt Value))) m fun c m' => m'.Ended s c :=
  .bind ((gives_lift (.bind (gives_immediate (.bind (gives_immediate
    (h.makePoint (proper_small _) (proper_small _))))))).mono fun _ _ hv => gives_answer hv.1 hv.2)

theorem mousePoint_ends (h : m.Sound s) : Gives (mousePoint n) m fun c m' => m'.Ended s c :=
  .bind (.get (integerPoint_ends h))

theorem screenSize_ends (h : m.Sound s) : Gives (screenSize n) m fun c m' => m'.Ended s c :=
  .bind (.get (integerPoint_ends h))

theorem mouseButtons_ends (h : m.Sound s) : Gives (mouseButtons n) m fun c m' => m'.Ended s c :=
  .bind (.get (.bind (gives_lift (gives_immediate (gives_answer h.toSafe (proper_small _))))))

/-- The code of a key is a small integer; without a key there is nil. -/
theorem gives_keyCode {key : Option Int} {Q : Value → Machine → Prop}
    (hcode : ∀ code, Q (.small code) m) (hnil : Q m.specials.nil m) : Gives (keyCode key) m Q := by
  cases key with
  | none => exact gives_nil hnil
  | some code => exact gives_immediate (hcode code)

theorem answerKey_ends {key : Option Int} (h : m.Safe s) :
    Gives (do answer n (← (keyCode key : Attempt Value))) m fun c m' => m'.Ended s c :=
  .bind (gives_lift (gives_keyCode (fun _ => gives_answer h (proper_small _))
    (gives_answer h h.proper_nil)))

theorem keyboardNext_ends (h : m.Sound s) : Gives (keyboardNext n) m fun c m' => m'.Ended s c :=
  .bind (gives_onDevices h.toSafe fun _ _ f => answerKey_ends f.safe)

theorem keyboardPeek_ends (h : m.Sound s) : Gives (keyboardPeek n) m fun c m' => m'.Ended s c :=
  .bind (.get (answerKey_ends h.toSafe))

theorem reverseDisplay_ends (h : m.Sound s) : Gives (reverseDisplay n) m fun c m' => m'.Ended s c :=
  .bind (gives_onDevices h.toSafe fun _ _ f => .pure (.inl f.safe))

theorem storeBits_gives {form : Value} {bits : Array UInt32} (h : m.Safe s) :
    Gives (storeBits form bits) m fun _ m' => Follows s m m' := by
  refine .bind (h.fetch fun bitmap _ => .bind (gives_object fun o _ => ?_))
  cases o.words? with
  | none => exact .throw
  | some words => exact modifyBody_gives h fun _ => ⟨rfl, rfl⟩

theorem transferBits_ends {receiver : Value} {alpha : Option Int} (h : m.Sound s) :
    Gives (transferBits n receiver alpha) m fun c m' => m'.Ended s c := by
  have finish : ∀ {m₁ : Machine} (blit : Device.Blit), m₁.Safe s → Gives (do
      Action.popN n
      if blit.rule = 22 ∨ blit.rule = 32 then
        answer 0 (← Action.immediate blit.bitCount)
      else
        return .done : Attempt Completion) m₁ fun c m' => m'.Ended s c := by
    intro m₁ blit h₁
    refine .bind (gives_lift (h₁.popN fun f => .ite (fun _ => ?_) fun _ => .pure (.inl f.safe)))
    exact .bind (gives_lift (gives_immediate (gives_answer f.safe (proper_small _))))
  refine .bind (gives_looks loadBlit_stays fun blit => ?_)
  refine .bind (gives_onDevices h.toSafe fun done m₁ f₁ => .bind (gives_looks .ofOption fun result => ?_))
  obtain ⟨blit, area⟩ := result
  refine .bind (gives_looks (.lift fetch_within) fun dest => ?_)
  refine .bind ((gives_lift (storeBits_gives f₁.safe)).mono fun _ m₂ f₂ => ?_)
  cases area with
  | none => exact finish blit f₂.safe
  | some area =>
    refine .bind (gives_looks (.lift special_within) fun _ => .ite (fun _ => ?_) fun _ =>
      finish blit f₂.safe)
    exact .bind (gives_onDevices f₂.safe fun _ _ f₃ => finish blit f₃.safe)

theorem copyBits_ends (h : m.Sound s) : Gives (copyBits n) m fun c m' => m'.Ended s c := by
  refine .bind (gives_looks .require fun _ => .bind (gives_looks stackObject_stays fun receiver => ?_))
  refine .ite (fun _ => ?_) fun _ => transferBits_ends h
  exact .bind (gives_looks stackInteger_stays fun alpha => transferBits_ends h)

theorem beCursor_ends (h : m.Sound s) : Gives (beCursor n) m fun c m' => m'.Ended s c := by
  refine .bind (gives_looks .require fun _ => .bind (gives_looks stackObject_stays fun cursor => ?_))
  refine .bind (gives_looks loadForm_stays fun form => ?_)
  refine .bind (gives_looks (orDecline_stays fetch_within fun m e m' => fetch_error) fun offset => ?_)
  refine .bind (gives_looks (.lift isInstanceOf_within) fun _ => .bind (gives_looks .require fun _ => ?_))
  refine .bind (gives_looks (.lift fetch_within) fun _ => .bind (gives_looks integer32_stays fun _ => ?_))
  refine .bind (gives_looks (.lift fetch_within) fun _ => .bind (gives_looks integer32_stays fun _ => ?_))
  refine .bind (gives_onDevices h.toSafe fun _ _ f => ?_)
  exact .bind (gives_lift (f.safe.popN fun f' => .pure (.inl f'.safe)))

theorem beDisplay_ends (h : m.Sound s) : Gives (beDisplay n) m fun c m' => m'.Ended s c := by
  refine .bind (gives_stackObject h.toSafe fun display hdisplay => ?_)
  refine .bind (gives_looks loadForm_stays fun form => ?_)
  refine .bind (gives_onDevices h.toSafe fun _ _ f => .bind (gives_looks .require fun _ => ?_))
  refine .bind (.get (.bind (gives_lift (f.safe.store (f.proper _ hdisplay.proper) fun f' => ?_))))
  exact .pure (.inl f'.safe)

/-! ### Files -/

theorem onFiles_gives {α : Type} {f : Device.FileSystem → Option (α × Device.FileSystem)}
    {Q : α → Machine → Prop} (h : m.Sound s)
    (hQ : ∀ a m', m'.Sound s → Follows s m m' → Q a m') : Gives (onFiles f) m Q := by
  refine .bind (.get (.bind (gives_looks .ofOption fun found => ?_)))
  obtain ⟨a, files⟩ := found
  refine .bind (.modify (.pure (hQ a _ (h.alike ?_) (h.toSafe.follows_alike ?_))))
  · exact ⟨rfl, rfl, rfl, rfl⟩
  · exact ⟨rfl, rfl, rfl, rfl⟩

/-- A change of the files, after which a value of the stack is answered. -/
theorem changeFiles_ends {f : Device.FileSystem → Option Device.FileSystem} {depth : Nat}
    (h : m.Sound s) : Gives (do
      changeFiles f
      answer n (← Attempt.stackValue depth)) m fun c m' => m'.Ended s c :=
  .bind (onFiles_gives h fun _ _ h₁ _ => gives_answerStack h₁.toSafe)

theorem fileAtEnd_ends (h : m.Sound s) : Gives (fileAtEnd n) m fun c m' => m'.Ended s c :=
  .bind (gives_looks .require fun _ => .bind (gives_looks stackHandle_stays fun _ =>
    .bind (.get (.bind (gives_looks .ofOption fun _ => .bind (.get
      (.bind (gives_looks .ofOption fun _ => gives_answerTruth h.toSafe))))))))

theorem fileClose_ends (h : m.Sound s) : Gives (fileClose n) m fun c m' => m'.Ended s c :=
  .bind (gives_looks .require fun _ => .bind (gives_looks stackHandle_stays fun _ =>
    .bind (gives_onDevices h.toSafe fun _ _ f => .bind (gives_looks .require fun _ =>
      gives_answerStack f.safe))))

theorem filePosition_ends (h : m.Sound s) : Gives (filePosition n) m fun c m' => m'.Ended s c :=
  .bind (gives_looks .require fun _ => .bind (gives_looks stackHandle_stays fun _ =>
    .bind (.get (.bind (gives_looks .ofOption fun _ => gives_answerNew (gives_newPositive32 h))))))

theorem fileSize_ends (h : m.Sound s) : Gives (fileSize n) m fun c m' => m'.Ended s c :=
  .bind (gives_looks .require fun _ => .bind (gives_looks stackHandle_stays fun _ =>
    .bind (.get (.bind (gives_looks .ofOption fun _ => gives_answerNew (gives_newPositive32 h))))))

theorem openNamed_ends {path : String} {writable : Bool} (h : m.Sound s) :
    Gives (openNamed path writable) m fun c m' => m'.Ended s c := by
  refine .bind (.get (.bind (gives_looks .ofOption fun result => ?_)))
  obtain ⟨handle, devices⟩ := result
  refine .bind (h.toSafe.modify ⟨rfl, rfl, rfl, rfl⟩ fun f => ?_)
  split
  · rename_i v hv
    rw [eq_small_of_ofInt? hv]
    exact gives_answer f.safe (proper_small _)
  · exact .bind (gives_onDevices f.safe fun _ _ _ => .throw)

theorem fileOpen_ends (h : m.Sound s) : Gives (fileOpen n) m fun c m' => m'.Ended s c := by
  refine .bind (gives_looks .require fun _ => .bind (gives_looks stackPath_stays fun path => ?_))
  refine .bind (gives_looks stackValue_stays fun flag => ?_)
  refine .bind (gives_looks (.lift truth_within) fun _ => .ite (fun _ => openNamed_ends h) fun _ => ?_)
  refine .bind (gives_looks (.lift truth_within) fun _ => ?_)
  exact .ite (fun _ => openNamed_ends h) fun _ => .throw

theorem fileRead_ends (h : m.Sound s) : Gives (fileRead n) m fun c m' => m'.Ended s c := by
  refine .bind (gives_looks .require fun _ => .bind (gives_looks stackHandle_stays fun _ => ?_))
  refine .bind (gives_looks stackByteRange_stays fun range => ?_)
  obtain ⟨buffer, first, count⟩ := range
  refine .bind (gives_looks hostHandle_stays fun _ => .bind (onFiles_gives h fun part m₁ h₁ _ => ?_))
  refine .bind (gives_looks (.lift object_within) fun _ => .bind (gives_looks .ofOption fun _ => ?_))
  refine .bind (gives_looks .ofOption fun bytes => .bind (gives_lift fun u m₂ hrun => ?_))
  obtain rfl := modifyMemory_ok.1 hrun
  have h₂ : (m₁.modified buffer fun o => { o with body := .bytes bytes }).Sound s :=
    h₁.modified_body fun _ => ⟨rfl, rfl⟩
  exact gives_answerNew (gives_newPositive32 h₂)

theorem fileSetPosition_ends (h : m.Sound s) :
    Gives (fileSetPosition n) m fun c m' => m'.Ended s c :=
  .bind (gives_looks .require fun _ => .bind (gives_looks stackHandle_stays fun _ =>
    .bind (gives_looks stackPositive32_stays fun _ => .bind (gives_looks hostHandle_stays fun _ =>
      changeFiles_ends h))))

theorem fileDelete_ends (h : m.Sound s) : Gives (fileDelete n) m fun c m' => m'.Ended s c :=
  .bind (gives_looks .require fun _ => .bind (gives_looks stackPath_stays fun _ =>
    changeFiles_ends h))

theorem fileWrite_ends (h : m.Sound s) : Gives (fileWrite n) m fun c m' => m'.Ended s c := by
  refine .bind (gives_looks .require fun _ => .bind (gives_looks stackHandle_stays fun _ => ?_))
  refine .bind (gives_looks stackByteRange_stays fun range => ?_)
  obtain ⟨buffer, first, count⟩ := range
  refine .bind (gives_looks (.lift object_within) fun _ => .bind (gives_looks .ofOption fun _ => ?_))
  refine .bind (gives_looks hostHandle_stays fun _ => .bind (onFiles_gives h fun _ m₁ h₁ _ => ?_))
  exact gives_answerNew (gives_newPositive32 h₁)

theorem fileRename_ends (h : m.Sound s) : Gives (fileRename n) m fun c m' => m'.Ended s c :=
  .bind (gives_looks .require fun _ => .bind (gives_looks stackPath_stays fun _ =>
    .bind (gives_looks stackPath_stays fun _ => changeFiles_ends h)))

theorem createDirectory_ends (h : m.Sound s) :
    Gives (createDirectory n) m fun c m' => m'.Ended s c :=
  .bind (gives_looks .require fun _ => .bind (gives_looks stackPath_stays fun _ =>
    changeFiles_ends h))

theorem pathDelimiter_ends (h : m.Sound s) : Gives (pathDelimiter n) m fun c m' => m'.Ended s c :=
  .bind (.get (.bind (gives_looks .require fun _ => .bind (gives_lift
    (.bind (gives_special (h.toSafe.fetch fun _ hx => gives_answer h.toSafe hx)))))))

/-- What is pinned as soon as it is made stays anchored. -/
theorem pinned_gives {x : Attempt Value} {f : Value → Attempt Value} {Q : Value → Machine → Prop}
    (hx : Gives x m fun v m' => Allots s m v m')
    (hf : ∀ v m₁, m₁.Sound s → m₁.Anchored v → (∀ y, m.Anchored y → m₁.Anchored y) →
      Gives (f v) m₁ Q) : Gives (do
      let v ← x
      pinValue v
      f v) m Q := by
  refine .bind (hx.mono fun v m₁ hv => .bind (gives_lift fun u m₂ hrun => ?_))
  obtain rfl := modifyMemory_ok.1 hrun
  have proper : ∀ w ∈ #[v], m₁.Proper w := by
    intro w hw
    rw [List.mem_toArray, List.mem_singleton] at hw
    rw [hw]
    exact hv.proper
  refine hf v (m₁.withPins (m₁.memory.pins ++ #[v])) (hv.sound.pinned proper) ?_ fun y hy => ?_
  · exact anchored_pinned proper (by simp)
  · exact (hv.anchored hy).withPins _

theorem buildEntry_gives {e : Device.Devices.EntryInfo} (h : m.Sound s) :
    Gives (buildEntry e) m fun v m' => m'.Safe s ∧ m'.Proper v := by
  refine pinned_gives (gives_lift h.makeString) fun name m₁ h₁ name₁ _ => ?_
  refine pinned_gives (.bind (gives_looks natural_stays fun _ => gives_newPositive32 h₁))
    fun created m₂ h₂ created₂ keep₂ => ?_
  refine pinned_gives (.bind (gives_looks natural_stays fun _ => gives_newPositive32 h₂))
    fun modified m₃ h₃ modified₃ keep₃ => ?_
  refine pinned_gives (gives_newPositive32 h₃) fun size m₄ h₄ size₄ keep₄ => ?_
  refine .bind (gives_lift fun isDirectory m₅ hrun => ?_)
  obtain ⟨rfl, rfl⟩ := truth_ok.1 hrun
  refine .bind (gives_lift (gives_special ?_))
  refine (gives_lift (h₄.allocate fun x hx => ?_)).mono fun _ _ hv => ⟨hv.sound.toSafe, hv.proper⟩
  simp only [Object.ofPointers, List.mem_cons, List.not_mem_nil, or_false] at hx
  rcases hx with rfl | rfl | rfl | rfl | rfl | rfl
  · exact h₄.anchored_special _
  · exact keep₄ _ (keep₃ _ (keep₂ _ name₁))
  · exact keep₄ _ (keep₃ _ created₂)
  · exact keep₄ _ modified₃
  · exact h₄.anchored_truth _
  · exact size₄

theorem entryArray_gives {e : Device.Devices.EntryInfo} (h : m.Sound s) :
    Gives (entryArray e) m fun v m' => m'.Safe s ∧ m'.Proper v := by
  intro v m' hrun
  simp only [entryArray] at hrun
  cases hbuild : buildEntry e m with
  | error r m₁ => simp [hbuild] at hrun
  | ok w m₁ =>
    simp only [hbuild, EStateM.Result.ok.injEq] at hrun
    obtain ⟨rfl, rfl⟩ := hrun
    obtain ⟨safe, proper⟩ := buildEntry_gives h w m₁ hbuild
    refine ⟨safe.withPins fun x hx => safe.proper_pin ?_, fun room => ?_⟩
    · rw [← Array.mem_toList_iff, toList_take] at hx
      exact Array.mem_toList_iff.1 (List.mem_of_mem_take hx)
    · exact proper ⟨room.size, room.generation⟩

theorem lookupEntry_ends (h : m.Sound s) : Gives (lookupEntry n) m fun c m' => m'.Ended s c := by
  refine .bind (gives_looks .require fun _ => .bind (gives_looks stackPath_stays fun _ => ?_))
  refine .bind (gives_looks stackInteger_stays fun _ => .bind (gives_looks natural_stays fun _ => ?_))
  refine .bind (gives_looks .require fun _ => .bind (.get (.bind (gives_looks .ofOption fun found => ?_))))
  cases found with
  | some e => exact .bind ((entryArray_gives h).mono fun _ _ hv => gives_answer hv.1 hv.2)
  | none => exact .bind (gives_lift (h.toSafe.nil fun _ hnil => gives_answer h.toSafe hnil))

/-! ### The table -/

theorem all_end : ∀ p ∈ all, ∀ n {m : Machine} {s : SpecialObjects}, m.Sound s →
    Gives (p.action n) m fun c m' => m'.Ended s c := by
  simp only [all, List.forall_mem_cons, List.not_mem_nil, false_imp_iff, implies_true, and_true]
  exact ⟨
    fun _ => integerOp_ends, fun _ => integerOp_ends, fun _ => integerComparison_ends,
    fun _ => integerComparison_ends, fun _ => integerComparison_ends,
    fun _ => integerComparison_ends, fun _ => integerComparison_ends,
    fun _ => integerComparison_ends, fun _ => integerOp_ends, fun _ => integerOp_ends,
    fun _ => integerOp_ends, fun _ => integerOp_ends, fun _ => integerOp_ends,
    fun _ => bitOp_ends, fun _ => bitOp_ends, fun _ => bitOp_ends, fun _ => bitShift_ends,
    fun _ => point_ends, fun _ => asFloat_ends, fun _ => floatOp_ends, fun _ => floatOp_ends,
    fun _ => floatComparison_ends, fun _ => floatComparison_ends, fun _ => floatComparison_ends,
    fun _ => floatComparison_ends, fun _ => floatComparison_ends, fun _ => floatComparison_ends,
    fun _ => floatOp_ends, fun _ => floatOp_ends, fun _ => truncated_ends,
    fun _ => logarithm_ends, fun _ => readElement_ends, fun _ => writeElement_ends,
    fun _ => size_ends, fun _ => readElement_ends, fun _ => writeElement_ends,
    fun _ => readElement_ends, fun _ => writeElement_ends, fun _ => basicNew_ends,
    fun _ => basicNewSized_ends, fun _ => arrayBecome_ends, fun _ => readElement_ends,
    fun _ => writeElement_ends, fun _ => identityHash_ends, fun _ => someInstance_ends,
    fun _ => nextInstance_ends, fun _ => newMethod_ends, fun _ => blockCopy_ends,
    fun _ => blockValue_ends, fun _ => perform_ends, fun _ => performWithArguments_ends,
    fun _ => signal_ends, fun _ => wait_ends, fun _ => resume_ends, fun _ => suspend_ends,
    fun _ => flushCache_ends, fun _ => mousePoint_ends, fun _ => copyBits_ends,
    fun _ => performInSuperclass_ends, fun _ => beCursor_ends, fun _ => beDisplay_ends,
    fun _ => replaceElements_ends, fun _ => screenSize_ends, fun _ => mouseButtons_ends,
    fun _ => keyboardNext_ends, fun _ => keyboardPeek_ends, fun _ => identical_ends,
    fun _ => classOf_ends, fun _ => bytesLeft_ends, fun _ => quit_ends, fun _ => flushMethod_ends,
    fun _ => flushSelector_ends, fun _ => imageName_ends, fun _ => reverseDisplay_ends,
    fun _ => lowSpaceSemaphore_ends, fun _ => lowSpaceThreshold_ends, fun _ => arrayBecome_ends,
    fun _ => specialObjectsArray_ends, fun _ => fullCollection_ends,
    fun _ => incrementalCollection_ends, fun _ => interruptSemaphore_ends,
    fun _ => millisecondClock_ends, fun _ => signalAtMilliseconds_ends,
    fun _ => secondsClock_ends, fun _ => someObject_ends, fun _ => nextObject_ends,
    fun _ => vmPath_ends, fun _ => clone_ends, fun _ => systemAttribute_ends,
    fun _ => fileAtEnd_ends, fun _ => fileClose_ends, fun _ => filePosition_ends,
    fun _ => fileOpen_ends, fun _ => fileRead_ends, fun _ => fileSetPosition_ends,
    fun _ => fileDelete_ends, fun _ => fileSize_ends, fun _ => fileWrite_ends,
    fun _ => fileRename_ends, fun _ => createDirectory_ends, fun _ => pathDelimiter_ends,
    fun _ => lookupEntry_ends, fun _ => relinquish_ends⟩

end Primitive

end Smalltalk
