import Smalltalk.Proofs.Upkeep

/-!
# Safe conduct

Actions that start on a safe machine and end on a safe machine. What an action gives is stated for the
runs that end with an answer, in the order of the action: each rule takes what has to hold after the
first part as the goal for the rest. Scheduling and returning only move references around, so they
are safe wherever they start; making an object needs a machine that may allocate.
-/

namespace Smalltalk

namespace Outcome

variable {ε σ α β : Type} {x : EStateM ε σ α} {f : α → EStateM ε σ β} {s : σ}
  {Q R : α → σ → Prop}

/-- Whenever a computation ends with an answer, the answer and the state satisfy `Q`. -/
def Gives (x : EStateM ε σ α) (s : σ) (Q : α → σ → Prop) : Prop :=
  ∀ a s', x s = .ok a s' → Q a s'

theorem Gives.bind {Q : β → σ → Prop} (h : Gives x s fun a s₁ => Gives (f a) s₁ Q) :
    Gives (x >>= f) s Q := by
  intro b s' hrun
  obtain ⟨a, s₁, hx, hf⟩ := bind_ok.1 hrun
  exact h a s₁ hx b s' hf

theorem Gives.pure {a : α} (h : Q a s) : Gives (pure a : EStateM ε σ α) s Q := by
  intro b s' hrun
  obtain ⟨rfl, rfl⟩ := pure_ok.1 hrun
  exact h

theorem Gives.throw {e : ε} : Gives (throw e : EStateM ε σ α) s Q := fun _ _ hrun =>
  (throw_ok.1 hrun).elim

theorem Gives.get {Q : σ → σ → Prop} (h : Q s s) : Gives (get : EStateM ε σ σ) s Q := by
  intro a s' hrun
  obtain ⟨rfl, rfl⟩ := get_ok.1 hrun
  exact h

theorem Gives.modify {Q : Unit → σ → Prop} {g : σ → σ} (h : Q () (g s)) :
    Gives (modify g : EStateM ε σ Unit) s Q := by
  intro a s' hrun
  obtain rfl := modify_ok.1 hrun
  exact h

theorem Gives.mono (h : Gives x s R) (hQ : ∀ a s', R a s' → Q a s') : Gives x s Q :=
  fun a s' hrun => hQ a s' (h a s' hrun)

theorem Gives.ite {p : Prop} [Decidable p] {y : EStateM ε σ α} (hx : p → Gives x s Q)
    (hy : ¬p → Gives y s Q) : Gives (if p then x else y) s Q := by
  split
  · exact hx ‹_›
  · exact hy ‹_›

/-- What each turn keeps, the loop keeps. -/
theorem Gives.forM {γ : Type} {xs : List γ} {g : γ → EStateM ε σ PUnit} {P : σ → Prop}
    (hg : ∀ a ∈ xs, ∀ s₁, P s₁ → Gives (g a) s₁ fun _ s₂ => P s₂) (h : P s) :
    Gives (xs.forM g) s fun _ s' => P s' := by
  induction xs generalizing s with
  | nil => exact .pure h
  | cons a xs ih =>
    refine .bind ((hg a List.mem_cons_self s h).mono fun _ s₁ h₁ => ?_)
    exact ih (fun b hb => hg b (List.mem_cons_of_mem a hb)) h₁

end Outcome

open Outcome

namespace Machine

variable {m m' : Machine} {s : SpecialObjects} {v x process list context : Value} {i n : Nat}
  {α : Type}

/-! ### Reading and storing -/

theorem gives_fetch {Q : Value → Machine → Prop} (hQ : ∀ x, m.memory.cell v i = some x → Q x m) :
    Gives (Action.fetch v i) m Q := by
  intro x m' hrun
  obtain ⟨hx, rfl⟩ := Action.fetch_ok.1 hrun
  exact hQ x hx

theorem Safe.fetch {Q : Value → Machine → Prop} (h : m.Safe s)
    (hQ : ∀ x, m.Proper x → Q x m) : Gives (Action.fetch v i) m Q :=
  gives_fetch fun x hx => hQ x (h.proper_of_cell hx)

theorem gives_fetchInt {Q : Int → Machine → Prop} (hQ : ∀ k, Q k m) :
    Gives (Action.fetchInt v i) m Q := by
  intro k m' hrun
  obtain ⟨-, rfl⟩ := Action.fetchInt_ok.1 hrun
  exact hQ k

theorem gives_immediate {Q : Value → Machine → Prop} {k : Int} (hQ : Q (.small k) m) :
    Gives (Action.immediate k) m Q := by
  intro x m' hrun
  obtain ⟨-, rfl, rfl⟩ := Action.immediate_ok.1 hrun
  exact hQ

theorem gives_ofExcept {α : Type} {e : Except Fault α} {Q : α → Machine → Prop}
    (hQ : ∀ a, e = .ok a → Q a m) : Gives (Action.ofExcept e) m Q := by
  intro a m' hrun
  obtain ⟨he, rfl⟩ := Action.ofExcept_ok.1 hrun
  exact hQ a he

theorem gives_object {Q : Object → Machine → Prop}
    (hQ : ∀ o, m.memory.get? v = some o → Q o m) : Gives (Action.object v) m Q := by
  intro o m' hrun
  obtain ⟨ho, rfl⟩ := Action.object_ok.1 hrun
  exact hQ o ho

theorem gives_object? {Q : Option Object → Machine → Prop} (hQ : Q (m.memory.get? v) m) :
    Gives (Action.object? v) m Q := by
  intro o m' hrun
  obtain ⟨rfl, rfl⟩ := Action.object?_ok.1 hrun
  exact hQ

theorem gives_registers {Q : Registers → Machine → Prop} (hQ : Q m.registers m) :
    Gives Action.registers m Q := by
  intro r m' hrun
  obtain ⟨rfl, rfl⟩ := Action.registers_ok.1 hrun
  exact hQ

theorem gives_nil {Q : Value → Machine → Prop} (hQ : Q m.specials.nil m) :
    Gives Action.nil m Q := by
  intro x m' hrun
  obtain ⟨rfl, rfl⟩ := Action.nil_ok.1 hrun
  exact hQ

theorem Safe.nil {Q : Value → Machine → Prop} (h : m.Safe s) (hQ : ∀ x, m.Proper x → Q x m) :
    Gives Action.nil m Q := gives_nil (hQ _ h.proper_nil)

theorem gives_special {Q : Value → Machine → Prop} (hQ : Q (m.specials.get m.memory i) m) :
    Gives (Action.special i) m Q := by
  intro x m' hrun
  obtain ⟨rfl, rfl⟩ := Action.special_ok.1 hrun
  exact hQ

theorem gives_store {Q : Unit → Machine → Prop}
    (hQ : ∀ y, m.memory.cell v i = some y → Q () (m.setCell v i x)) :
    Gives (Action.store v i x) m Q := by
  intro u m' hrun
  obtain ⟨⟨y, hy⟩, rfl⟩ := Action.store_ok.1 hrun
  exact hQ y hy

theorem Safe.store {Q : Unit → Machine → Prop} (h : m.Safe s) (hx : m.Proper x)
    (hQ : Follows s m (m.setCell v i x) → Q () (m.setCell v i x)) :
    Gives (Action.store v i x) m Q :=
  gives_store fun _ _ => hQ (h.follows_setCell hx)

/-- A change of nothing that is held. -/
theorem Safe.modify {ε : Type} {Q : Unit → Machine → Prop} {g : Machine → Machine} (h : m.Safe s)
    (e : Alike m (g m)) (hQ : Follows s m (g m) → Q () (g m)) :
    Gives (modify g : EStateM ε Machine Unit) m Q := .modify (hQ (h.follows_alike e))

/-! ### Processes -/

theorem Safe.scheduler {Q : Value → Machine → Prop} (h : m.Safe s)
    (hQ : ∀ x, m.Proper x → Q x m) : Gives Action.scheduler m Q :=
  .bind (gives_special (h.fetch hQ))

theorem Safe.activeProcess {Q : Value → Machine → Prop} (h : m.Safe s)
    (hQ : ∀ x, m.Proper x → Q x m) : Gives Action.activeProcess m Q :=
  .bind (h.scheduler fun _ _ => h.fetch hQ)

theorem Safe.isEmptyList {Q : Bool → Machine → Prop} (h : m.Safe s) (hQ : ∀ b, Q b m) :
    Gives (Action.isEmptyList list) m Q :=
  .bind (h.fetch fun _ _ => .bind (gives_nil (.pure (hQ _))))

theorem Safe.linkLast (h : m.Safe s) (hp : m.Proper process) (hl : m.Proper list) :
    Gives (Action.linkLast process list) m fun _ m' => Follows s m m' := by
  -- whichever field comes first, the last field of the list and the process itself follow
  have rest : ∀ {m₁}, Follows s m m₁ → Gives (do
      Action.store list ProcessList.last process
      Action.store process Process.myList list) m₁ fun _ m' => Follows s m m' := by
    intro m₁ f₁
    refine .bind (f₁.safe.store (f₁.proper _ hp) fun f₂ => ?_)
    refine f₂.safe.store (f₂.proper _ (f₁.proper _ hl)) fun f₃ => ?_
    exact (f₁.trans f₂).trans f₃
  refine .bind (h.isEmptyList fun b => ?_)
  cases b with
  | true => exact .bind (h.store hp fun f₁ => rest f₁)
  | false => exact .bind (h.fetch fun _ _ => .bind (h.store hp fun f₁ => rest f₁))

theorem Safe.unlinkFirst (h : m.Safe s) :
    Gives (Action.unlinkFirst list) m fun v m' => Follows s m m' ∧ m'.Proper v := by
  refine .bind (h.nil fun nil hnil => ?_)
  refine .bind (h.fetch fun first hfirst => ?_)
  refine .bind (h.fetch fun last _ => ?_)
  have rest : ∀ {m₁}, Follows s m m₁ → Gives (do
      Action.store first Process.next nil
      return first) m₁ fun v m' => Follows s m m' ∧ m'.Proper v := by
    intro m₁ f₁
    refine .bind (f₁.safe.store (f₁.proper _ hnil) fun f₂ => .pure ?_)
    exact ⟨f₁.trans f₂, f₂.proper _ (f₁.proper _ hfirst)⟩
  split
  · refine .bind (h.store hnil fun f₁ => ?_)
    exact .bind (f₁.safe.store (f₁.proper _ hnil) fun f₂ => rest (f₁.trans f₂))
  · exact .bind (h.fetch fun next hnext => .bind (h.store hnext fun f₁ => rest f₁))

theorem Safe.makeReady (h : m.Safe s) (hp : m.Proper process) :
    Gives (Action.makeReady process) m fun _ m' => Follows s m m' := by
  refine .bind (h.scheduler fun _ _ => .bind (h.fetch fun lists _ => ?_))
  refine .bind (gives_fetchInt fun priority => ?_)
  split
  · exact .bind .throw
  · exact .bind (h.fetch fun list hl => h.linkLast hp hl)

theorem Safe.loadRegisters (h : m.Safe s) (hc : m.Proper context) :
    Gives (Action.loadRegisters context) m fun _ m' => Follows s m m' := by
  intro u m' hrun
  obtain ⟨r, rfl, hcontext, hloaded⟩ := Action.loadRegisters_ok hrun
  refine h.follows_loaded ?_ hc hloaded
  rw [hcontext]
  exact h.anchored_context.proper

theorem Safe.saveRegisters (h : m.Safe s) :
    Gives Action.saveRegisters m fun _ m' => Follows s m m' := by
  intro u m' hrun
  obtain ⟨-, -, rfl⟩ := Action.saveRegisters_ok hrun
  exact h.follows_saved

theorem Safe.activate (h : m.Safe s) (hc : m.Proper context) :
    Gives (Action.activate context) m fun _ m' => Follows s m m' := by
  intro u m' hrun
  obtain ⟨-, r, rfl, hcontext, hloaded⟩ := Action.activate_ok hrun
  have hsaved := h.follows_saved
  refine hsaved.trans (hsaved.safe.follows_loaded ?_ (hsaved.proper _ hc) hloaded)
  rw [hcontext]
  exact hsaved.proper _ hc

theorem Safe.transferTo (h : m.Safe s) (hp : m.Proper process) :
    Gives (Action.transferTo process) m fun _ m' => Follows s m m' := by
  refine .bind (h.scheduler fun scheduler _ => .bind (h.fetch fun old _ => ?_))
  refine .bind (h.store hp fun f₁ => .bind (gives_registers ?_))
  refine .bind (f₁.safe.store f₁.safe.anchored_context.proper fun f₂ => ?_)
  refine .bind (f₂.safe.fetch fun context hc => ?_)
  refine .bind ((f₂.safe.activate hc).mono fun _ m₃ f₃ => ?_)
  refine .bind (f₃.safe.nil fun nil hnil => .bind (f₃.safe.store hnil fun f₄ => ?_))
  have f₄ := ((f₁.trans f₂).trans f₃).trans f₄
  refine .bind (f₄.safe.modify ⟨rfl, rfl, rfl, rfl⟩ fun f₅ => ?_)
  exact f₅.safe.modify ⟨rfl, rfl, rfl, rfl⟩ fun f₆ => f₄.trans (f₅.trans f₆)

theorem Safe.unlinkHighest {lists : Value} (h : m.Safe s) (count : Nat) :
    Gives (Action.unlinkHighest lists count) m fun v m' => Follows s m m' ∧ m'.Proper v := by
  induction count with
  | zero => exact .throw
  | succ count ih =>
    refine .bind (h.fetch fun list _ => .bind (h.isEmptyList fun b => ?_))
    cases b with
    | true => exact ih
    | false => exact h.unlinkFirst

theorem Safe.pickTop (h : m.Safe s) :
    Gives Action.pickTop m fun v m' => Follows s m m' ∧ m'.Proper v := by
  refine .bind (h.scheduler fun _ _ => .bind (h.fetch fun lists _ => ?_))
  exact .bind (gives_object fun o _ => h.unlinkHighest _)

theorem Safe.resume (h : m.Safe s) (hp : m.Proper process) :
    Gives (Action.resume process) m fun _ m' => Follows s m m' := by
  refine .bind (h.activeProcess fun active hactive => ?_)
  refine .bind (gives_fetchInt fun wanted => .bind (gives_fetchInt fun current => ?_))
  split
  · refine .bind ((h.makeReady hactive).mono fun _ m₁ f₁ => ?_)
    exact (f₁.safe.transferTo (f₁.proper _ hp)).mono fun _ m₂ f₂ => f₁.trans f₂
  · exact h.makeReady hp

theorem Safe.signal {semaphore : Value} (h : m.Safe s) :
    Gives (Action.signal semaphore) m fun _ m' => Follows s m m' := by
  refine .bind (h.isEmptyList fun b => ?_)
  cases b with
  | true =>
    exact .bind (gives_fetchInt fun _ => .bind (gives_immediate (h.store (proper_small _) id)))
  | false =>
    refine .bind (h.unlinkFirst.mono fun v m₁ f₁ => ?_)
    exact (f₁.1.safe.resume f₁.2).mono fun _ m₂ f₂ => f₁.1.trans f₂

theorem Safe.suspendActive (h : m.Safe s) :
    Gives Action.suspendActive m fun _ m' => Follows s m m' := by
  refine .bind (h.pickTop.mono fun v m₁ f₁ => ?_)
  exact (f₁.1.safe.transferTo f₁.2).mono fun _ m₂ f₂ => f₁.1.trans f₂

theorem Safe.wait {semaphore : Value} (h : m.Safe s) (hs : m.Proper semaphore) :
    Gives (Action.wait semaphore) m fun _ m' => Follows s m m' := by
  refine .bind (gives_fetchInt fun excess => ?_)
  split
  · exact h.store (proper_small _) id
  · refine .bind (h.activeProcess fun active hactive => ?_)
    refine .bind ((h.linkLast hactive hs).mono fun _ m₁ f₁ => ?_)
    exact f₁.safe.suspendActive.mono fun _ m₂ f₂ => f₁.trans f₂

/-! ### Interrupts -/

theorem Safe.signalSpecial (h : m.Safe s) :
    Gives (Action.signalSpecial i) m fun _ m' => Follows s m m' := by
  refine .bind (gives_special (.bind (gives_nil ?_)))
  split
  · exact h.signal
  · exact .pure (.refl h)

/-- Where the semaphores stand that a check of the interrupts may signal. -/
def interruptSemaphores : List Nat :=
  [Special.lowSpaceSemaphore, Special.interruptSemaphore, Special.timerSemaphore]

/-- What changes of the interrupt counters and signals keep, a check keeps. -/
theorem checkInterrupts_keeps {P : Machine → Prop}
    (hcount : ∀ {m} (i : Interrupts), P m → P { m with interrupts := i })
    (hsignal : ∀ {m}, ∀ i ∈ interruptSemaphores, P m →
      Gives (Action.signalSpecial i) m fun _ m' => P m')
    (h : P m) : Gives Action.checkInterrupts m fun _ m' => P m' := by
  -- a semaphore that is due: its mark is taken off and it is signalled
  have due : ∀ {m : Machine} {f : Interrupts → Interrupts} {i : Nat} {rest : Action Unit},
      i ∈ interruptSemaphores → P m → (∀ {m₁}, P m₁ → Gives rest m₁ fun _ m' => P m') →
      Gives (do
        Action.modifyInterrupts f
        Action.signalSpecial i
        rest) m fun _ m' => P m' := by
    intro m f i rest hi hm hrest
    exact .bind (.modify (.bind ((hsignal i hi (hcount _ hm)).mono fun _ m₁ h₁ => hrest h₁)))
  have timer : ∀ {m : Machine} (now : Int), P m → Gives (do
      let wakeup := (← get).interrupts.nextWakeup
      if wakeup ≠ 0 ∧ wakeup ≤ now then
        Action.modifyInterrupts fun i => { i with nextWakeup := 0 }
        Action.signalSpecial Special.timerSemaphore) m fun _ m' => P m' := by
    intro m now hm
    refine .bind (.get (.ite (fun _ => ?_) fun _ => .pure hm))
    exact .bind (.modify (hsignal _ (by decide) (hcount _ hm)))
  have user : ∀ {m : Machine} (now : Int), P m → Gives (do
      if (← get).interrupts.pending then
        Action.modifyInterrupts fun i => { i with pending := false }
        Action.signalSpecial Special.interruptSemaphore
      let wakeup := (← get).interrupts.nextWakeup
      if wakeup ≠ 0 ∧ wakeup ≤ now then
        Action.modifyInterrupts fun i => { i with nextWakeup := 0 }
        Action.signalSpecial Special.timerSemaphore) m fun _ m' => P m' := by
    intro m now hm
    exact .bind (.get (.ite (fun _ => due (by decide) hm (timer now)) fun _ =>
      timer now hm))
  refine .bind (.get (.ite (fun _ => ?_) fun _ => ?_))
  · exact .bind (.modify (.pure (hcount _ h)))
  · refine .bind (.get (.bind (.get (.bind (gives_ofExcept fun _ _ => .bind (.modify ?_))))))
    exact .ite (fun _ => due (by decide) (hcount _ h) (user _)) fun _ => user _ (hcount _ h)

theorem Safe.checkInterrupts (h : m.Safe s) :
    Gives Action.checkInterrupts m fun _ m' => Follows s m m' := by
  refine checkInterrupts_keeps (fun i hm => ?_) (fun i _ hm => ?_) (.refl h)
  · exact hm.trans (hm.safe.follows_alike ⟨rfl, rfl, rfl, rfl⟩)
  · exact hm.safe.signalSpecial.mono fun _ m₂ f₂ => hm.trans f₂

/-! ### The stack -/

theorem Safe.stackValue {Q : Value → Machine → Prop} {depth : Nat} (h : m.Safe s)
    (hQ : ∀ x, m.Anchored x → Q x m) : Gives (Action.stackValue depth) m Q := by
  intro x m' hrun
  obtain ⟨-, hx, rfl⟩ := Action.stackValue_ok.1 hrun
  exact hQ x (h.anchored_context.cell h hx)

theorem Safe.stackValues {Q : List Value → Machine → Prop} (h : m.Safe s)
    (hQ : ∀ xs, (∀ x ∈ xs, m.Anchored x) → Q xs m) : Gives (Action.stackValues n) m Q := by
  intro xs m' hrun
  obtain ⟨rfl, -, hxs⟩ := Action.stackValues_ok hrun
  refine hQ xs fun x hx => ?_
  obtain ⟨depth, -, -, hcell⟩ := hxs x hx
  exact h.anchored_context.cell h hcell

theorem Safe.push (h : m.Safe s) (hx : m.Proper x) :
    Gives (Action.push x) m fun _ m' => Follows s m m' := by
  intro u m' hrun
  obtain ⟨-, rfl⟩ := Action.push_ok.1 hrun
  exact h.follows_pushed hx

theorem Safe.popN {Q : Unit → Machine → Prop} (h : m.Safe s)
    (hQ : Follows s m (Action.popped m n) → Q () (Action.popped m n)) :
    Gives (Action.popN n) m Q := by
  intro u m' hrun
  obtain ⟨-, rfl⟩ := Action.popN_ok.1 hrun
  exact hQ (h.follows_popped n)

theorem Safe.pop {Q : Value → Machine → Prop} (h : m.Safe s)
    (hQ : ∀ x, m.Anchored x → Follows s m (Action.popped m 1) → Q x (Action.popped m 1)) :
    Gives Action.pop m Q := by
  intro x m' hrun
  obtain ⟨hx, -, rfl⟩ := Action.pop_ok.1 hrun
  exact hQ x (h.anchored_context.cell h hx) (h.follows_popped 1)

theorem Safe.popThenPush (h : m.Safe s) (hx : m.Proper x) :
    Gives (Action.popThenPush n x) m fun _ m' => Follows s m m' :=
  .bind (h.popN fun f => (f.safe.push (f.proper _ hx)).mono fun _ _ f' => f.trans f')

/-- The class of something anchored is anchored. -/
theorem Sound.classOf {Q : Value → Machine → Prop} (h : m.Sound s) (hv : m.Anchored v)
    (hQ : ∀ c, m.Anchored c → Q c m) : Gives (Action.classOf v) m Q := by
  intro c m' hrun
  obtain ⟨hc, rfl⟩ := Action.classOf_ok.1 hrun
  rcases hc with ⟨-, rfl⟩ | ⟨o, ho, rfl⟩
  · exact hQ _ (h.anchored_special _)
  · exact hQ _ (hv.cls h.toSafe ho)

/-! ### New objects -/

/-- An immediate integer needs no room. -/
theorem Sound.allots_small (h : m.Sound s) (k : Int) : Allots s m (.small k) m where
  sound := h
  proper := proper_small k
  fresh _ w hw e := by
    have live := hw.live
    rw [e] at live
    exact absurd live (by simp [Memory.isLive])
  later := .refl _
  kept _ _ := rfl
  registers := rfl
  specials := rfl
  pins := rfl

theorem Sound.allocate {o : Object} (h : m.Sound s)
    (ho : ∀ x ∈ o.cls :: o.pointers.toList, m.Anchored x) :
    Gives (Action.allocate o) m fun v m' => Allots s m v m' :=
  fun _ _ hrun => allocate_allots h ho hrun

/-- An object without pointers needs nothing but its class. -/
theorem Sound.allocate_raw {o : Object} (h : m.Sound s) (hcls : m.Anchored o.cls)
    (ho : o.pointers = #[]) : Gives (Action.allocate o) m fun v m' => Allots s m v m' := by
  refine h.allocate fun x hx => ?_
  rw [ho] at hx
  rcases List.mem_cons.1 hx with rfl | hx
  · exact hcls
  · exact absurd hx List.not_mem_nil

theorem Sound.makeFloat {bits : UInt64} (h : m.Sound s) :
    Gives (Action.makeFloat bits) m fun v m' => Allots s m v m' :=
  .bind (gives_special (h.allocate_raw (h.anchored_special _) rfl))

theorem Sound.makeString {text : String} (h : m.Sound s) :
    Gives (Action.makeString text) m fun v m' => Allots s m v m' :=
  .bind (gives_special (h.allocate_raw (h.anchored_special _) rfl))

theorem eq_small_of_ofInt? {k : Int} (h : Value.ofInt? k = some v) : v = .small k := by
  simp only [Value.ofInt?, Option.ite_none_right_eq_some, Option.some.injEq] at h
  exact h.2.symm

theorem Sound.positive32 (h : m.Sound s) :
    Gives (Action.positive32 n) m fun v m' => Allots s m v m' := by
  unfold Action.positive32
  cases hn : Value.ofInt? n with
  | some v =>
    obtain rfl := eq_small_of_ofInt? hn
    exact .pure (h.allots_small _)
  | none => exact .bind (gives_special (h.allocate_raw (h.anchored_special _) rfl))

theorem mem_newInstance {cls nil : Value} {spec : InstanceSpec} {count : Nat}
    (hx : x ∈ (Action.newInstance cls nil spec count).cls ::
      (Action.newInstance cls nil spec count).pointers.toList) : x = cls ∨ x = nil := by
  simp only [Action.newInstance] at hx
  split at hx
  · exact .inl (by simpa [Object.ofWords] using hx)
  · split at hx
    · simp only [Object.ofPointers, Array.toList_replicate, List.mem_cons, List.mem_replicate] at hx
      exact hx.imp_right And.right
    · exact .inl (by simpa [Object.ofBytes] using hx)

theorem Sound.instantiate {cls : Value} (h : m.Sound s) (hcls : m.Anchored cls) :
    Gives (Action.instantiate cls n) m fun v m' => Allots s m v m' := by
  refine .bind (.bind (gives_fetchInt fun _ => .pure (.bind (gives_nil ?_))))
  refine h.allocate fun x hx => ?_
  rcases mem_newInstance hx with rfl | rfl
  · exact hcls
  · exact h.anchored_nil

/-- Pins are added at the end. -/
theorem foldl_pin (values : List Value) (memory : Memory) : values.foldl Memory.pin memory =
    { memory with pins := memory.pins ++ values.toArray } := by
  induction values generalizing memory with
  | nil => simp
  | cons x values ih =>
    have happend : memory.pins.push x ++ values.toArray = memory.pins ++ (x :: values).toArray :=
      Array.toList_inj.1 (by simp)
    rw [List.foldl_cons, ih, Memory.pin, ← happend]

/-- The pins are released however the action ends. -/
theorem withPins_eq (values : List Value) (y : Action α) (m : Machine) :
    Action.withPins values y m =
      match y (m.withPins (m.memory.pins ++ values.toArray)) with
      | .ok a m₁ => .ok a (m₁.withPins (m₁.memory.pins.take m.memory.pins.size))
      | .error e m₁ => .error e (m₁.withPins (m₁.memory.pins.take m.memory.pins.size)) := by
  simp only [Action.withPins, foldl_pin]
  rfl

theorem withPins_ok {values : List Value} {y : Action α} {a : α}
    (hrun : Action.withPins values y m = .ok a m') :
    ∃ m₁, y (m.withPins (m.memory.pins ++ values.toArray)) = .ok a m₁ ∧
      m' = m₁.withPins (m₁.memory.pins.take m.memory.pins.size) := by
  rw [withPins_eq] at hrun
  cases hy : y (m.withPins (m.memory.pins ++ values.toArray)) with
  | ok b m₁ =>
    simp only [hy, EStateM.Result.ok.injEq] at hrun
    obtain ⟨rfl, rfl⟩ := hrun
    exact ⟨m₁, rfl, rfl⟩
  | error e m₁ => simp [hy] at hrun

/-- What is pinned is there after an allocation. -/
theorem Sound.withPins_allots {values : List Value} {y : Action Value} (h : m.Sound s)
    (hvalues : ∀ x ∈ values, m.Proper x)
    (hy : ∀ {m₁}, m₁.Sound s → Gives y m₁ fun v m₂ => Allots s m₁ v m₂) :
    Gives (Action.withPins values y) m fun v m' =>
      Allots s m v m' ∧ ∀ x ∈ values, m'.Proper x := by
  intro v m' hrun
  obtain ⟨m₁, hinner, rfl⟩ := withPins_ok hrun
  have hvalues' : ∀ x ∈ values.toArray, m.Proper x := fun x hx =>
    hvalues x (List.mem_toArray.1 hx)
  have halloc := hy (h.pinned hvalues') v m₁ hinner
  refine ⟨halloc.unpin, fun x hx room => ?_⟩
  exact (halloc.anchored (anchored_pinned hvalues' (List.mem_toArray.2 hx))).proper
    ⟨room.size, room.generation⟩

theorem Sound.makePoint {y : Value} (h : m.Sound s) (hx : m.Proper x) (hy : m.Proper y) :
    Gives (Action.makePoint x y) m fun v m' => m'.Safe s ∧ m'.Proper v := by
  refine .bind ((h.withPins_allots ?_ fun h₁ => ?_).mono fun v m₁ h₁ => ?_)
  · intro z hz
    simp only [List.mem_cons, List.not_mem_nil, or_false] at hz
    rcases hz with rfl | rfl
    · exact hx
    · exact hy
  · exact .bind (gives_special (h₁.instantiate (h₁.anchored_special _)))
  · obtain ⟨halloc, hpinned⟩ := h₁
    refine .bind (halloc.sound.toSafe.store (hpinned x (by simp)) fun f₁ => ?_)
    refine .bind (f₁.safe.store (f₁.proper _ (hpinned y (by simp))) fun f₂ => .pure ?_)
    exact ⟨f₂.safe, f₂.proper _ (f₁.proper _ halloc.proper)⟩

/-! ### Returns -/

theorem Safe.senderPathWithin {target : Value} {hops : Nat} (h : m.Safe s)
    (hc : m.Proper context) : Gives (Action.senderPathWithin target hops context) m
      fun path m' => m' = m ∧ ∀ c ∈ path, m.Proper c := by
  induction hops generalizing context with
  | zero =>
    unfold Action.senderPathWithin
    refine .ite (fun _ => .pure ⟨rfl, by simp⟩) fun _ => .bind (gives_nil ?_)
    exact .ite (fun _ => .throw) fun _ => .throw
  | succ hops ih =>
    unfold Action.senderPathWithin
    refine .ite (fun _ => .pure ⟨rfl, by simp⟩) fun _ => .bind (gives_nil ?_)
    refine .ite (fun _ => .throw) fun _ => .bind (h.fetch fun sender hsender => ?_)
    refine .bind ((ih hsender).mono fun path m₁ hpath => .pure ?_)
    refine ⟨hpath.1, fun c hmem => ?_⟩
    rcases List.mem_cons.1 hmem with rfl | hmem
    · exact hc
    · exact hpath.2 c hmem

theorem Safe.recycleContext (h : m.Safe s) (hc : m.Proper context) :
    Gives (Action.recycleContext context) m fun _ m' => Follows s m m' := by
  refine .bind (gives_special (.bind (gives_nil ?_)))
  intro u m' hrun
  simp only [Action.onPool, EStateM.Result.ok.injEq] at hrun
  obtain ⟨-, rfl⟩ := hrun
  exact h.recycled hc

theorem Safe.sever (h : m.Safe s) (hc : m.Proper context) :
    Gives (Action.sever context) m fun _ m' => Follows s m m' := by
  refine .bind (h.nil fun nil hnil => .bind (h.store hnil fun f₁ => ?_))
  refine .bind (f₁.safe.store (f₁.proper _ hnil) fun f₂ => .bind (.get ?_))
  have f₂ := f₁.trans f₂
  refine .ite (fun _ => .bind (f₂.safe.modify ⟨rfl, rfl, rfl, rfl⟩ fun f₃ => ?_))
    fun _ => .pure f₂
  have f₃ := f₂.trans f₃
  exact (f₃.safe.recycleContext (f₃.proper _ hc)).mono fun _ m₄ f₄ => f₃.trans f₄

theorem Safe.severAll {path : List Value} (h : m.Safe s) (hpath : ∀ c ∈ path, m.Proper c) :
    Gives (path.forM Action.sever) m fun _ m' => Follows s m m' :=
  .forM (fun c hc _ f₁ => (f₁.safe.sever (f₁.proper c (hpath c hc))).mono fun _ _ f₂ =>
    f₁.trans f₂) (.refl h)

theorem Safe.returnTo {target : Value} (h : m.Safe s) (hx : m.Proper x) (ht : m.Proper target) :
    Gives (Action.returnTo x target) m fun _ m' => Follows s m m' := by
  refine .bind (gives_nil (.ite (fun _ => .bind .throw) fun _ => ?_))
  refine .bind (h.fetch fun _ _ => .ite (fun _ => .bind .throw) fun _ => ?_)
  refine .bind (.bind (.get (.bind (gives_registers ?_))))
  refine (h.senderPathWithin h.anchored_context.proper).mono fun path m₁ hpath => ?_
  obtain ⟨rfl, hpath⟩ := hpath
  refine .bind ((h.severAll hpath).mono fun _ m₂ f₂ => ?_)
  have f₃ : Follows s m₂ (m₂.withRegisters { m₂.registers with context := target }) :=
    f₂.safe.follows_withRegisters (f₂.proper _ ht) f₂.safe.anchored_home.proper
      f₂.safe.anchored_method.proper f₂.safe.anchored_receiver.proper
  have f₃ := f₂.trans f₃
  refine .bind (.modify ?_)
  refine .bind ((f₃.safe.loadRegisters (f₃.proper _ ht)).mono fun _ m₄ f₄ => ?_)
  have f₄ := f₃.trans f₄
  exact (f₄.safe.push (f₄.proper _ hx)).mono fun _ m₅ f₅ => f₄.trans f₅

end Machine

end Smalltalk
