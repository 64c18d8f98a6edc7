import Mathlib
import Smalltalk.Proofs.Blocks

/-!
# Captured contexts

Contexts that somebody may still refer to are never recycled. Such a context is captured in one of
four ways: it is on the sender chain of the active context, or on that of a context in which a process
was suspended; it is the home context of a block; or it was answered by `thisContext`. A run is made
of activations, captures, blocks that are entered, switches and returns, in any order, and of
instructions that move values to and from the stack in between. Every operation keeps to some deal, and
so does the run.

While a machine runs, a ledger notes what the machine itself does not: which contexts were answered
by `thisContext`, and which have returned.
-/

namespace Smalltalk.Recycling

open Outcome Machine

variable {T : Roles} {L L' : Ledger} {D : Deal} {m m' m'' : Machine} {v x c process : Value}
  {i n number : Nat}

/-! ### Operations -/

/-- A primitive that leaves the send to the method has only made room. -/
theorem gives_tryPrimitive : Gives (Action.tryPrimitive number n) m fun trial m' =>
    trial = .unhandled → m.Undone m' := by
  have handled : ∀ {y : Action Unit}, Gives (do y; return .handled : Action Action.Trial) m
      fun trial m' => trial = .unhandled → m.Undone m' := fun {y} =>
    .bind fun _ _ _ => .pure fun e => absurd e (by decide)
  unfold Action.tryPrimitive
  refine .ite (fun _ => ?_) fun _ => ?_
  · refine .ite (fun _ => .pure fun e => absurd e (by decide)) fun _ => .bind (.get ?_)
    split
    · exact handled
    · refine .bind fun _ m₁ hread => ?_
      obtain ⟨-, rfl⟩ := Action.top_ok.1 hread
      refine .bind (gives_object? ?_)
      split
      · exact handled
      · exact .pure fun _ => .refl m
  · split
    · exact .pure fun _ => .refl m
    · rename_i p hp
      refine .bind (gives_run? (fun a m₁ _ => ?_) fun m₁ hdeclined => ?_)
      · cases a with
        | done => exact .pure fun e => absurd e (by decide)
        | resend selector count cls => exact .pure fun e => absurd e (by simp)
      · have hundone := Primitive.all_yield p (Primitive.mem_all_of_find? hp) n m m₁ hdeclined
        refine .bind fun _ m₂ hcount => ?_
        obtain rfl := Action.modifyCounters_ok.1 hcount
        exact .pure fun _ => hundone.trans (.of_memory rfl rfl rfl rfl rfl)

namespace Running

/-- The active context is handed out, so the frames are given up. -/
theorem pushContext (h : Running T L D m) : Gives (Action.execute .pushContext) m fun _ m' =>
    Runs T (L.know [m.registers.context]) m' := by
  refine .bind (.modify (.bind (gives_registers fun _ m' hpush => ?_)))
  obtain ⟨-, rfl⟩ := Action.push_ok.1 hpush
  have hs := h.toSealed.release
  have hheld := h.toHeld.release
  have hcontext : Open D.release m m.registers.context := by
    rw [h.context, ← D.release_top]
    exact hs.base.1
  have hknown : Sealed T (L.know [m.registers.context]) D.release m :=
    hs.know fun y hy => by rwa [List.mem_singleton.1 hy]
  have hreset : Sealed T (L.know [m.registers.context]) D.release { m with reclaimable := 0 } :=
    hknown.congr rfl rfl rfl rfl
  exact ⟨D.release, hreset.running_pushed ⟨hheld.context, hheld.home, hheld.home_sender,
    hheld.receiver⟩ hcontext (Nat.zero_le _)⟩

/-- The block that is made takes the place of its operands. -/
theorem quickBlockCopy (h : Running T L D m) :
    Gives (Action.quickly n Attempt.blockCopy) m fun taken m' => taken = true →
      m'.memory.slots.size ≤ 0x100000000 → Runs T L m' := by
  refine .bind (gives_run? (h.blockCopy.mono fun block m₁ h₁ => ?_) fun _ _ => ?_)
  · refine .bind fun _ m₂ hanswer => .pure fun _ room => ?_
    obtain ⟨-, -, rfl⟩ := Action.popThenPush_ok.1 hanswer
    have hsize : m₁.memory.slots.size ≤ 0x100000000 := by
      rw [← slots_size_modify m₁.memory]
      exact room
    obtain ⟨D', -, hs, hheld, hblock, hzero⟩ := h₁ hsize
    refine ⟨D', (hs.withRegisters (r := _)).running_pushed ⟨hheld.context, hheld.home,
      hheld.home_sender, hheld.receiver⟩ hblock ?_⟩
    exact Nat.le_trans (Nat.le_of_eq hzero) (Nat.zero_le _)
  · exact .pure fun e => absurd e (by decide)

/-- What is taken off the stack may be known. -/
theorem open_of_pop (h : Running T L D m)
    (hx : m.memory.cell m.registers.context m.registers.sp = some x) : Open D m x := by
  rw [h.context] at hx
  refine h.open_of_top (fun hf => ?_) hx
  exact Nat.ne_of_gt (h.sp hf)

theorem gives_constantValue {c : Constant} {Q : Value → Machine → Prop} (h : Running T L D m)
    (hQ : ∀ x, Open D m x → Q x m) : Gives (Action.constantValue c) m Q := by
  cases c with
  | receiver => exact .bind (gives_registers (.pure (hQ _ h.receiver)))
  | true => exact gives_truth (hQ _ (h.open_of_role (h.truth _)))
  | false => exact gives_truth (hQ _ (h.open_of_role (h.truth _)))
  | nil =>
    refine gives_nil (hQ _ ?_)
    rw [h.nil]
    exact h.open_nil
  | integer k => exact .pure (hQ _ (h.open_small k))

end Running

/-- The instructions that return: from the home context, or from the active one. -/
def returns : Instruction → Bool
  | .returnConstant _ | .returnTop | .blockReturn => true
  | _ => false

theorem Running.execute_return {instruction : Instruction} (h : Running T L D m)
    (hreturns : returns instruction = true) : Gives (Action.execute instruction) m fun _ m' =>
      ∃ path, Way m m' path ∧ Runs T (L.leave path) m' := by
  -- taking the value off the stack changes neither objects nor the active context
  have unwind : ∀ {k value target}, Open D m value →
      Gives (Action.returnTo value target) (Action.popped m k) fun _ m' =>
        ∃ path, Way m m' path ∧ Runs T (L.leave path) m' := fun hvalue =>
    h.toSealed.withRegisters.returnTo h.context h.spare hvalue
  have pop : ∀ {Q : Value → Machine → Prop}, (∀ x, Open D m x → Q x (Action.popped m 1)) →
      Gives Action.pop m Q := by
    intro Q hQ x m₁ hpop
    obtain ⟨hx, -, rfl⟩ := Action.pop_ok.1 hpop
    exact hQ x (h.open_of_pop hx)
  cases instruction with
  | returnConstant c =>
    refine .bind (h.gives_constantValue fun value hvalue => .bind (gives_registers ?_))
    exact .bind (Machine.gives_fetch fun target _ => unwind (k := 0) hvalue)
  | returnTop =>
    refine .bind (pop fun value hvalue => .bind (gives_registers ?_))
    exact .bind (Machine.gives_fetch fun target _ => unwind hvalue)
  | blockReturn =>
    refine .bind (pop fun value hvalue => .bind (gives_registers ?_))
    exact .bind (Machine.gives_fetch fun target _ => unwind hvalue)
  | _ => exact absurd hreturns (by simp [returns])

/-! ### Moves -/

/-- A value may be stored into a field: the field is no sender, and it keeps to the roles. -/
structure Admits (T : Roles) (w : Value) (i : Nat) (x : Value) : Prop where
  array : T.role w ≠ .array
  sender : T.role w = .context → i ≠ Context.sender
  fits : T.Fits w i x

/-- A value may be stored into a variable. -/
def AdmitsIn (T : Roles) (m : Machine) (x : Value) : Variable → Prop
  | .field i => Admits T m.registers.receiver i x
  | .temporary i => Admits T m.registers.home (Context.frameStart + i) x
  | .literal _ => True
  | .global i => ∀ association, m.memory.cell m.registers.method (i + 1) = some association →
      Admits T association Association.value x

/-- An instruction only moves values to and from the stack, or the program counter: it sends nothing, and
it neither reads nor changes the sender of a context. -/
inductive Moves (T : Roles) (m : Machine) : Instruction → Prop
  | push {place : Variable} (reads : ∀ i, place = .field i → T.role m.registers.receiver = .context →
      i ≠ Context.sender) : Moves T m (.push place)
  | pushConstant {c : Constant} : Moves T m (.pushConstant c)
  | store {place : Variable} (admits : ∀ x, m.memory.cell m.registers.context m.registers.sp = some x →
      AdmitsIn T m x place) : Moves T m (.store place)
  | popInto {place : Variable} (deep : 1 < m.registers.sp)
      (admits : ∀ x, m.memory.cell m.registers.context m.registers.sp = some x →
        AdmitsIn T m x place) : Moves T m (.popInto place)
  | pop (deep : 1 < m.registers.sp) : Moves T m .pop
  | duplicate : Moves T m .duplicate
  | jump {offset : Int} : Moves T m (.jump offset)
  | longJump {offset : Int} : Moves T m (.longJump offset)
  | jumpIf {condition : Bool} {offset : Int} (deep : 1 < m.registers.sp)
      (silent : ∀ a, ¬ Instruction.Sends m a (.jumpIf condition offset)) :
      Moves T m (.jumpIf condition offset)

namespace Running

/-- The program counter and the top of the stack may be moved. -/
theorem withStack {pc sp : Nat} (h : Running T L D m) (hsp : 1 ≤ sp) :
    Running T L D (m.withRegisters { m.registers with pc, sp }) :=
  ⟨h.toSealed.withRegisters, ⟨h.context, h.home, h.home_sender, h.receiver⟩, h.spare, fun _ => hsp⟩

theorem advances (h : Running T L D m) (e : Advances m m')
    (reclaimable : m'.reclaimable = m.reclaimable) : Running T L D m' := by
  obtain ⟨pc, hpc⟩ := e.registers
  have hmoved : Running T L D (m.withRegisters { m.registers with pc }) :=
    ⟨h.toSealed.withRegisters, ⟨h.context, h.home, h.home_sender, h.receiver⟩, h.spare, h.sp⟩
  exact hmoved.alike e.memory hpc e.specials e.pool reclaimable

/-- What is read from anything but the sender of a context may be known. -/
theorem gives_read {Q : Value → Machine → Prop} (h : Running T L D m)
    (hi : T.role v = .context → i ≠ Context.sender) (hQ : ∀ x, Open D m x → Q x m) :
    Gives (Action.fetch v i) m Q := by
  refine Machine.gives_fetch fun x hx => hQ x ⟨h.issued v i x hx, fun hp => ?_⟩
  obtain ⟨hsender, hbefore⟩ := h.guarded v i x hx hp
  refine hi ?_ hsender
  rcases hbefore with ⟨k, hpair⟩ | ⟨hlost, -⟩
  · exact h.role k v (mem_of_pair hpair).1
  · exact (h.lost v hlost).2.1

theorem gives_readVariable {place : Variable} {Q : Value → Machine → Prop} (h : Running T L D m)
    (reads : ∀ i, place = .field i → T.role m.registers.receiver = .context → i ≠ Context.sender)
    (hQ : ∀ x, Open D m x → Q x m) : Gives (Action.readVariable place) m Q := by
  cases place with
  | field i => exact .bind (gives_registers (h.gives_read (reads i rfl) hQ))
  | temporary i =>
    refine .bind (gives_registers (h.gives_read (fun _ => ?_) hQ))
    simp [Context.frameStart, Context.sender]
  | literal i => exact .bind (gives_registers (h.gives_read (fun _ => Nat.succ_ne_zero i) hQ))
  | global i =>
    refine .bind fun association m₁ hliteral => ?_
    obtain ⟨-, rfl⟩ := Action.literal_ok hliteral
    exact h.gives_read (fun _ => by decide) hQ

theorem store (h : Running T L D m) (admits : Admits T v i x) (hx : Open D m x) :
    Gives (Action.store v i x) m fun _ m' => Running T L D m' :=
  Machine.gives_store fun _ hy => h.of_setCell (h.setCell (h.ne_nil_of_cell hy) admits.array
    admits.fits hx fun hrole hi => absurd hi (admits.sender hrole))

theorem writeVariable {place : Variable} (h : Running T L D m) (admits : AdmitsIn T m x place)
    (hx : Open D m x) : Gives (Action.writeVariable x place) m fun _ m' => Running T L D m' := by
  cases place with
  | field i => exact .bind (gives_registers (h.store admits hx))
  | temporary i => exact .bind (gives_registers (h.store admits hx))
  | literal i => exact .bind (gives_registers .throw)
  | global i =>
    refine .bind fun association m₁ hliteral => ?_
    obtain ⟨hassociation, rfl⟩ := Action.literal_ok hliteral
    exact h.store (admits association hassociation) hx

theorem push (h : Running T L D m) (hx : Open D m x) :
    Gives (Action.push x) m fun _ m' => Runs T L m' := by
  intro _ m' hpush
  obtain ⟨-, rfl⟩ := Action.push_ok.1 hpush
  exact ⟨D, h.toSealed.running_pushed h.toHeld hx h.spare⟩

theorem jump {offset : Int} (h : Running T L D m) :
    Gives (Action.jump offset) m fun _ m' => Running T L D m' := by
  refine .bind (gives_registers (.ite (fun _ => .bind .throw) fun _ => .modify ?_))
  exact h.advances ⟨rfl, rfl, rfl, _, rfl⟩ rfl

/-- What is taken off the stack may be known, and something is left. -/
theorem gives_pop {Q : Value → Machine → Prop} (h : Running T L D m) (deep : 1 < m.registers.sp)
    (hQ : ∀ x, m.memory.cell m.registers.context m.registers.sp = some x → Open D m x →
      Running T L D (Action.popped m 1) → Q x (Action.popped m 1)) : Gives Action.pop m Q := by
  intro x m₁ hpop
  obtain ⟨hx, -, rfl⟩ := Action.pop_ok.1 hpop
  exact hQ x hx (h.open_of_pop hx) (h.withStack (Nat.le_sub_one_of_lt deep))

/-- An instruction that moves values keeps to the deal. -/
theorem moves {instruction : Instruction} (h : Running T L D m) (moves : Moves T m instruction) :
    Gives (Action.execute instruction) m fun _ m' => Runs T L m' := by
  have same {y : Action Unit} {m₁ : Machine} (hy : Gives y m₁ fun _ m' => Running T L D m') :
      Gives y m₁ fun _ m' => Runs T L m' := hy.mono fun _ _ hrunning => ⟨D, hrunning⟩
  cases moves with
  | push reads => exact .bind (h.gives_readVariable reads fun x hx => h.push hx)
  | pushConstant => exact .bind (h.gives_constantValue fun x hx => h.push hx)
  | store admits =>
    refine .bind fun x m₁ htop => ?_
    obtain ⟨hx, rfl⟩ := Action.top_ok.1 htop
    exact same (h.writeVariable (admits x hx) (h.open_of_pop hx))
  | popInto deep admits =>
    exact .bind (h.gives_pop deep fun x hx hopen h₁ => same (h₁.writeVariable (admits x hx) hopen))
  | pop deep => exact .bind (h.gives_pop deep fun x _ _ h₁ => .pure ⟨D, h₁⟩)
  | duplicate =>
    refine .bind fun x m₁ htop => ?_
    obtain ⟨hx, rfl⟩ := Action.top_ok.1 htop
    exact h.push (h.open_of_pop hx)
  | jump => exact same h.jump
  | longJump =>
    exact .bind (h.jump.mono fun _ _ h₁ => .ite (fun _ => h₁.checkInterrupts) fun _ => .pure ⟨D, h₁⟩)
  | jumpIf deep silent =>
    intro u m' hrun
    rcases Action.jumpIf_late Action.late_ok hrun with ⟨a, hsends⟩ | ⟨x, m₁, hpop, hend⟩
    · exact absurd hsends (silent a)
    have h₁ : Running T L D m₁ := h.gives_pop (Q := fun _ m₁ => Running T L D m₁) deep
      (fun _ _ _ h₁ => h₁) x m₁ hpop
    rcases hend with hjump | hend
    · exact ⟨D, h₁.jump u m' hjump.symm⟩
    · obtain rfl := (EStateM.Result.ok.inj hend).2
      exact ⟨D, h₁⟩

end Running

/-! ### Runs -/

/-- One operation of a run, and what the ledger notes of it. -/
inductive Step (T : Roles) (L : Ledger) (m : Machine) : Ledger → Machine → Prop
  /-- A method is activated, as it has no primitive or its primitive declines. An interrupt may
  follow. -/
  | activate {receiver method : Value} {number n : Nat} {m₁ m₂ m' : Machine}
      (found : Action.stackValue n m = .ok receiver m)
      (declined : number = 0 ∧ m₁ = m ∨ Action.tryPrimitive number n m = .ok .unhandled m₁)
      (entered : Action.enterMethod receiver method n m₁ = .ok () m₂)
      (room : m₂.memory.slots.size ≤ 0x100000000)
      (checked : Action.checkInterrupts m₂ = .ok () m') :
      Step T L m (L.enter m₂.registers.context) m'
  /-- The active context is answered. -/
  | answer {m' : Machine} (pushed : Action.execute .pushContext m = .ok () m') :
      Step T L m (L.know [m.registers.context]) m'
  /-- A block is made. -/
  | blockCopy {m' : Machine} (made : Action.quickly 2 Attempt.blockCopy m = .ok true m')
      (room : m'.memory.slots.size ≤ 0x100000000) : Step T L m L m'
  /-- A block is entered that is not on the sender chain already. -/
  | blockValue {n : Nat} {m' : Machine} (entered : Attempt.blockValue n m = .ok () m')
      (unchained : ∀ block, m.memory.cell m.registers.context (m.registers.sp - n) = some block →
        ¬ OnChain m.memory.cell m.registers.context block) :
      Step T L m (L.enter m'.registers.context) m'
  /-- Another process goes on. -/
  | transferTo {process : Value} {m' : Machine} (allowed : T.Allows .process process)
      (transferred : Action.transferTo process m = .ok () m') : Step T L m L m'
  /-- A method or a block returns. -/
  | leave {instruction : Instruction} {path : List Value} {m' : Machine}
      (hreturns : returns instruction = true)
      (returned : Action.execute instruction m = .ok () m') (way : Way m m' path) :
      Step T L m (L.leave path) m'
  /-- Values are moved to and from the stack, or the program counter is. -/
  | move {instruction : Instruction} {m' : Machine} (moves : Moves T m instruction)
      (moved : Action.execute instruction m = .ok () m') : Step T L m L m'
  /-- An instruction is fetched, or something is looked up or counted. -/
  | advance {m' : Machine} (advances : Advances m m') (reclaimable : m'.reclaimable = m.reclaimable) :
      Step T L m L m'
  /-- Time goes by. -/
  | elapse {m' : Machine} (elapsed : m.Elapses m') : Step T L m L m'

/-- The ledger before anything is noticed. -/
def Ledger.empty : Ledger := ⟨fun _ => False, fun _ => False⟩

/-- A run from a machine, with what the ledger has noted by then. -/
inductive Run (T : Roles) (m : Machine) : Ledger → Machine → Prop
  | start : Run T m .empty m
  | step {L L' : Ledger} {m₁ m₂ : Machine} : Run T m L m₁ → Step T L m₁ L' m₂ → Run T m L' m₂

/-- A machine before its first activation. Sender chains may be of any form. -/
structure Start (T : Roles) (m : Machine) : Prop extends Typed T m where
  pool : ∀ large, m.pool.head large = none
  reclaimable : m.reclaimable = 0
  context : T.role m.registers.context = .context ∧ m.memory.Issued m.registers.context
  home : ∃ y, m.memory.cell m.registers.home Context.sender = some y
  receiver : m.memory.Issued m.registers.receiver

/-- With no frames and an empty pool there is nothing private. -/
theorem Start.runs (h : Start T m) : Runs T .empty m := by
  obtain ⟨y, hy⟩ := h.home
  have hpublic : ∀ {x}, m.memory.Issued x →
      Open ⟨m.registers.context, fun _ => [], [], fun _ => False⟩ m x := by
    refine fun hx => ⟨hx, ?_⟩
    rintro (⟨⟨k, hk⟩, -⟩ | hlost)
    · exact absurd hk List.not_mem_nil
    · exact hlost
  refine ⟨⟨m.registers.context, fun _ => [], [], fun _ => False⟩, ⟨h.toTyped, ?_, ?_, ?_, ?_, ?_, ?_,
    ?_, ?_, ?_, ?_, ?_, ?_⟩, ⟨rfl, .inr ?_, h.home, hpublic h.receiver⟩, ?_, ?_⟩
  · intro w i x hx hp
    exact absurd hp (hpublic (h.issued w i x hx)).2
  · exact fun _ => trivial
  · exact fun _ => List.nodup_nil
  · exact fun hx => absurd hx List.not_mem_nil
  · exact fun _ _ hx => absurd hx List.not_mem_nil
  · exact ⟨hpublic h.context.2, h.context.1⟩
  · exact fun _ hx => absurd hx List.not_mem_nil
  · exact fun _ _ hx => absurd hx List.not_mem_nil
  · exact fun _ hx => hx.elim
  · exact h.pool
  · exact fun _ hx => hx.elim
  · exact fun _ hx => hx.elim
  · exact hpublic (Memory.issued_of_isLive (Memory.isLive_of_cell hy))
  · exact Nat.le_trans (Nat.le_of_eq h.reclaimable) (Nat.zero_le _)
  · exact fun hne => absurd rfl hne

/-- Each operation keeps to some deal. -/
theorem Step.runs (h : Runs T L m) (hstep : Step T L m L' m') : Runs T L' m' := by
  obtain ⟨D, h⟩ := h
  cases hstep with
  | @activate receiver method number n m₁ m₂ _ found declined entered room checked =>
    have hundone : m.Undone m₁ := by
      rcases declined with ⟨-, rfl⟩ | hdeclined
      · exact .refl _
      · exact gives_tryPrimitive _ _ hdeclined rfl
    obtain ⟨hle, hcell, -⟩ := Action.stackValue_ok.1 found
    obtain ⟨D₁, hnarrows, h₁⟩ := h.spares hundone.toSpares
    have hreceiver : n + 1 ≤ m₁.registers.sp → Open D₁ m₁ receiver := by
      intro hsp
      rw [hundone.toSpares.registers] at hsp
      have hopen := h.open_of_cell hcell (by simp only [Context.sender]; omega)
      exact ⟨hundone.toSpares.later.issued hopen.1, fun hp => hopen.2 (hnarrows.hides _ hp)⟩
    obtain ⟨D₂, h₂⟩ := h₁.enterMethod hreceiver () m₂ entered room
    exact h₂.checkInterrupts () m' checked
  | answer pushed => exact h.pushContext () m' pushed
  | blockCopy made room => exact h.quickBlockCopy true m' made rfl room
  | blockValue entered unchained => exact h.blockValue unchained () m' entered
  | transferTo allowed transferred => exact h.transferTo allowed () m' transferred
  | leave hreturns returned way =>
    obtain ⟨path', way', hruns⟩ := h.execute_return hreturns () m' returned
    rwa [way.unique way']
  | move moves moved => exact h.moves moves () m' moved
  | advance advances reclaimable => exact ⟨D, h.advances advances reclaimable⟩
  | elapse elapsed =>
    obtain ⟨clock, interrupts, devices, rfl⟩ := elapsed
    exact ⟨D, { h with toSealed := h.toSealed.congr rfl rfl rfl rfl }⟩

theorem Run.runs (h : Start T m) (hrun : Run T m L m') : Runs T L m' := by
  induction hrun with
  | start => exact h.runs
  | step _ hstep ih => exact hstep.runs ih

/-! ### Captured contexts -/

/-- Whether somebody may still refer to a context. -/
inductive Captured (L : Ledger) (m : Machine) (x : Value) : Prop
  /-- It is on the sender chain of the active context. -/
  | active (h : OnChain m.memory.cell m.registers.context x)
  /-- It is on the sender chain of a context in which a process was suspended. -/
  | suspended {process c : Value} (hc : m.memory.cell process Process.suspendedContext = some c)
      (h : OnChain m.memory.cell c x)
  /-- It is the home context of a block. -/
  | home {block : Value} (h : m.memory.cell block Context.home = some x)
  /-- It was answered by `thisContext`. -/
  | answered (h : L.known x)

/-- The contexts that wait in the pool, in their order. -/
structure FreeLists (m : Machine) (free : Bool → List Value) : Prop where
  head : ∀ large, m.pool.head large = (free large).head?
  strung : ∀ large, Strung m.memory.cell m.specials.nil (free large)
  some : ∀ large, m.specials.nil ∉ free large

namespace Sealed

/-- Only a hidden context has a hidden one on its sender chain. -/
theorem hidden_of_onChain (h : Sealed T L D m) (hc : OnChain m.memory.cell c x)
    (hx : D.Hidden x) : D.Hidden c := by
  obtain ⟨path, hhead, hpath⟩ := hc
  induction path generalizing c with
  | nil =>
    obtain rfl : x = c := hhead
    exact hx
  | cons p path ih =>
    obtain rfl : p = c := hhead
    exact (h.hidden_of_cell hpath.1 (ih rfl hpath.2)).2

/-- What is captured is in use. -/
theorem not_hidden (h : Sealed T L D m) (hcontext : m.registers.context = D.top)
    (hx : Captured L m x) : ¬ D.Hidden x := by
  intro hhidden
  cases hx with
  | active hchain => exact h.not_hidden_top (hcontext ▸ h.hidden_of_onChain hchain hhidden)
  | suspended hc hchain =>
    exact absurd (h.hidden_of_cell hc (h.hidden_of_onChain hchain hhidden)).1 (by decide)
  | home hcell => exact absurd (h.hidden_of_cell hcell hhidden).1 (by decide)
  | answered hknown => exact (h.heard x hknown).2 (h.private_of_hidden hhidden)

theorem freeLists (h : Sealed T L D m) : FreeLists m fun large => D.line (.waiting large) where
  head := h.head
  strung large := by
    rw [h.nil]
    exact h.strung (.waiting large)
  some large hx := by
    rw [h.nil] at hx
    exact Roles.ne_nil (h.role _ _ hx) rfl

end Sealed

/-- A home context that has returned has nobody to return to. -/
theorem Running.home_sender_nil (h : Running T L D m) (hhome : L.returned m.registers.home) :
    m.memory.cell m.registers.home Context.sender = some m.specials.nil := by
  obtain ⟨y, hy⟩ := h.home_sender
  rw [h.nil]
  rcases h.gone _ hhome with hhidden | ⟨-, -, hsender⟩
  · rcases h.home with htop | hopen
    · rw [htop] at hhidden
      exact absurd hhidden h.not_hidden_top
    · exact absurd (h.private_of_hidden hhidden) hopen.2
  · rw [hy, hsender y hy]

theorem returnTo_nil (m : Machine) (x : Value) : Action.returnTo x m.specials.nil m =
    .error (.cannotReturn m.specials.nil) m := by
  refine bind_error.2 (.inr ⟨_, m, Action.nil_ok.2 ⟨rfl, rfl⟩, ?_⟩)
  rw [if_pos rfl]
  rfl

theorem constantValue_ok (m : Machine) (c : Constant) : ∃ x, Action.constantValue c m = .ok x m := by
  cases c <;> exact ⟨_, rfl⟩

/-- A captured context is never recycled, and none is on the free lists twice. So a home context that
has returned is not mistaken for another one: a method return from one of its blocks fails. -/
theorem captured_never_recycled (h : Start T m) (hrun : Run T m L m') :
    (∃ free, FreeLists m' free ∧ (free false ++ free true).Nodup ∧
      ∀ large, ∀ x ∈ free large, ¬ Captured L m' x) ∧
    (L.returned m'.registers.home →
      (∀ c, Action.execute (.returnConstant c) m' =
        .error (.cannotReturn m'.specials.nil) m') ∧
      ∀ x m₁, Action.pop m' = .ok x m₁ →
        Action.execute .returnTop m' = .error (.cannotReturn m'.specials.nil) m₁) := by
  obtain ⟨D, hD⟩ := hrun.runs h
  refine ⟨⟨_, hD.freeLists, ?_, fun large x hx hcaptured => ?_⟩, fun hhome => ⟨fun c => ?_, fun x m₁ hpop => ?_⟩⟩
  · refine List.nodup_append.2 ⟨hD.once _, hD.once _, fun x hx y hy => ?_⟩
    rintro rfl
    exact absurd (hD.apart hx hy) (by simp)
  · exact hD.not_hidden hD.context hcaptured (.inl ⟨large, hx⟩)
  · obtain ⟨x, hx⟩ := constantValue_ok m' c
    have hsender := Action.fetch_ok.2 ⟨hD.home_sender_nil hhome, rfl⟩
    refine bind_error.2 (.inr ⟨x, m', hx, bind_error.2 (.inr ⟨_, m', Action.registers_ok.2 ⟨rfl, rfl⟩, ?_⟩)⟩)
    exact bind_error.2 (.inr ⟨_, m', hsender, returnTo_nil m' x⟩)
  · obtain ⟨-, -, rfl⟩ := Action.pop_ok.1 hpop
    have hsender : Action.fetch m'.registers.home Context.sender (Action.popped m' 1) = _ :=
      Action.fetch_ok.2 ⟨hD.home_sender_nil hhome, rfl⟩
    refine bind_error.2 (.inr ⟨x, Action.popped m' 1, hpop, bind_error.2 (.inr ⟨_, _, Action.registers_ok.2 ⟨rfl, rfl⟩, ?_⟩)⟩)
    exact bind_error.2 (.inr ⟨_, _, hsender, returnTo_nil (Action.popped m' 1) x⟩)

/-! ### A small run -/

/-- It is enough to look at the objects in the table. -/
theorem forall_cell {memory : Memory} {P : Value → Nat → Value → Prop} (h : memory.Tabled)
    (hP : ∀ w ∈ memory.table.toList, ∀ o ∈ (memory.get? w).toList,
      ∀ p ∈ o.pointers.toList.zipIdx, P w p.2 p.1) (hx : memory.cell v i = some x) : P v i x := by
  obtain ⟨o, ho, hx⟩ := Memory.cell_eq_some.1 hx
  refine h.of_table hP ho (x, i) ?_
  rw [List.mem_zipIdx_iff_getElem?, Array.getElem?_toList]
  exact hx

/-- Nil, the special objects, the two classes of contexts, a method with a temporary, and the context
in which it is active. -/
def stairObjects : List Object :=
  let nil : Value := .ref 0 0
  let pointers cls format fields := Object.ofPointers cls format (List.toArray fields)
  [pointers nil .empty [],
    pointers nil .indexable (List.replicate 10 nil ++ [.ref 2 0, .ref 3 0]),
    pointers nil .empty [], pointers nil .empty [],
    .ofMethod nil #[.small (MethodHeader.encode 0 1 0 false 0).word] #[],
    pointers (.ref 2 0) .indexable ([nil, .small 5, .small 1, .ref 4 0, nil, nil, .small 7] ++
      List.replicate 16 nil)]

/-- A machine about to activate a method. -/
def stair : Machine :=
  let nil : Value := .ref 0 0
  let m := Machine.create (filled (.empty .standard) stairObjects)
    { array := .ref 1 0, nil, falseObject := nil, trueObject := nil } {} default
  m.withRegisters { m.registers with
    context := .ref 5 0
    home := .ref 5 0
    method := .ref 4 0
    sp := 6 }

theorem wellFormed_stair : stair.memory.WellFormed :=
  wellFormed_filled (Memory.wellFormed_empty _) (by decide +kernel)

/-- All objects that are made later are contexts. -/
def stairRoles : Roles where
  nil := .ref 0 0
  array := .ref 1 0
  methodClass := .ref 2 0
  blockClass := .ref 3 0
  role
    | .small _ => .other
    | .ref index generation =>
      if index.toNat < 5 ∧ generation = 0 then if index = 1 then .array else .other else .context
  nil_reference := rfl
  nil_role := rfl
  array_role := rfl
  small_role _ := rfl
  classes := by decide

theorem start_stair : Start stairRoles stair where
  nil := rfl
  array := rfl
  truth b := by cases b <;> decide
  methodClass := by decide +kernel
  blockClass := by decide +kernel
  stocked := wellFormed_stair.toStocked
  bare i := by
    have hfields : (stair.memory.get? (.ref 0 0)).map Object.pointers = some #[] := by decide +kernel
    obtain ⟨o, ho, hnone⟩ := Option.map_eq_some_iff.1 hfields
    change stair.memory.cell (.ref 0 0) i = none
    rw [Memory.cell, ho, Option.bind_some, hnone, Array.getElem?_empty]
  fits w i x hx := by
    refine forall_cell (P := fun w i x => stairRoles.Fits w i x) wellFormed_stair.toTabled ?_ hx
    have hcheck : ∀ w ∈ stair.memory.table.toList, ∀ o ∈ (stair.memory.get? w).toList,
        ∀ p ∈ o.pointers.toList.zipIdx, ∀ r ∈ (stairRoles.role w).field p.2,
          p.1 = stairRoles.nil ∨ stairRoles.role p.1 = r := by decide +kernel
    exact fun w hw o ho p hp r hr => hcheck w hw o ho p hp r hr
  issued w i x hx := by
    have hlive : x.isSmall = true ∨ stair.memory.isLive x = true :=
      forall_cell (P := fun _ _ x => x.isSmall = true ∨ stair.memory.isLive x = true)
        wellFormed_stair.toTabled (by decide +kernel) hx
    rcases hlive with hsmall | hlive
    · cases x with
      | small n => trivial
      | ref index generation => exact absurd hsmall (by simp [Value.isSmall])
    · exact Memory.issued_of_isLive hlive
  known v hv := by
    cases v with
    | small n => trivial
    | ref index generation =>
      simp only [stairRoles] at hv
      split at hv
      · rename_i hlow
        obtain ⟨hlt, rfl⟩ := hlow
        have hlive : ∀ k < 5, stair.memory.isLive (.ref (UInt32.ofNat k) 0) = true := by
          decide +kernel
        have hindex := hlive index.toNat hlt
        rw [UInt32.ofNat_toNat] at hindex
        exact Memory.issued_of_isLive hindex
      · exact absurd rfl hv
  block w ps hs hps := by
    obtain ⟨o, ho, hcls, -⟩ := Memory.shape_eq_some.1 hs
    have hcheck : ∀ w ∈ stair.memory.table.toList, ∀ o ∈ (stair.memory.get? w).toList,
        o.cls ≠ stairRoles.blockClass := by decide +kernel
    exact absurd hcls (wellFormed_stair.toTabled.of_table hcheck ho)
  pool large := by cases large <;> rfl
  reclaimable := rfl
  context := ⟨rfl, Memory.issued_of_isLive (by decide +kernel)⟩
  home := ⟨.ref 0 0, by decide +kernel⟩
  receiver := Memory.issued_of_isLive (by decide +kernel)

/-- Where an action ends. -/
def landing (y : Action Unit) (m : Machine) : Machine :=
  match y m with
  | .ok _ m' => m'
  | .error _ m' => m'

theorem ok_landing {y : Action Unit} (h : y.leads m (fun _ _ => true) = true) :
    y m = .ok () (landing y m) := by
  obtain ⟨_, m', hrun, -⟩ := Action.exists_of_leads h
  rw [landing, hrun]

/-- The machine after the method was activated, and when its interrupts were looked at. -/
def climbed (receiver : Value) (m : Machine) : Machine :=
  landing Action.checkInterrupts (landing (Action.enterMethod receiver (.ref 4 0) 0) m)

theorem Run.climbed {receiver : Value} {entered : Machine} (h : Run stairRoles stair L m)
    (found : Action.stackValue 0 m = .ok receiver m)
    (he : landing (Action.enterMethod receiver (.ref 4 0) 0) m = entered)
    (enters : (Action.enterMethod receiver (.ref 4 0) 0).leads m (fun _ _ => true) = true)
    (room : entered.memory.slots.size ≤ 0x100000000)
    (checks : Action.checkInterrupts.leads entered (fun _ _ => true) = true) :
    Run stairRoles stair (L.enter entered.registers.context) (climbed receiver m) := by
  subst he
  have declined : 0 = 0 ∧ m = m ∨ Action.tryPrimitive 0 0 m = .ok .unhandled m := .inl ⟨rfl, rfl⟩
  exact h.step (.activate found declined (ok_landing enters) room (ok_landing checks))

/-- Two activations. -/
def upstairs : Machine := climbed (.ref 0 0) (climbed (.small 7) stair)

theorem run_upstairs : ∃ L, Run stairRoles stair L upstairs := by
  have hfirst : ∃ L, Run stairRoles stair L (climbed (.small 7) stair) := by
    refine ⟨_, Run.start.climbed (Action.stackValue_ok.2 ⟨?_, ?_, rfl⟩) rfl ?_ ?_ ?_⟩
    all_goals decide +kernel
  obtain ⟨L, hfirst⟩ := hfirst
  refine ⟨_, hfirst.climbed (Action.stackValue_ok.2 ⟨?_, ?_, rfl⟩) rfl ?_ ?_ ?_⟩
  all_goals decide +kernel

/-- The second context is recycled when it returns, and the first one goes on. -/
theorem captured_never_recycled_stair : Start stairRoles stair ∧
    ∃ L m', Run stairRoles stair L m' ∧
      (m'.pool.small = some (.ref 7 0) ∧ m'.registers.context = .ref 6 0) ∧
      (∃ free, FreeLists m' free ∧ (free false ++ free true).Nodup ∧
        ∀ large, ∀ x ∈ free large, ¬ Captured L m' x) ∧
      (L.returned m'.registers.home →
        (∀ c, Action.execute (.returnConstant c) m' =
          .error (.cannotReturn m'.specials.nil) m') ∧
        ∀ x m₁, Action.pop m' = .ok x m₁ →
          Action.execute .returnTop m' = .error (.cannotReturn m'.specials.nil) m₁) := by
  obtain ⟨L, hup⟩ := run_upstairs
  have hreturn : Action.execute (.returnConstant .receiver) upstairs =
      .ok () (landing (Action.execute (.returnConstant .receiver)) upstairs) :=
    ok_landing (by decide +kernel)
  obtain ⟨D, hD⟩ := hup.runs start_stair
  obtain ⟨path, way, -⟩ := hD.execute_return rfl () _ hreturn
  have hrun := hup.step (.leave rfl hreturn way)
  exact ⟨start_stair, _, _, hrun, by decide +kernel, captured_never_recycled start_stair hrun⟩

end Smalltalk.Recycling
