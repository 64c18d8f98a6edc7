import Smalltalk.Proofs.Detours
import Smalltalk.Proofs.Semaphores

/-!
# Resuming a process

A guest may resume any process. The active one is refused. One that stands in no list goes where it
belongs, and every list keeps the processes it has. But nobody looks whether a process stands in a list
already, and then there is only one place where it may stand: at the end of the list that it is put
into. Elsewhere in that list it cuts off those behind it, and from another list it is not taken out.
-/

namespace Smalltalk.Scheduling

open Outcome Recycling Smalltalk.Action

variable {L : Layout} {c : Cells} {queue : Value → List Value} {l k p q w : Value}
  {ps before behind : List Value} {nil : Value} {m m' m₁ m₂ : Machine} {S : Schedule} {u : Unit}
  {i n : Nat} {r : Registers}

/-! ### Operations that end -/

/-- No object has lost a field. -/
def KeepsFields (m m' : Machine) : Prop :=
  ∀ w i, (∃ y, m.memory.cell w i = some y) → ∃ y, m'.memory.cell w i = some y

theorem KeepsFields.refl : KeepsFields m m := fun _ _ => id

theorem KeepsFields.trans (h : KeepsFields m m₁) (h' : KeepsFields m₁ m₂) : KeepsFields m m₂ :=
  fun w i => h' w i ∘ h w i

theorem KeepsFields.setCell {v x : Value} (h : KeepsFields m m₁) : KeepsFields m (m₁.setCell v i x) :=
  fun w j hw => cell_setCell_isSome (h w j hw)

theorem store_ends {v x : Value} (h : ∃ y, m.memory.cell v i = some y) :
    store v i x m = .ok () (m.setCell v i x) := store_ok.2 ⟨h, rfl⟩

/-- A process that has the field for its list can be linked to a list. -/
theorem linkLast_ends (hl : Threads m.memory.cell m.specials.nil l ps) (hnil : m.specials.nil ∉ ps)
    (hlast : ∃ y, m.memory.cell l ProcessList.last = some y)
    (hlinks : ∀ q ∈ ps, ∃ y, m.memory.cell q Process.next = some y)
    (hmine : ∃ y, m.memory.cell p Process.myList = some y) :
    ∃ m', linkLast p l m = .ok () m' ∧ KeepsFields m m' := by
  have hlook : isEmptyList l m = .ok (ps.head?.getD m.specials.nil == m.specials.nil) m :=
    (bind_of_ok (fetch_ok.2 ⟨hl.first, rfl⟩)).trans (bind_of_ok (nil_ok.2 ⟨rfl, rfl⟩))
  obtain ⟨hempty, -⟩ := isEmptyList_ok hl hnil hlook
  -- the two ways to attach the process go on alike
  have hrest : ∀ m₁ : Machine, KeepsFields m m₁ →
      ∃ m', (do store l ProcessList.last p; store p Process.myList l : Action Unit) m₁ = .ok () m' ∧
        KeepsFields m m' := fun m₁ hkeeps =>
    ⟨_, (bind_of_ok (store_ends (hkeeps _ _ hlast))).trans (store_ends (hkeeps.setCell _ _ hmine)),
      hkeeps.setCell.setCell⟩
  rw [linkLast, bind_of_ok hlook]
  cases hq : ps.getLast? with
  | none =>
    rw [if_pos (hempty.2 (List.getLast?_eq_none_iff.1 hq)), bind_of_ok (store_ends ⟨_, hl.first⟩)]
    exact hrest _ KeepsFields.refl.setCell
  | some q =>
    have hne : ¬ ps = [] := by
      rintro rfl
      cases hq
    rw [if_neg fun e => hne (hempty.1 e), bind_of_ok (fetch_ok.2 ⟨hl.last q hq, rfl⟩),
      bind_of_ok (store_ends (hlinks q (List.mem_of_getLast? hq)))]
    exact hrest _ KeepsFields.refl.setCell

/-- A list that leads to a process gives it out. -/
theorem unlinkFirst_ends (hl : Threads m.memory.cell m.specials.nil l (p :: ps))
    (hnext : ∃ y, m.memory.cell p Process.next = some y) :
    ∃ m', unlinkFirst l m = .ok p m' ∧ KeepsFields m m' := by
  have hfirst : m.memory.cell l ProcessList.first = some p := hl.first
  have hlast := hl.last _ (List.getLast?_eq_some_getLast (List.cons_ne_nil p ps))
  have hrest : ∀ m₁ : Machine, KeepsFields m m₁ →
      ∃ m', (do store p Process.next m.specials.nil; return p : Action Value) m₁ = .ok p m' ∧
        KeepsFields m m' :=
    fun m₁ hkeeps => ⟨_, bind_of_ok (store_ends (hkeeps _ _ hnext)), hkeeps.setCell⟩
  rw [unlinkFirst, bind_of_ok (nil_ok.2 ⟨rfl, rfl⟩), bind_of_ok (fetch_ok.2 ⟨hfirst, rfl⟩),
    bind_of_ok (fetch_ok.2 ⟨hlast, rfl⟩)]
  dsimp only
  split
  · rw [bind_of_ok (store_ends ⟨_, hfirst⟩), bind_of_ok (store_ends (cell_setCell_isSome ⟨_, hlast⟩))]
    exact hrest _ KeepsFields.refl.setCell.setCell
  · obtain ⟨y, hy⟩ := hnext
    rw [bind_of_ok (fetch_ok.2 ⟨hy, rfl⟩), bind_of_ok (store_ends ⟨_, hfirst⟩)]
    exact hrest _ KeepsFields.refl.setCell

/-- Takes the first process off a list so many times. -/
def drain (list : Value) : Nat → Action (List Value)
  | 0 => return []
  | n + 1 => do
    let p ← unlinkFirst list
    return p :: (← drain list n)

theorem Schedule.withQueue_twice (S : Schedule) (l : Value) (ps qs : List Value) :
    (S.withQueue l ps).withQueue l qs = S.withQueue l qs := by
  rw [Schedule.withQueue, Schedule.withQueue, Schedule.withQueue, Function.update_idem]

/-- Taking first processes off reaches all that stand in a list, in their order. -/
theorem Seated.drain (h : Seated L m S) (hL : L.Distinct) (hl : l ∈ L.holders)
    (hlinks : ∀ q ∈ S.queue l, ∃ y, m.memory.cell q Process.next = some y) :
    ∃ m', drain l (S.queue l).length m = .ok (S.queue l) m' ∧ Seated L m' (S.withQueue l []) := by
  generalize hq : S.queue l = ps at hlinks ⊢
  induction ps generalizing m S with
  | nil =>
    refine ⟨m, rfl, ?_⟩
    rw [← hq, Schedule.withQueue, Function.update_eq_self]
    exact h
  | cons p ps ih =>
    obtain ⟨m₁, hunlink, hkeeps⟩ :=
      unlinkFirst_ends (hq ▸ h.threads hl) (hlinks p List.mem_cons_self)
    obtain ⟨-, hseat, -, -⟩ := h.unlinkFirst hL hl hq hunlink
    obtain ⟨m', hrest, hseat'⟩ := ih hseat (S.withQueue_self l ps)
      fun q hq => hkeeps _ _ (hlinks q (List.mem_cons_of_mem p hq))
    rw [S.withQueue_twice] at hseat'
    exact ⟨m', (bind_of_ok hunlink).trans (bind_of_ok hrest), hseat'⟩

/-! ### Linking a process to a list -/

/-- What lists, processes and the active context need to be worked on: their fields, and that the
priorities are as in the layout. -/
structure Fit (L : Layout) (m : Machine) : Prop where
  last : ∀ l ∈ L.holders, ∃ y, m.memory.cell l ProcessList.last = some y
  myList : ∀ p ∈ L.processes, ∃ y, m.memory.cell p Process.myList = some y
  priority : ∀ p ∈ L.processes, m.memory.cell p Process.priority = some (.small (L.priority p))
  frame : ∃ y, m.memory.cell m.registers.context Context.stackPointer = some y

/-- The field for its list is the last one that a process needs. -/
theorem Fit.field (h : Fit L m) (hp : p ∈ L.processes) (hi : i ≤ Process.myList) :
    ∃ y, m.memory.cell p i = some y := by
  obtain ⟨y, hy⟩ := h.myList p hp
  exact cell_of_le hy hi

theorem Seated.linkLast_ends (h : Seated L m S) (hL : L.Distinct) (hl : l ∈ L.holders)
    (hp : p ∈ L.processes) (hfit : Fit L m) :
    ∃ m', Action.linkLast p l m = .ok () m' ∧ KeepsFields m m' :=
  Scheduling.linkLast_ends (h.threads hl) (h.nil_not_mem hL hl) (hfit.last l hl)
    (fun q hq => hfit.field (h.threaded.process l hl q hq) (by decide)) (hfit.myList p hp)

/-- Linking a process to a list changes nothing but lists, and the links of processes. -/
theorem Seated.linkLast_frame (h : Seated L m S) (hL : L.Distinct) (hl : l ∈ L.holders)
    (hp : p ∈ L.processes) (hrun : Action.linkLast p l m = .ok u m') :
    m'.registers = m.registers ∧
      (∀ w, w ∉ L.holders → w ∉ L.processes → ∀ i, m'.memory.cell w i = m.memory.cell w i) ∧
      ∀ q ∈ L.processes, m'.memory.cell q Process.suspendedContext =
        m.memory.cell q Process.suspendedContext := by
  obtain ⟨memory, rfl, hcell⟩ := linkLast_ok (h.threads hl) (h.nil_not_mem hL hl) hrun
  refine ⟨rfl, fun w hw hw' i => ?_, fun q hq => ?_⟩
  · rw [hcell]
    refine enlist_other (fun e => hw (e ▸ hl)) (.inl fun hmem => hw' ?_)
    rcases List.mem_cons.1 hmem with rfl | hmem
    · exact hp
    · exact h.threaded.process l hl w hmem
  · rw [hcell]
    exact enlist_other (Ne.symm (hL.holder_ne_process hl hq)) (.inr (by decide))

/-! ### Switching to a process -/

/-- A process that can go on: the registers `r` can be loaded from the context it was suspended in,
which is not the active one, and the active one can be left. -/
structure Loadable (L : Layout) (m : Machine) (p : Value) (r : Registers) : Prop where
  suspended : m.memory.cell p Process.suspendedContext = some r.context
  loaded : Loaded m.memory r.context r
  apart : r.context ≠ m.registers.context
  home : r.home ∉ L.objects
  method : r.method ∉ L.objects
  storable : m.registers.Storable

theorem Layout.not_mem_objects (h : w ∉ L.objects) : w ∉ L.holders ∧ w ∉ L.processes :=
  ⟨fun hw => h (L.mem_objects_of_holder hw), fun hw => h (L.mem_objects_of_process hw)⟩

theorem handedOver_of_not_mem (hactive : S.active ∈ L.processes) (hw : w ∉ L.objects) :
    (handedOver m L.scheduler S.active p).memory.cell w i = m.memory.cell w i := by
  have hold : w ≠ S.active := fun e => hw (e ▸ L.mem_objects_of_process hactive)
  have hscheduler : w ≠ L.scheduler := fun e => hw (e ▸ List.mem_append_left _ (by simp))
  rw [handedOver, Recycling.cell_setCell, if_neg fun e => hold e.1, Recycling.cell_setCell,
    if_neg fun e => hscheduler e.1]

/-- A process can go on as long as its context, home and method stay. -/
theorem Loadable.congr (h : Loadable L m p r) (hcontext : r.context ∉ L.objects)
    (hregisters : m₁.registers = m.registers)
    (hsuspended : m₁.memory.cell p Process.suspendedContext = m.memory.cell p Process.suspendedContext)
    (hsame : ∀ w ∉ L.objects, ∀ i, m₁.memory.cell w i = m.memory.cell w i) : Loadable L m₁ p r where
  suspended := hsuspended.trans h.suspended
  loaded := h.loaded.congr (fun i _ => hsame _ hcontext i) (fun i _ => hsame _ h.home i)
    (hsame _ h.method 0)
  apart := by
    rw [hregisters]
    exact h.apart
  home := h.home
  method := h.method
  storable := by
    rw [hregisters]
    exact h.storable

/-- A switch to a process that can go on ends. -/
theorem Seated.transferTo_ends (h : Seated L m S) (hL : L.Distinct) (hp : p ∈ L.processes)
    (hne : p ≠ S.active) (hold : ∃ y, m.memory.cell S.active Process.suspendedContext = some y)
    (hframe : ∃ y, m.memory.cell m.registers.context Context.stackPointer = some y)
    (hr : Loadable L m p r) : ∃ m', Action.transferTo p m = .ok () m' ∧ KeepsFields m m' := by
  have hps : p ≠ L.scheduler := Ne.symm (hL.root_ne (by simp) (.inr hp))
  obtain ⟨y, hframe⟩ := hframe
  have hcontext := h.placed.suspended p hp _ hr.suspended
  have hkeeps : ∀ i, Context.method ≤ i → Context.Keeps i := fun i hi => by
    simp only [Context.Keeps, Context.method, Context.instructionPointer, Context.stackPointer] at hi ⊢
    omega
  refine ⟨_, transferTo_of (r := r) (h.scheduler_ok.2 ⟨rfl, rfl⟩) h.running hold ?_
    (cell_of_le hframe (by decide)) ⟨y, hframe⟩ hr.storable
    (hr.loaded.congr (fun i _ => ?_) (fun i hi => ?_) ?_), fun w i hw => ?_⟩
  · rw [handedOver, Recycling.cell_setCell, if_neg fun e => hne e.1, Recycling.cell_setCell,
      if_neg fun e => hps e.1, hr.suspended]
  · rw [saved_of_ne (by rw [handedOver_registers]; exact hr.apart), handedOver_of_not_mem h.active hcontext]
  · rw [saved_of_keeps (hkeeps i hi), handedOver_of_not_mem h.active hr.home]
  · rw [saved_of_keeps (by decide), handedOver_of_not_mem h.active hr.method]
  · exact KeepsFields.setCell (m := m) (fun w i hw =>
      saved_cell_isSome (cell_setCell_isSome (cell_setCell_isSome hw))) w i hw

/-! ### Letting a process run -/

theorem Seated.makeReady_eq (h : Seated L m S) (hL : L.Proper) (hfit : Fit L m) (hp : p ∈ L.processes) :
    Action.makeReady p m = Action.linkLast p (L.listOf p) m := by
  have hrange := hL.priority p hp
  have hindex : ((L.priority p : Int) - 1).toNat = L.priority p - 1 := by omega
  have hlist : m.memory.cell L.table ((L.priority p : Int) - 1).toNat = some (L.listOf p) := by
    rw [h.placed.lists, hindex, hL.listOf hp]
  rw [Action.makeReady, bind_of_ok (h.scheduler_ok.2 ⟨rfl, rfl⟩),
    bind_of_ok (fetch_ok.2 ⟨h.placed.table, rfl⟩), priority,
    bind_of_ok (fetchInt_ok.2 ⟨hfit.priority p hp, rfl⟩)]
  dsimp only
  rw [if_neg (by omega)]
  exact bind_of_ok (fetch_ok.2 ⟨hlist, rfl⟩)

theorem Seated.activeProcess_eq (h : Seated L m S) : activeProcess m = .ok S.active m :=
  (bind_of_ok (h.scheduler_ok.2 ⟨rfl, rfl⟩)).trans (fetch_ok.2 ⟨h.running, rfl⟩)

/-- A process that does not take over is linked to its list, wherever it stands. -/
theorem Seated.resume_eq (h : Seated L m S) (hL : L.Proper) (hfit : Fit L m) (hp : p ∈ L.processes) :
    Action.resume p m =
      if L.priority S.active < L.priority p then
        (Action.linkLast S.active (L.listOf S.active) >>= fun _ => Action.transferTo p) m
      else Action.linkLast p (L.listOf p) m := by
  rw [Action.resume, bind_of_ok h.activeProcess_eq, priority, priority,
    bind_of_ok (fetchInt_ok.2 ⟨hfit.priority p hp, rfl⟩),
    bind_of_ok (fetchInt_ok.2 ⟨hfit.priority _ h.active, rfl⟩)]
  by_cases hlt : L.priority S.active < L.priority p
  · rw [if_pos (Int.ofNat_lt.2 hlt), if_pos hlt]
    change EStateM.bind _ _ m = EStateM.bind _ _ m
    rw [EStateM.bind, EStateM.bind, h.makeReady_eq hL hfit h.active]
  · rw [if_neg fun e => hlt (Int.ofNat_lt.1 e), if_neg hlt]
    exact h.makeReady_eq hL hfit hp

/-- Letting a process run ends, if a process that takes over at once can go on. -/
theorem Settled.resume_ends (h : Settled L m S) (hL : L.Proper) (hfit : Fit L m) (hp : p ∈ L.processes)
    (hne : p ≠ S.active) (hgo : L.priority S.active < L.priority p → ∃ r, Loadable L m p r) :
    ∃ m', Action.resume p m = .ok () m' ∧ KeepsFields m m' := by
  have hd := hL.toDistinct
  rw [h.resume_eq hL hfit hp]
  split
  case isTrue hlt =>
    obtain ⟨r, hr⟩ := hgo hlt
    have hl := hL.listOf_mem h.active
    obtain ⟨m₁, hlink, hkeeps⟩ := h.linkLast_ends hd hl h.active hfit
    obtain ⟨hseat, -⟩ := h.linkLast hd hl h.active h.unlisted hlink
    obtain ⟨hregisters, hother, hsuspended⟩ := h.linkLast_frame hd hl h.active hlink
    have hsame : ∀ w ∉ L.objects, ∀ i, m₁.memory.cell w i = m.memory.cell w i := fun w hw =>
      hother w (L.not_mem_objects hw).1 (L.not_mem_objects hw).2
    have hframe : ∃ y, m₁.memory.cell m₁.registers.context Context.stackPointer = some y := by
      rw [hregisters, hsame _ h.context]
      exact hfit.frame
    obtain ⟨m', htransfer, hkeeps'⟩ := hseat.transferTo_ends hd hp hne
      (hkeeps _ _ (hfit.field h.active (by decide))) hframe
      (hr.congr (h.placed.suspended p hp _ hr.suspended) hregisters (hsuspended p hp) hsame)
    exact ⟨m', (bind_of_ok hlink).trans htransfer, hkeeps.trans hkeeps'⟩
  case isFalse => exact h.linkLast_ends hd (hL.listOf_mem hp) hp hfit

/-- A process that takes over sends the active one to its list, whether or not it stands in a list. -/
theorem Settled.resume_over (h : Settled L m S) (hL : L.Proper) (hfit : Fit L m) (hp : p ∈ L.processes)
    (hne : p ≠ S.active) (hlt : L.priority S.active < L.priority p)
    (hrun : Action.resume p m = .ok u m') : Seated L m' (S.resume L p) := by
  rw [h.resume_eq hL hfit hp, if_pos hlt] at hrun
  obtain ⟨_, m₁, hlink, htransfer⟩ := bind_ok.1 hrun
  obtain ⟨hseat, -⟩ :=
    h.linkLast hL.toDistinct (hL.listOf_mem h.active) h.active h.unlisted hlink
  rw [Schedule.resume, if_pos hlt]
  exact (hseat.transferTo hL.toDistinct hp hne htransfer).1

/-- Letting a process run that stands in no list keeps the lists right. -/
theorem Settled.resume_unlisted (h : Settled L m S) (hL : L.Proper) (hfit : Fit L m)
    (hp : p ∈ L.processes) (hne : p ≠ S.active) (hun : L.Unlisted S.queue p)
    (hrun : Action.resume p m = .ok u m') : Settled L m' (S.resume L p) := by
  by_cases hlt : L.priority S.active < L.priority p
  · refine ⟨h.resume_over hL hfit hp hne hlt hrun, ?_⟩
    rw [Schedule.resume, if_pos hlt]
    intro k hk hmem
    rcases Schedule.mem_enlist hmem with hmem | ⟨e, -⟩
    · exact hun k hk hmem
    · exact hne e
  · rw [h.resume_eq hL hfit hp, if_neg hlt] at hrun
    rw [Schedule.resume, if_neg hlt]
    refine ⟨(h.linkLast hL.toDistinct (hL.listOf_mem hp) hp hun hrun).1, fun k hk hmem => ?_⟩
    rcases Schedule.mem_enlist hmem with hmem | ⟨e, -⟩
    · exact h.unlisted k hk hmem
    · exact hne e.symm

/-- No list loses a process, and what is new comes last. -/
theorem Schedule.prefix_enlist (S : Schedule) (p l k : Value) : S.queue k <+: (S.enlist p l).queue k := by
  by_cases hkl : k = l
  · subst hkl
    rw [Schedule.enlist, Schedule.withQueue_self]
    exact List.prefix_append ..
  · rw [Schedule.enlist, S.withQueue_of_ne _ hkl]

theorem Schedule.prefix_resume (L : Layout) (S : Schedule) (p k : Value) :
    S.queue k <+: (S.resume L p).queue k := by
  rw [Schedule.resume]
  split
  · exact S.prefix_enlist ..
  · exact S.prefix_enlist ..

/-! ### A process that stands in a list already -/

theorem enlist_next (hq : q ≠ l) :
    enlist c p l ps q Process.next = attach c p l ps.getLast? q Process.next := by
  rw [enlist, Cells.set_of_index_ne (by decide), Cells.set_of_ne hq]

/-- Only the process that was the last one gets another link. -/
theorem enlist_next_of_ne (hq : q ≠ l) (hps : ps.getLast? ≠ some q) :
    enlist c p l ps q Process.next = c q Process.next := by
  rw [enlist_next hq]
  cases hlast : ps.getLast? with
  | none => exact Cells.set_of_ne hq
  | some r => exact Cells.set_of_ne fun e => hps (e ▸ hlast)

/-- A process that is put behind its own list ends the list where it stands. -/
theorem Threads.enlist_mem (h : Threads c nil l (before ++ p :: behind))
    (once : (before ++ p :: behind).Nodup) (hl : l ∉ before ++ p :: behind) :
    Threads (Scheduling.enlist c p l (before ++ p :: behind)) nil l (before ++ [p]) := by
  have hne : ∀ q ∈ before ++ p :: behind, q ≠ l := fun q hq e => hl (e ▸ hq)
  have hlp : l ≠ p := Ne.symm (hne p (by simp))
  -- the last process, which gets another link, is `p` or stands behind it
  have hend := List.getLast?_append_of_ne_nil before (List.cons_ne_nil p behind)
  have hbefore : ∀ q ∈ before,
      Scheduling.enlist c p l (before ++ p :: behind) q Process.next = c q Process.next := by
    intro q hq
    refine enlist_next_of_ne (hne q (List.mem_append_left _ hq)) fun hlast => ?_
    rw [hend] at hlast
    exact List.disjoint_of_nodup_append once hq (List.mem_of_getLast? hlast)
  refine ⟨?_, fun q hq => ?_, ?_⟩
  · have hlast := hend.trans (List.getLast?_eq_some_getLast (List.cons_ne_nil p behind))
    rw [Scheduling.enlist, Cells.set_of_ne hlp, Cells.set_of_index_ne (by decide), hlast, attach,
      Cells.set_of_ne (Ne.symm (hne _ (List.mem_of_getLast? hlast))), h.first]
    cases before with
    | nil => rfl
    | cons q before => rfl
  · obtain rfl : p = q := by simpa using hq
    rw [Scheduling.enlist, Cells.set_of_ne hlp, Cells.set_same]
  · obtain ⟨hchain, -, hjoin⟩ := List.isChain_append.1 h.chain
    refine List.isChain_append.2 ⟨?_, .singleton p, fun q hq r hr => ?_⟩
    · exact hchain.imp_of_mem_imp fun q r hq _ hqr => (hbefore q hq).trans hqr
    · exact (hbefore q (List.mem_of_getLast? hq)).trans (hjoin q hq r hr)

/-- A list does not notice when a process is put into another list, even one of its own. -/
theorem Threaded.threads_enlist (h : Threaded L c queue) (hL : L.Distinct) (hl : l ∈ L.holders)
    (hk : k ∈ L.holders) (hp : p ∈ L.processes) (hne : k ≠ l) :
    Threads (Scheduling.enlist c p l (queue l)) L.nil k (queue k) := by
  have hout : k ∉ p :: queue l := fun hmem =>
    (List.mem_cons.1 hmem).elim (hL.holder_ne_process hk hp) (h.holder_not_mem hL hk hl)
  refine (h.threads k hk).congr (enlist_other hne (.inl hout)) (enlist_other hne (.inl hout))
    fun q hq => enlist_next_of_ne (Ne.symm (hL.holder_ne_process hl (h.process k hk q hq))) fun hlast => ?_
  exact hne (h.single k hk l hl q hq (List.mem_of_getLast? hlast))

/-- Processes may leave their lists. -/
theorem Rows.sublist {queue' : Value → List Value} (h : Rows L queue)
    (hsub : ∀ k, (queue' k).Sublist (queue k)) : Rows L queue' where
  once l hl := (h.once l hl).sublist (hsub l)
  process l hl q hq := h.process l hl q ((hsub l).subset hq)
  single l hl k hk q hq hq' := h.single l hl k hk q ((hsub l).subset hq) ((hsub k).subset hq')

/-- A process that is linked to another list stands in both. -/
theorem Seated.linkLast_twice (h : Seated L m S) (hL : L.Distinct) (hl : l ∈ L.holders)
    (hp : p ∈ S.queue l) (hk : k ∈ L.holders) (hne : l ≠ k)
    (hrun : Action.linkLast p k m = .ok u m') :
    p ∈ Scheduling.members m' l ∧ p ∈ Scheduling.members m' k := by
  have hprocess := h.threaded.process l hl p hp
  have hfresh : p ∉ S.queue k := fun hmem => hne (h.threaded.single l hl k hk p hp hmem)
  have hout : k ∉ p :: S.queue k := fun hmem => (List.mem_cons.1 hmem).elim
    (hL.holder_ne_process hk hprocess) (h.threaded.holder_not_mem hL hk hk)
  obtain ⟨memory, rfl, hcell⟩ := linkLast_ok (h.threads hk) (h.nil_not_mem hL hk) hrun
  have hnil : m.specials.nil ∉ S.queue k ++ [p] := fun hmem => by
    rcases List.mem_append.1 hmem with hmem | hmem
    · exact h.nil_not_mem hL hk hmem
    · exact h.nil_not_mem hL hl (List.mem_singleton.1 hmem ▸ hp)
  constructor
  · have hthreads := h.threaded.threads_enlist hL hk hl hprocess hne
    rw [← hcell, ← h.nil] at hthreads
    rw [Threads.members (m := { m with memory }) hthreads (h.threaded.once l hl) (h.nil_not_mem hL hl)]
    exact hp
  · have hthreads := (h.threads hk).enlist (h.threaded.once k hk) hfresh hout
    rw [← hcell] at hthreads
    rw [Threads.members (m := { m with memory }) hthreads
      (List.nodup_append.2 ⟨h.threaded.once k hk, List.nodup_singleton p, by
        rintro q hq _ hr rfl
        exact hfresh (List.mem_singleton.1 hr ▸ hq)⟩) hnil]
    exact List.mem_append_right _ (List.mem_singleton_self p)

/-- A process that is linked to its own list cuts off those behind it. -/
theorem Settled.linkLast_cut (h : Settled L m S) (hL : L.Distinct) (hl : l ∈ L.holders)
    (hq : S.queue l = before ++ p :: behind) (hrun : Action.linkLast p l m = .ok u m') :
    Settled L m' (S.withQueue l (before ++ [p])) := by
  have hp : p ∈ L.processes := h.threaded.process l hl p (hq ▸ by simp)
  have hsub : ∀ k, (Function.update S.queue l (before ++ [p]) k).Sublist (S.queue k) := by
    intro k
    by_cases hkl : k = l
    · subst hkl
      rw [Function.update_self, hq]
      exact (List.Sublist.refl before).append (by simp)
    · rw [Function.update_of_ne hkl]
  obtain ⟨-, hother, hsuspended⟩ := h.linkLast_frame hL hl hp hrun
  obtain ⟨memory, rfl, hcell⟩ := linkLast_ok (h.threads hl) (h.nil_not_mem hL hl) hrun
  refine ⟨h.relink hL (fun v hv => hother v (fun hmem => hL.root_ne hv (.inl hmem) rfl)
    fun hmem => hL.root_ne hv (.inr hmem) rfl) hsuspended ⟨h.threaded.toRows.sublist hsub, fun k hk => ?_⟩,
    fun k hk hmem => h.unlisted k hk ((hsub k).subset hmem)⟩
  by_cases hkl : k = l
  · subst hkl
    rw [Function.update_self, hcell, hq]
    exact Threads.enlist_mem (hq ▸ h.threaded.threads k hk) (hq ▸ h.threaded.once k hk)
      (hq ▸ h.threaded.holder_not_mem hL hk hk)
  · rw [Function.update_of_ne hkl, hcell]
    exact h.threaded.threads_enlist hL hl hk hp hkl

/-- What has become of the lists when a process was resumed that stood in the list `l`, behind the
processes `before`. -/
structure Tangled (L : Layout) (S : Schedule) (p l : Value) (before : List Value) (m' : Machine) :
    Prop where
  /-- A process that takes over runs and stands in its list. -/
  takesOver : L.priority S.active < L.priority p → Seated L m' (S.resume L p) ∧ p ∈ (S.resume L p).queue l
  /-- Another one stands in two lists, -/
  twice : L.priority p ≤ L.priority S.active → l ≠ L.listOf p → p ∈ members m' l ∧
    p ∈ members m' (L.listOf p)
  /-- or at the end of its list, and those that stood behind it are in no list any more. -/
  cut : L.priority p ≤ L.priority S.active → l = L.listOf p →
    Settled L m' (S.withQueue l (before ++ [p]))

theorem Settled.resume_listed (h : Settled L m S) (hL : L.Proper) (hfit : Fit L m) (hl : l ∈ L.holders)
    (hq : S.queue l = before ++ p :: behind) (hrun : Action.resume p m = .ok u m') :
    Tangled L S p l before m' := by
  have hmem : p ∈ S.queue l := hq ▸ by simp
  have hp : p ∈ L.processes := h.threaded.process l hl p hmem
  have hne : p ≠ S.active := fun e => h.unlisted l hl (e ▸ hmem)
  have hlink : L.priority p ≤ L.priority S.active → Action.linkLast p (L.listOf p) m = .ok u m' :=
    fun hle => by rwa [h.resume_eq hL hfit hp, if_neg (Nat.not_lt.2 hle)] at hrun
  refine ⟨fun hlt => ⟨h.resume_over hL hfit hp hne hlt hrun, (S.prefix_resume L p l).subset hmem⟩,
    fun hle hother => ?_, fun hle hown => ?_⟩
  · exact h.linkLast_twice hL.toDistinct hl hmem (hL.listOf_mem hp) hother (hlink hle)
  · subst hown
    exact h.linkLast_cut hL.toDistinct hl hq (hlink hle)

/-! ### The primitive -/

/-- The receiver of a primitive is the process `p`. -/
structure Receives (m : Machine) (p : Value) : Prop where
  top : m.memory.cell m.registers.context m.registers.sp = some p
  process : (m.memory.get? p).map Object.cls = some (m.specials.get m.memory Special.classProcess)

theorem Receives.receiverOf (h : Receives m p) :
    Primitive.receiverOf Special.classProcess m = .ok p m := by
  obtain ⟨o, ho, hcls⟩ := Option.map_eq_some_iff.1 h.process
  have hinstance : isInstanceOf p Special.classProcess m = .ok true m := by
    refine (bind_of_ok (object?_ok.2 ⟨ho, rfl⟩)).trans ?_
    refine (bind_of_ok (special_ok.2 ⟨rfl, rfl⟩)).trans (pure_ok.2 ⟨?_, rfl⟩)
    rw [hcls, beq_self_eq_true]
  rw [Primitive.receiverOf, bind_of_ok (Attempt.lift_ok.2 (top_ok.2 ⟨h.top, rfl⟩)),
    bind_of_ok (Attempt.lift_ok.2 hinstance)]
  rfl

/-- The primitive looks at the active process and lets any other run. -/
theorem Seated.primitive_eq (h : Seated L m S) (hreceives : Receives m p) :
    Primitive.resume n m = (do
      Attempt.require (p ≠ S.active)
      Action.resume p
      return .done : Attempt Completion) m := by
  rw [Primitive.resume, bind_of_ok hreceives.receiverOf,
    bind_of_ok (Attempt.lift_ok.2 h.activeProcess_eq)]

theorem Seated.primitive_of_resume (h : Seated L m S) (hreceives : Receives m p) (hne : p ≠ S.active)
    (hrun : Action.resume p m = .ok () m') : Primitive.resume n m = .ok .done m' := by
  rw [h.primitive_eq hreceives, Attempt.require, if_pos hne]
  exact (bind_of_ok (a := ()) rfl).trans (bind_of_ok (Attempt.lift_ok.2 hrun))

/-- The primitive refuses the active process and changes nothing. A process that stands in no list
goes to the end of its list, or takes over and sends the active one there; every list keeps its
processes, and taking first processes off reaches them all. A process that stands in a list is not
refused, either. -/
theorem resume_keeps_lists (hL : L.Proper) (h : Settled L m S) (hfit : Fit L m) (hp : p ∈ L.processes)
    (hreceives : Receives m p) (n : Nat) :
    (p = S.active → Primitive.resume n m = .error .declined m) ∧
    (p ≠ S.active → (L.priority S.active < L.priority p → ∃ r, Loadable L m p r) →
      ∃ m', Primitive.resume n m = .ok .done m' ∧
        (L.Unlisted S.queue p → Settled L m' (S.resume L p) ∧
          ∀ l ∈ L.holders, S.queue l <+: (S.resume L p).queue l ∧
            ∃ m'', drain l ((S.resume L p).queue l).length m' = .ok ((S.resume L p).queue l) m'') ∧
        ∀ l ∈ L.holders, ∀ before behind, S.queue l = before ++ p :: behind →
          Tangled L S p l before m') := by
  refine ⟨fun hactive => ?_, fun hne hgo => ?_⟩
  · rw [h.primitive_eq hreceives, Attempt.require, if_neg (not_not.2 hactive)]
    rfl
  · obtain ⟨m', hrun, hkeeps⟩ := h.resume_ends hL hfit hp hne hgo
    refine ⟨m', h.primitive_of_resume hreceives hne hrun, fun hun => ?_,
      fun l hl before behind hq => h.resume_listed hL hfit hl hq hrun⟩
    have hsettled := h.resume_unlisted hL hfit hp hne hun hrun
    refine ⟨hsettled, fun l hl => ⟨S.prefix_resume L p l, ?_⟩⟩
    obtain ⟨m'', hdrain, -⟩ := hsettled.drain hL.toDistinct hl fun q hq =>
      hkeeps _ _ (hfit.field (hsettled.threaded.process l hl q hq) (by decide))
    exact ⟨m'', hdrain⟩

/-- Nil, the special objects, the association, the scheduler, the table with its two lists, a semaphore
with the third of three processes, two contexts, a method and the class of processes. -/
def quayObjects : List Object :=
  let pointers fields := Object.ofPointers (place 0) .indexable (List.toArray fields)
  let process fields := Object.ofPointers (place 14) .fixed (List.toArray fields)
  [pointers [], pointers ([place 0, place 0, place 0, place 2] ++ List.replicate 23 (place 0) ++ [place 14]),
    pointers [place 0, place 3], pointers [place 4, place 8], pointers [place 5, place 6],
    pointers [place 0, place 0], pointers [place 0, place 0], pointers [place 10, place 10, .small 0],
    process [place 0, place 0, .small 1, place 0], process [place 0, place 12, .small 2, place 0],
    process [place 0, place 12, .small 1, place 7],
    Machine.stillContext 0 [place 13, place 0, place 0, place 9, place 10],
    Machine.stillContext 0 [place 13], .ofMethod (place 0) #[.small 0] #[120], pointers []]

/-- A machine with the second and the third process on the stack, of which the second one waits for
nothing. The stack pointer tells which of them is on top. -/
def quay (sp : Nat) : Machine := Machine.ofObjects quayObjects 11 11 13 sp

def quaySchedule : Schedule where
  active := place 8
  queue l := if l = place 7 then [place 10] else []

theorem mem_quaySchedule : p ∈ quaySchedule.queue l ↔ l = place 7 ∧ p = place 10 := by
  rw [quaySchedule]
  dsimp only
  split
  · rename_i hl
    simp [hl]
  · rename_i hl
    simp [hl]

theorem arranged_quay (sp : Nat) : Arranged stageLayout (quay sp) quaySchedule where
  nil := rfl
  array := rfl
  context := by
    change place 11 ∉ stageLayout.objects
    decide
  rooted := by
    refine ⟨rfl, rfl, rfl, fun i => ?_, fun p hp => ?_, fun p hp x hx => ?_⟩
    · rcases i with _ | _ | i <;> rfl
    · simp only [stageLayout, List.mem_cons, List.not_mem_nil, or_false] at hp
      rcases hp with rfl | rfl | rfl <;> rfl
    · simp only [stageLayout, List.mem_cons, List.not_mem_nil, or_false] at hp
      rcases hp with rfl | rfl | rfl
      · obtain rfl : place 0 = x := Option.some.inj hx
        decide
      · obtain rfl : place 12 = x := Option.some.inj hx
        decide
      · obtain rfl : place 12 = x := Option.some.inj hx
        decide
  running := rfl
  active := by decide
  level i l hl p hp := by
    obtain ⟨rfl, -⟩ := mem_quaySchedule.1 hp
    exact absurd (List.mem_of_getElem? hl) (by decide)
  listed := by
    refine ⟨fun l hl => ?_, fun l _ => ?_, fun l _ p hp => ?_, fun l _ p hp => ?_⟩
    · simp only [Layout.holders, stageLayout, List.mem_append, List.mem_cons, List.not_mem_nil,
        or_false] at hl
      rcases hl with (rfl | rfl) | rfl
      · exact ⟨rfl, rfl, trivial⟩
      · exact ⟨rfl, rfl, trivial⟩
      · exact ⟨rfl, rfl, rfl, trivial⟩
    · rw [quaySchedule]
      dsimp only
      split
      · exact List.nodup_singleton _
      · exact List.nodup_nil
    · obtain ⟨-, rfl⟩ := mem_quaySchedule.1 hp
      decide
    · obtain ⟨rfl, rfl⟩ := mem_quaySchedule.1 hp
      rfl
  unlisted l _ hp := absurd (mem_quaySchedule.1 hp).2 (by decide)
  highest l hl p hp := by
    obtain ⟨rfl, -⟩ := mem_quaySchedule.1 hp
    exact absurd hl (by decide)

theorem settled_quay (sp : Nat) : Settled stageLayout (quay sp) quaySchedule :=
  ⟨(arranged_quay sp).seated, (arranged_quay sp).unlisted⟩

theorem fit_quay (sp : Nat) : Fit stageLayout (quay sp) where
  last l hl := by
    simp only [Layout.holders, stageLayout, List.mem_append, List.mem_cons, List.not_mem_nil,
      or_false] at hl
    rcases hl with (rfl | rfl) | rfl
    · exact ⟨place 0, rfl⟩
    · exact ⟨place 0, rfl⟩
    · exact ⟨place 10, rfl⟩
  myList p hp := by
    simp only [stageLayout, List.mem_cons, List.not_mem_nil, or_false] at hp
    rcases hp with rfl | rfl | rfl
    · exact ⟨place 0, rfl⟩
    · exact ⟨place 0, rfl⟩
    · exact ⟨place 7, rfl⟩
  priority := (arranged_quay sp).rooted.priority
  frame := ⟨.small 0, rfl⟩

theorem loadable_quay : Loadable stageLayout (quay 6) (place 9)
    { context := place 12, home := place 12, method := place 13, receiver := place 0, pc := 0, sp := 5
      literalCount := 0 } where
  suspended := rfl
  loaded := ⟨⟨place 13, rfl, .inr ⟨rfl, rfl, rfl⟩⟩, rfl, ⟨⟨0⟩, rfl, rfl⟩, ⟨5, rfl, rfl⟩, ⟨0, rfl, rfl⟩⟩
  apart := by
    change place 12 ≠ place 11
    decide
  home := by decide
  method := by decide
  storable := by decide

/-- The second process takes over from the first one, which stands in its list then. The third one
stands in two lists. -/
theorem resume_keeps_lists_quay : stageLayout.Proper ∧
    (∀ sp, Settled stageLayout (quay sp) quaySchedule ∧ Fit stageLayout (quay sp)) ∧
    Receives (quay 6) (place 9) ∧ Receives (quay 7) (place 10) ∧
    (∃ m', Primitive.resume 0 (quay 6) = .ok .done m' ∧
      Settled stageLayout m' (quaySchedule.resume stageLayout (place 9)) ∧
      ∃ m'', drain (place 5) 1 m' = .ok [place 8] m'') ∧
    ∃ m', Primitive.resume 0 (quay 7) = .ok .done m' ∧
      place 10 ∈ members m' (place 7) ∧ place 10 ∈ members m' (place 5) := by
  have hsecond : Receives (quay 6) (place 9) := ⟨rfl, rfl⟩
  have hthird : Receives (quay 7) (place 10) := ⟨rfl, rfl⟩
  refine ⟨proper_stage, fun sp => ⟨settled_quay sp, fit_quay sp⟩, hsecond, hthird, ?_, ?_⟩
  · have hun : stageLayout.Unlisted quaySchedule.queue (place 9) := fun l _ hmem =>
      absurd (mem_quaySchedule.1 hmem).2 (by decide)
    obtain ⟨m', hrun, hlists, -⟩ := (resume_keeps_lists proper_stage (settled_quay 6) (fit_quay 6)
      (by decide) hsecond 0).2 (by decide) fun _ => ⟨_, loadable_quay⟩
    obtain ⟨hsettled, hqueues⟩ := hlists hun
    exact ⟨m', hrun, hsettled, (hqueues (place 5) (by decide)).2⟩
  · obtain ⟨m', hrun, -, htangled⟩ := (resume_keeps_lists proper_stage (settled_quay 7) (fit_quay 7)
      (by decide) hthird 0).2 (by decide) fun hlt => absurd hlt (by decide)
    exact ⟨m', hrun, (htangled (place 7) (by decide) [] [] rfl).twice (by decide) (by decide)⟩

/-- A process that waits for a semaphore is not refused when it is resumed, and stands in two lists. -/
theorem resume_breaks_lists : ¬ ∀ (L : Layout) (m : Machine) (S : Schedule) (p : Value) (n : Nat),
    L.Proper → Settled L m S → Fit L m → p ∈ L.processes → Receives m p →
      (∃ m', Primitive.resume n m = .error .declined m' ∧ ∀ l ∈ L.holders, members m' l = members m l) ∨
      ∃ m' S', Primitive.resume n m = .ok .done m' ∧ Seated L m' S' ∧
        ∀ l ∈ L.holders, ∀ q ∈ S.queue l, q ≠ p → q ∈ S'.queue l := by
  intro hall
  have h := settled_quay 7
  have hthird : Receives (quay 7) (place 10) := ⟨rfl, rfl⟩
  obtain ⟨m₁, hresume, -⟩ := h.resume_ends proper_stage (fit_quay 7) (p := place 10) (by decide)
    (by decide) fun hlt => absurd hlt (by decide)
  have hrun := h.primitive_of_resume (n := 0) hthird (by decide) hresume
  rcases hall stageLayout _ quaySchedule (place 10) 0 proper_stage h (fit_quay 7) (by decide) hthird with
    ⟨m', hrefused, -⟩ | ⟨m', S', hends, hseat, -⟩
  · cases hrun.symm.trans hrefused
  · obtain rfl : m₁ = m' := by
      cases hrun.symm.trans hends
      rfl
    have hd := proper_stage.toDistinct
    have hsemaphore : place 7 ∈ stageLayout.holders := by decide
    have hlist : place 5 ∈ stageLayout.holders := by decide
    have hwaits : quaySchedule.queue (place 7) = [] ++ place 10 :: [] := rfl
    have htwice := (h.resume_listed proper_stage (fit_quay 7) hsemaphore hwaits hresume).twice
      (by decide) (by decide)
    rw [hseat.members hd hsemaphore] at htwice
    have hother : place 10 ∈ S'.queue (place 5) := hseat.members hd hlist ▸ htwice.2
    exact absurd (hseat.threaded.single _ hsemaphore _ hlist _ htwice.1 hother) (by decide)

end Smalltalk.Scheduling
