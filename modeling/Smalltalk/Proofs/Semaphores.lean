import Mathlib.Data.List.Chain
import Smalltalk.Proofs.Caching
import Smalltalk.Proofs.Scheduling

/-!
# Semaphores neither lose nor invent signals

A signal of a semaphore is counted or lets the first process go that waits for it; a wait takes a
counted signal or puts the active process behind the others. So every signal is accounted for: it
ended a wait at once, it let a process go, or it is still counted. The account is kept by looking at
the semaphore before and after each operation, and it holds however operations on other semaphores
and processes come in between, and whatever the processes outside the lists are still linked to.
-/

namespace Smalltalk.Scheduling

variable {L : Layout} {c c' : Cells} {queue : Value → List Value} {l k p q s : Value}
  {ps : List Value} {nil : Value} {m m' m₁ : Machine} {S S' : Schedule} {u : Unit} {x : Value}

/-! ### The processes in a list -/

/-- The processes from `p` on, up to the last one of the list. -/
def membersFrom (c : Cells) (last : Value) : Nat → Value → List Value
  | 0, _ => []
  | n + 1, p =>
    if p = last then [p] else p :: ((c p Process.next).map (membersFrom c last n)).getD []

/-- The processes in a list, found through their links. -/
def members (m : Machine) (list : Value) : List Value :=
  match m.memory.cell list ProcessList.first, m.memory.cell list ProcessList.last with
  | some first, some last =>
    if first = m.specials.nil then []
    else membersFrom m.memory.cell last (m.memory.slots.size + 1) first
  | _, _ => []

theorem membersFrom_eq {n : Nat} {last : Value}
    (chain : (p :: ps).IsChain fun p q => c p Process.next = some q)
    (hlast : (p :: ps).getLast? = some last) (once : (p :: ps).Nodup) (hn : ps.length < n) :
    membersFrom c last n p = p :: ps := by
  induction ps generalizing p n with
  | nil =>
    obtain ⟨n, rfl⟩ := Nat.exists_eq_succ_of_ne_zero (Nat.ne_of_gt hn)
    exact if_pos (Option.some.inj hlast)
  | cons q ps ih =>
    obtain ⟨n, rfl⟩ := Nat.exists_eq_succ_of_ne_zero (Nat.ne_of_gt (Nat.zero_lt_of_lt hn))
    obtain ⟨hnext, chain⟩ := List.isChain_cons_cons.1 chain
    rw [List.getLast?_cons_cons] at hlast
    have hne : p ≠ last := fun e =>
      (List.nodup_cons.1 once).1 (e ▸ List.mem_of_getLast? hlast)
    rw [membersFrom, if_neg hne, hnext, Option.map_some, Option.getD_some,
      ih chain hlast (List.nodup_cons.1 once).2 (Nat.lt_of_succ_lt_succ hn)]

/-- Every process that is linked to the next one is there. -/
theorem isLive_of_chain (chain : ps.IsChain fun p q => m.memory.cell p Process.next = some q)
    (hp : p ∈ ps.dropLast) : m.memory.isLive p = true := by
  induction ps with
  | nil => exact absurd hp List.not_mem_nil
  | cons q ps ih =>
    cases ps with
    | nil => exact absurd hp List.not_mem_nil
    | cons r ps =>
      obtain ⟨hnext, chain⟩ := List.isChain_cons_cons.1 chain
      rcases List.mem_cons.1 hp with rfl | hp
      · exact Memory.isLive_of_cell hnext
      · exact ih chain hp

theorem Threads.members (h : Threads m.memory.cell m.specials.nil l ps) (once : ps.Nodup)
    (hnil : m.specials.nil ∉ ps) : members m l = ps := by
  rw [Scheduling.members, h.first]
  cases ps with
  | nil =>
    cases m.memory.cell l ProcessList.last with
    | none => rfl
    | some last => exact if_pos rfl
  | cons p ps =>
    have hend := List.getLast?_eq_some_getLast (List.cons_ne_nil p ps)
    have hroom := Memory.length_le_of_isLive (once.sublist (List.dropLast_sublist _))
      fun q hq => isLive_of_chain h.chain hq
    rw [h.last _ hend]
    rw [List.length_dropLast, List.length_cons, Nat.add_sub_cancel] at hroom
    refine (if_neg fun e => hnil ?_).trans
      (membersFrom_eq h.chain hend once (Nat.lt_succ_of_le hroom))
    exact List.mem_cons.2 (.inl e.symm)

/-! ### Lists that lead through their processes -/

theorem Threads.congr (hfirst : c' l ProcessList.first = c l ProcessList.first)
    (hlast : c' l ProcessList.last = c l ProcessList.last)
    (hnext : ∀ p ∈ ps, c' p Process.next = c p Process.next) (h : Threads c nil l ps) :
    Threads c' nil l ps := by
  refine ⟨hfirst.trans h.first, fun q hq => hlast.trans (h.last q hq), ?_⟩
  exact h.chain.imp_of_mem_imp fun p q hp _ hpq => (hnext p hp).trans hpq

/-- Any process that is not in a list can be put at its end, whatever it is linked to. -/
theorem Threads.enlist (h : Threads c nil l ps) (once : ps.Nodup) (fresh : p ∉ ps)
    (hl : l ∉ p :: ps) : Threads (enlist c p l ps) nil l (ps ++ [p]) := by
  have hlp : l ≠ p := List.ne_of_not_mem_cons hl
  -- of the links, only the one of the last process changes
  have hlink : ∀ r ∈ ps, Scheduling.enlist c p l ps r Process.next =
      if ps.getLast? = some r then some p else c r Process.next := by
    intro r hr
    have hrl : r ≠ l := fun e => hl (List.mem_cons_of_mem p (e ▸ hr))
    have hne : ps ≠ [] := List.ne_nil_of_mem hr
    rw [Scheduling.enlist, Cells.set_of_index_ne (by decide), Cells.set_of_ne hrl,
      List.getLast?_eq_some_getLast hne, attach]
    by_cases hend : ps.getLast hne = r
    · subst hend
      rw [Cells.set_same, if_pos rfl]
    · rw [Cells.set_of_ne (Ne.symm hend), if_neg fun e => hend (Option.some.inj e)]
  refine ⟨?_, fun q hq => ?_, ?_⟩
  · rw [Scheduling.enlist, Cells.set_of_ne hlp, Cells.set_of_index_ne (by decide)]
    cases ps with
    | nil => exact Cells.set_same ..
    | cons r ps =>
      have hne := List.cons_ne_nil r ps
      have hlq : l ≠ (r :: ps).getLast hne := fun e =>
        hl (List.mem_cons_of_mem p (e.symm ▸ List.getLast_mem hne))
      rw [List.getLast?_eq_some_getLast hne, attach, Cells.set_of_ne hlq, h.first]
      rfl
  · obtain rfl : p = q := by simpa using hq
    rw [Scheduling.enlist, Cells.set_of_ne hlp, Cells.set_same]
  · refine List.isChain_append.2 ⟨?_, .singleton p, fun r hr q hq => ?_⟩
    · refine List.isChain_iff_getElem.2 fun i hi => ?_
      have hne : ps.getLast? ≠ some ps[i] := by
        rw [List.getLast?_eq_getElem?, ← List.getElem?_eq_getElem]
        intro e
        have := (List.getElem?_inj (by omega) once).1 e
        omega
      rw [hlink _ (List.getElem_mem _), if_neg hne]
      exact List.isChain_iff_getElem.1 h.chain i hi
    · obtain rfl : p = q := by simpa using hq
      rw [hlink r (List.mem_of_getLast? hr), if_pos (Option.mem_def.1 hr)]

/-- The first process of a list can be taken off it. -/
theorem Threads.delist (h : Threads c nil l (p :: ps)) (hp : p ∉ ps) (hl : l ∉ p :: ps) :
    Threads (delist c nil p l ps) nil l ps := by
  have hlp : l ≠ p := List.ne_of_not_mem_cons hl
  refine ⟨?_, fun q hq => ?_, ?_⟩
  · rw [Scheduling.delist, Cells.set_of_ne hlp]
    cases ps with
    | nil =>
      rw [advance, Cells.set_of_index_ne (by decide)]
      exact Cells.set_same ..
    | cons q ps => exact Cells.set_same ..
  · rw [Scheduling.delist, Cells.set_of_ne hlp]
    cases ps with
    | nil => exact absurd hq (by simp)
    | cons r ps =>
      rw [advance, Cells.set_of_index_ne (by decide)]
      exact h.last q (List.getLast?_cons_cons.trans hq)
  · refine h.chain.tail.imp_of_mem_imp fun q r hq _ hqr => ?_
    rw [← hqr]
    refine delist_other ?_ (.inl ?_)
    · rintro rfl
      exact hl (List.mem_cons_of_mem p hq)
    · rintro rfl
      exact hp hq

/-- Only processes stand in lists, each in one at most and there once. -/
structure Rows (L : Layout) (queue : Value → List Value) : Prop where
  once : ∀ l ∈ L.holders, (queue l).Nodup
  process : ∀ l ∈ L.holders, ∀ p ∈ queue l, p ∈ L.processes
  single : ∀ l ∈ L.holders, ∀ k ∈ L.holders, ∀ p ∈ queue l, p ∈ queue k → l = k

theorem Rows.holder_not_mem (h : Rows L queue) (hL : L.Distinct) (hl : l ∈ L.holders)
    (hk : k ∈ L.holders) : l ∉ queue k := fun hmem =>
  hL.holder_ne_process hl (h.process k hk l hmem) rfl

theorem Rows.nil_not_mem (h : Rows L queue) (hL : L.Distinct) (hl : l ∈ L.holders) :
    L.nil ∉ queue l := fun hmem => hL.nil_ne_process (h.process l hl _ hmem) rfl

theorem Rows.enlist (h : Rows L queue) (hl : l ∈ L.holders) (hp : p ∈ L.processes)
    (unlisted : L.Unlisted queue p) :
    Rows L (Function.update queue l (queue l ++ [p])) := by
  -- who stands in a list now stood there before, or is `p`
  have hcases : ∀ k, ∀ q ∈ Function.update queue l (queue l ++ [p]) k,
      q ∈ queue k ∨ q = p ∧ k = l := fun k q hq =>
    Schedule.mem_enlist (S := ⟨p, queue⟩) hq
  refine ⟨fun k hk => ?_, fun k hk q hq => ?_, fun k hk j hj q hq hq' => ?_⟩
  · by_cases hkl : k = l
    · subst hkl
      rw [Function.update_self]
      exact List.nodup_append.2 ⟨h.once k hk, List.nodup_singleton p, fun q hq r hr e =>
        unlisted k hk (List.mem_singleton.1 hr ▸ e ▸ hq)⟩
    · rw [Function.update_of_ne hkl]
      exact h.once k hk
  · rcases hcases k q hq with hq | ⟨rfl, -⟩
    · exact h.process k hk q hq
    · exact hp
  · rcases hcases k q hq with hq | ⟨rfl, rfl⟩ <;> rcases hcases j q hq' with hq' | ⟨hqp, hjl⟩
    · exact h.single k hk j hj q hq hq'
    · exact absurd hq (hqp ▸ unlisted k hk)
    · exact absurd hq' (unlisted j hj)
    · exact hjl.symm

theorem Schedule.mem_of_mem_withQueue (hq : S.queue l = p :: ps)
    (h : q ∈ (S.withQueue l ps).queue k) : q ∈ S.queue k := by
  by_cases hkl : k = l
  · subst hkl
    rw [Schedule.withQueue_self] at h
    exact hq ▸ List.mem_cons_of_mem p h
  · rwa [S.withQueue_of_ne _ hkl] at h

theorem Rows.delist (h : Rows L queue) (hl : l ∈ L.holders) (hq : queue l = p :: ps) :
    Rows L (Function.update queue l ps) ∧ L.Unlisted (Function.update queue l ps) p := by
  have hsub : ∀ k, ∀ q ∈ Function.update queue l ps k, q ∈ queue k := fun k q hmem =>
    Schedule.mem_of_mem_withQueue (S := ⟨p, queue⟩) hq hmem
  have honce : p ∉ ps ∧ ps.Nodup := List.nodup_cons.1 (hq ▸ h.once l hl)
  refine ⟨⟨fun k hk => ?_, fun k hk q hmem => h.process k hk q (hsub k q hmem),
    fun k hk j hj q hmem hmem' => h.single k hk j hj q (hsub k q hmem) (hsub j q hmem')⟩,
    fun k hk hmem => ?_⟩
  · by_cases hkl : k = l
    · subst hkl
      rw [Function.update_self]
      exact honce.2
    · rw [Function.update_of_ne hkl]
      exact h.once k hk
  · obtain rfl := h.single k hk l hl p (hsub k p hmem) (hq ▸ List.mem_cons_self)
    rw [Function.update_self] at hmem
    exact honce.1 hmem

/-- The fields lead through the lists. -/
structure Threaded (L : Layout) (c : Cells) (queue : Value → List Value) : Prop
    extends Rows L queue where
  threads : ∀ l ∈ L.holders, Threads c L.nil l (queue l)

theorem Listed.threaded (h : Listed L c queue) : Threaded L c queue :=
  ⟨⟨h.once, h.process, fun _ hl _ hk _ hp hp' => h.single hl hk hp hp'⟩,
    fun l hl => (h.holds l hl).threads⟩

theorem Threaded.congr (h : Threaded L c queue)
    (hholder : ∀ l ∈ L.holders, ∀ i, i ≠ ProcessList.excessSignals → c' l i = c l i)
    (hprocess : ∀ p ∈ L.processes, c' p Process.next = c p Process.next) :
    Threaded L c' queue where
  toRows := h.toRows
  threads l hl := (h.threads l hl).congr (hholder l hl _ (by decide)) (hholder l hl _ (by decide))
    fun p hp => hprocess p (h.process l hl p hp)

theorem Threaded.enlist (h : Threaded L c queue) (hL : L.Distinct) (hl : l ∈ L.holders)
    (hp : p ∈ L.processes) (unlisted : L.Unlisted queue p) :
    Threaded L (enlist c p l (queue l)) (Function.update queue l (queue l ++ [p])) := by
  refine ⟨h.toRows.enlist hl hp unlisted, fun k hk => ?_⟩
  have hnot : k ∉ p :: queue l := fun hmem =>
    (List.mem_cons.1 hmem).elim (hL.holder_ne_process hk hp) (h.holder_not_mem hL hk hl)
  by_cases hkl : k = l
  · subst hkl
    rw [Function.update_self]
    exact (h.threads k hk).enlist (h.once k hk) (unlisted k hk) hnot
  · rw [Function.update_of_ne hkl]
    refine (h.threads k hk).congr (enlist_other hkl (.inl hnot)) (enlist_other hkl (.inl hnot)) ?_
    intro q hq
    refine enlist_other (Ne.symm (hL.holder_ne_process hl (h.process k hk q hq))) (.inl ?_)
    -- the processes of another list are neither `p` nor in `l`
    intro hmem
    rcases List.mem_cons.1 hmem with rfl | hmem
    · exact unlisted k hk hq
    · exact hkl (h.single k hk l hl q hq hmem)

theorem Threaded.delist (h : Threaded L c queue) (hL : L.Distinct) (hl : l ∈ L.holders)
    (hq : queue l = p :: ps) :
    Threaded L (delist c L.nil p l ps) (Function.update queue l ps) := by
  have hp : p ∈ queue l := hq ▸ List.mem_cons_self
  refine ⟨(h.toRows.delist hl hq).1, fun k hk => ?_⟩
  by_cases hkl : k = l
  · subst hkl
    rw [Function.update_self]
    exact Threads.delist (hq ▸ h.threads k hk) (List.nodup_cons.1 (hq ▸ h.once k hk)).1
      (hq ▸ h.holder_not_mem hL hk hk)
  · rw [Function.update_of_ne hkl]
    have hkp : k ≠ p := hL.holder_ne_process hk (h.process l hl p hp)
    refine (h.threads k hk).congr (delist_other hkl (.inl hkp)) (delist_other hkl (.inl hkp)) ?_
    intro q hmem
    refine delist_other (Ne.symm (hL.holder_ne_process hl (h.process k hk q hmem))) (.inl ?_)
    rintro rfl
    exact hkl (h.single k hk l hl q hmem hp)

/-! ### Machines with lists that lead through their processes -/

/-- How the scheduler is found, and what the processes go on with. -/
structure Placed (L : Layout) (c : Cells) : Prop where
  association : c L.array Special.schedulerAssociation = some L.association
  scheduler : c L.association Association.value = some L.scheduler
  table : c L.scheduler Scheduler.processLists = some L.table
  lists : ∀ i, c L.table i = L.lists[i]?
  suspended : ∀ p ∈ L.processes, ∀ x, c p Process.suspendedContext = some x → x ∉ L.objects

theorem Placed.congr (h : Placed L c) (hL : L.Distinct)
    (hroot : ∀ v ∈ [L.array, L.association, L.scheduler, L.table], ∀ i,
      v ≠ L.scheduler ∨ i ≠ Scheduler.activeProcess → c' v i = c v i)
    (hsuspended : ∀ p ∈ L.processes, ∀ x, c' p Process.suspendedContext = some x →
      x ∉ L.objects) : Placed L c' := by
  have hne := hL.ne_scheduler
  refine ⟨?_, ?_, ?_, fun i => ?_, hsuspended⟩
  · rw [hroot _ (by simp) _ (.inl hne.1), h.association]
  · rw [hroot _ (by simp) _ (.inl hne.2.1), h.scheduler]
  · rw [hroot _ (by simp) _ (.inr (by decide)), h.table]
  · rw [hroot _ (by simp) _ (.inl hne.2.2), h.lists]

/-- A machine with well-formed lists that hold the processes of a schedule. Unlike in an arranged
machine, nothing is said about priorities and about what stands behind the last process. -/
structure Seated (L : Layout) (m : Machine) (S : Schedule) : Prop where
  nil : m.specials.nil = L.nil
  array : m.specials.array = L.array
  context : m.registers.context ∉ L.objects
  placed : Placed L m.memory.cell
  running : m.memory.cell L.scheduler Scheduler.activeProcess = some S.active
  active : S.active ∈ L.processes
  threaded : Threaded L m.memory.cell S.queue

theorem Arranged.seated (h : Arranged L m S) : Seated L m S where
  nil := h.nil
  array := h.array
  context := h.context
  placed := ⟨h.rooted.association, h.rooted.scheduler, h.rooted.table, h.rooted.lists,
    h.rooted.suspended⟩
  running := h.running
  active := h.active
  threaded := h.listed.threaded

theorem Seated.threads (h : Seated L m S) (hl : l ∈ L.holders) :
    Threads m.memory.cell m.specials.nil l (S.queue l) := h.nil ▸ h.threaded.threads l hl

theorem Seated.nil_not_mem (h : Seated L m S) (hL : L.Distinct) (hl : l ∈ L.holders) :
    m.specials.nil ∉ S.queue l := h.nil ▸ h.threaded.nil_not_mem hL hl

/-- Walking through a list finds its processes. -/
theorem Seated.members (h : Seated L m S) (hL : L.Distinct) (hl : l ∈ L.holders) :
    members m l = S.queue l :=
  (h.threads hl).members (h.threaded.once l hl) (h.nil_not_mem hL hl)

open Outcome Smalltalk.Action

theorem Seated.scheduler_ok (h : Seated L m S) :
    scheduler m = .ok x m' ↔ L.scheduler = x ∧ m = m' :=
  scheduler_ok_of_cells (h.array ▸ h.placed.association) h.placed.scheduler

theorem Seated.activeProcess_ok (h : Seated L m S) (hx : activeProcess m = .ok x m') :
    x = S.active ∧ m = m' := by
  simp only [activeProcess, bind_ok, h.scheduler_ok, fetch_ok] at hx
  obtain ⟨_, _, ⟨rfl, rfl⟩, hx, rfl⟩ := hx
  rw [h.running] at hx
  exact ⟨(Option.some.inj hx).symm, rfl⟩

/-- Whether two machines have counted the same signals. -/
def SameExcess (L : Layout) (m m' : Machine) : Prop :=
  ∀ l ∈ L.holders,
    m'.memory.cell l ProcessList.excessSignals = m.memory.cell l ProcessList.excessSignals

theorem SameExcess.trans (h : SameExcess L m m₁) (h' : SameExcess L m₁ m') : SameExcess L m m' :=
  fun l hl => (h' l hl).trans (h l hl)

/-- What is found elsewhere does not depend on the links. -/
theorem Seated.relink {memory : Memory} (h : Seated L m S) (hL : L.Distinct)
    (hroot : ∀ v ∈ [L.array, L.association, L.scheduler, L.table], ∀ i,
      memory.cell v i = m.memory.cell v i)
    (hsuspended : ∀ p ∈ L.processes,
      memory.cell p Process.suspendedContext = m.memory.cell p Process.suspendedContext)
    (hthreaded : Threaded L memory.cell queue) :
    Seated L { m with memory } { S with queue } where
  nil := h.nil
  array := h.array
  context := h.context
  placed := h.placed.congr hL (fun v hv i _ => hroot v hv i)
    fun p hp x hx => h.placed.suspended p hp x (hsuspended p hp ▸ hx)
  running := (hroot _ (by simp) _).trans h.running
  active := h.active
  threaded := hthreaded

theorem Seated.linkLast (h : Seated L m S) (hL : L.Distinct) (hl : l ∈ L.holders)
    (hp : p ∈ L.processes) (unlisted : L.Unlisted S.queue p)
    (hrun : linkLast p l m = .ok u m') : Seated L m' (S.enlist p l) ∧ SameExcess L m m' := by
  obtain ⟨memory, rfl, hcell⟩ := linkLast_ok (h.threads hl) (h.nil_not_mem hL hl) hrun
  have hnot : ∀ v, v ∉ L.processes → v ∉ p :: S.queue l := fun v hv hmem =>
    (List.mem_cons.1 hmem).elim (fun e => hv (e ▸ hp)) fun hmem =>
      hv (h.threaded.process l hl v hmem)
  refine ⟨h.relink hL (fun v hv i => ?_) (fun q hq => ?_) ?_, fun k hk => ?_⟩
  · rw [hcell]
    exact enlist_other (hL.root_ne hv (.inl hl))
      (.inl (hnot v fun hmem => hL.root_ne hv (.inr hmem) rfl))
  · rw [hcell]
    exact enlist_other (Ne.symm (hL.holder_ne_process hl hq)) (.inr ⟨by decide, by decide⟩)
  · rw [hcell]
    exact h.threaded.enlist hL hl hp unlisted
  · change memory.cell k ProcessList.excessSignals = _
    have hkp := hL.holder_ne_process hk hp
    rw [hcell, enlist, Cells.set_of_ne hkp, Cells.set_of_index_ne (by decide)]
    cases (S.queue l).getLast? with
    | none => exact Cells.set_of_index_ne (by decide)
    | some r => exact Cells.set_of_index_ne (by decide)

theorem Seated.unlinkFirst (h : Seated L m S) (hL : L.Distinct) (hl : l ∈ L.holders)
    (hq : S.queue l = p :: ps) (hrun : unlinkFirst l m = .ok x m') :
    x = p ∧ Seated L m' (S.withQueue l ps) ∧ SameExcess L m m' ∧
      L.Unlisted (S.withQueue l ps).queue p := by
  obtain ⟨rfl, memory, rfl, hcell⟩ :=
    unlinkFirst_ok (hq ▸ h.threads hl) (hq ▸ h.threaded.once l hl) hrun
  rw [h.nil] at hcell
  have hx : x ∈ L.processes := h.threaded.process l hl x (hq ▸ List.mem_cons_self)
  refine ⟨rfl, h.relink hL (fun v hv i => ?_) (fun q hmem => ?_) ?_, fun k hk => ?_,
    (h.threaded.toRows.delist hl hq).2⟩
  · rw [hcell]
    exact delist_other (hL.root_ne hv (.inl hl)) (.inl (hL.root_ne hv (.inr hx)))
  · rw [hcell]
    exact delist_other (Ne.symm (hL.holder_ne_process hl hmem)) (.inr (by decide))
  · rw [hcell]
    exact h.threaded.delist hL hl hq
  · change memory.cell k ProcessList.excessSignals = _
    rw [hcell, delist, Cells.set_of_ne (hL.holder_ne_process hk hx)]
    cases ps with
    | nil => rw [advance, Cells.set_of_index_ne (by decide), Cells.set_of_index_ne (by decide)]
    | cons q ps => exact Cells.set_of_index_ne (by decide)

/-- A process that is made ready goes to one of the priority lists. -/
theorem Seated.makeReady (h : Seated L m S) (hL : L.Distinct) (hp : p ∈ L.processes)
    (unlisted : L.Unlisted S.queue p) (hrun : makeReady p m = .ok u m') :
    ∃ l ∈ L.lists, Seated L m' (S.enlist p l) ∧ SameExcess L m m' := by
  simp only [Action.makeReady, bind_ok, h.scheduler_ok, fetch_ok, priority, fetchInt_ok] at hrun
  obtain ⟨_, _, ⟨rfl, rfl⟩, table, _, ⟨htable, rfl⟩, n, _, ⟨-, rfl⟩, hrun⟩ := hrun
  rw [h.placed.table] at htable
  obtain rfl : L.table = table := Option.some.inj htable
  by_cases hn : n < 1
  · rw [if_pos hn] at hrun
    obtain ⟨_, _, hthrow, -⟩ := bind_ok.1 hrun
    exact absurd hthrow throw_ok.1
  rw [if_neg hn] at hrun
  simp only [bind_ok, fetch_ok] at hrun
  obtain ⟨l, _, ⟨hl, rfl⟩, hrun⟩ := hrun
  rw [h.placed.lists] at hl
  exact ⟨l, List.mem_of_getElem? hl, h.linkLast hL (L.mem_holders_of_list hl) hp unlisted hrun⟩

/-- Switching to another process leaves the lists and the counts alone. -/
theorem Seated.transferTo (h : Seated L m S) (hL : L.Distinct) (hp : p ∈ L.processes)
    (hne : p ≠ S.active) (hrun : transferTo p m = .ok u m') :
    Seated L m' (S.run p) ∧ SameExcess L m m' := by
  obtain ⟨s, old, next, r, hs, hold, hsuspend, hnext, rfl, -, hresume, rfl⟩ := transferTo_ok hrun
  obtain ⟨rfl, -⟩ := h.scheduler_ok.1 hs
  rw [h.running] at hold
  obtain rfl : S.active = old := Option.some.inj hold
  have hactive : ∃ y, m.memory.cell L.scheduler Scheduler.activeProcess = some y := ⟨_, h.running⟩
  have hcell : ∀ w ∈ L.objects, ∀ j, _ := fun w hw j =>
    transferred_cell (r := r) (j := j) hactive hsuspend hresume fun e => h.context (e ▸ hw)
  have hscheduler : ∀ q ∈ L.processes, q ≠ L.scheduler := fun q hq =>
    Ne.symm (hL.root_ne (by simp) (.inr hq))
  have hcontext : r.context ∉ L.objects := by
    rw [handedOver, Machine.cell_setCell hsuspend, Machine.cell_setCell hactive,
      Cells.set_of_ne hne, Cells.set_of_ne (hscheduler p hp)] at hnext
    exact h.placed.suspended p hp _ hnext
  have hholder : ∀ l ∈ L.holders, ∀ i,
      (transferred m L.scheduler S.active p r).memory.cell l i = m.memory.cell l i := by
    intro l hl i
    rw [hcell l (L.mem_objects_of_holder hl), Cells.set_of_ne (hL.holder_ne_process hl hp),
      Cells.set_of_ne (hL.holder_ne_process hl h.active),
      Cells.set_of_ne (Ne.symm (hL.root_ne (by simp) (.inl hl)))]
  refine ⟨⟨h.nil, h.array, hcontext, ?_, ?_, hp, ?_⟩, fun l hl => hholder l hl _⟩
  · refine h.placed.congr hL (fun v hv i hi => ?_) fun q hq x hx => ?_
    · rw [hcell v (List.mem_append_left _ hv), Cells.set_of_ne (hL.root_ne hv (.inr hp)),
        Cells.set_of_ne (hL.root_ne hv (.inr h.active))]
      exact hi.elim Cells.set_of_ne Cells.set_of_index_ne
    · rw [hcell q (L.mem_objects_of_process hq)] at hx
      by_cases hqp : q = p
      · subst hqp
        rw [Cells.set_same, h.nil] at hx
        exact Option.some.inj hx ▸ hL.nil_not_mem
      rw [Cells.set_of_ne hqp] at hx
      by_cases hqa : q = S.active
      · subst hqa
        rw [Cells.set_same] at hx
        exact Option.some.inj hx ▸ h.context
      · rw [Cells.set_of_ne hqa, Cells.set_of_ne (hscheduler q hq)] at hx
        exact h.placed.suspended q hq x hx
  · rw [hcell _ (List.mem_append_left _ (by simp)), Cells.set_of_ne (hscheduler p hp).symm,
      Cells.set_of_ne (hscheduler _ h.active).symm, Cells.set_same]
    rfl
  · refine h.threaded.congr (fun l hl i _ => hholder l hl i) fun q hq => ?_
    rw [hcell q (L.mem_objects_of_process hq), Cells.set_of_index_ne (by decide),
      Cells.set_of_index_ne (by decide), Cells.set_of_ne (hscheduler q hq)]

/-- The process that is picked to run next was the first of a priority list. -/
theorem Seated.unlinkHighest {count : Nat} (h : Seated L m S) (hL : L.Distinct)
    (hrun : unlinkHighest L.table count m = .ok x m') :
    ∃ l ∈ L.lists, ∃ ps, S.queue l = x :: ps ∧ Seated L m' (S.withQueue l ps) ∧
      SameExcess L m m' ∧ L.Unlisted (S.withQueue l ps).queue x := by
  induction count with
  | zero => exact absurd hrun (by simp [Action.unlinkHighest, throw_ok])
  | succ count ih =>
    simp only [Action.unlinkHighest, bind_ok, fetch_ok] at hrun
    obtain ⟨l, _, ⟨hl, rfl⟩, b, _, hlook, hrun⟩ := hrun
    rw [h.placed.lists] at hl
    have hholder := L.mem_holders_of_list hl
    obtain ⟨hb, rfl⟩ := isEmptyList_ok (h.threads hholder) (h.nil_not_mem hL hholder) hlook
    cases hq : S.queue l with
    | nil =>
      rw [if_pos (hb.2 hq)] at hrun
      exact ih hrun
    | cons p ps =>
      rw [if_neg fun e => List.cons_ne_nil p ps (hq.symm.trans (hb.1 e))] at hrun
      obtain ⟨rfl, hseat⟩ := h.unlinkFirst hL hholder hq hrun
      exact ⟨l, List.mem_of_getElem? hl, ps, hq, hseat⟩

theorem Seated.pickTop (h : Seated L m S) (hL : L.Distinct) (hrun : pickTop m = .ok x m') :
    ∃ l ∈ L.lists, ∃ ps, S.queue l = x :: ps ∧ Seated L m' (S.withQueue l ps) ∧
      SameExcess L m m' ∧ L.Unlisted (S.withQueue l ps).queue x := by
  simp only [Action.pickTop, bind_ok, h.scheduler_ok, fetch_ok, object_ok] at hrun
  obtain ⟨_, _, ⟨rfl, rfl⟩, table, _, ⟨htable, rfl⟩, o, _, ⟨-, rfl⟩, hrun⟩ := hrun
  rw [h.placed.table] at htable
  obtain rfl : L.table = table := Option.some.inj htable
  exact h.unlinkHighest hL hrun

theorem Seated.setExcess {y : Value} (h : Seated L m S) (hL : L.Distinct) (hl : l ∈ L.holders)
    (hcell : m.memory.cell l ProcessList.excessSignals = some y) :
    Seated L (m.setCell l ProcessList.excessSignals x) S := by
  have hset : (m.setCell l ProcessList.excessSignals x).memory.cell =
      Cells.set m.memory.cell l ProcessList.excessSignals x := Machine.cell_setCell ⟨y, hcell⟩
  have hother : ∀ v, v ≠ l → ∀ i,
      (m.setCell l ProcessList.excessSignals x).memory.cell v i = m.memory.cell v i := by
    intro v hv i
    rw [hset, Cells.set_of_ne hv]
  have hprocess : ∀ p ∈ L.processes, p ≠ l := fun p hp => Ne.symm (hL.holder_ne_process hl hp)
  refine h.relink hL (fun v hv i => hother v (hL.root_ne hv (.inl hl)) i)
    (fun p hp => hother p (hprocess p hp) _)
    (h.threaded.congr (fun k _ i hi => ?_) fun p hp => hother p (hprocess p hp) _)
  change (m.setCell l ProcessList.excessSignals x).memory.cell k i = m.memory.cell k i
  rw [hset, Cells.set_of_index_ne hi]

/-! ### What an operation does to one semaphore -/

/-- The count of a semaphore, the processes that wait for it, and the process that runs. -/
structure Gauge where
  excess : Int
  waiting : List Value
  running : Value

/-- A machine with well-formed lists whose running process is in none of them. -/
structure Settled (L : Layout) (m : Machine) (S : Schedule) : Prop extends Seated L m S where
  unlisted : L.Unlisted S.queue S.active

/-- A count can be set without disturbing the lists. -/
theorem Settled.setExcess {y : Value} (h : Settled L m S) (hL : L.Distinct) (hl : l ∈ L.holders)
    (hcell : m.memory.cell l ProcessList.excessSignals = some y) :
    Settled L (m.setCell l ProcessList.excessSignals x) S ∧
      ∀ s, (m.setCell l ProcessList.excessSignals x).memory.cell s ProcessList.excessSignals =
        if s = l then some x else m.memory.cell s ProcessList.excessSignals := by
  refine ⟨⟨h.toSeated.setExcess hL hl hcell, h.unlisted⟩, fun s => ?_⟩
  rw [Machine.cell_setCell ⟨y, hcell⟩]
  split
  case isTrue hs =>
    rw [hs, Cells.set_same]
  case isFalse hs => rw [Cells.set_of_ne hs]

/-- The process that the scheduler says is running. -/
def running (L : Layout) (m : Machine) : Option Value :=
  m.memory.cell L.scheduler Scheduler.activeProcess

/-- Whether a process runs or is ready to. -/
def Runnable (L : Layout) (m : Machine) (p : Value) : Prop :=
  running L m = some p ∨ ∃ l ∈ L.lists, p ∈ members m l

instance : Decidable (Runnable L m p) := inferInstanceAs (Decidable (_ ∨ _))

/-- What an operation can do to the semaphore `s`, after which the processes in `free` run or are
ready. -/
inductive Turn (s : Value) (free : Value → Prop) : Op → Gauge → Gauge → Prop
  /-- Nobody waits, and the signal is counted. -/
  | count {n : Int} {a : Value} : Turn s free (.signal s) ⟨n, [], a⟩ ⟨n + 1, [], a⟩
  /-- The signal lets the first process go. -/
  | release {n : Int} {p a a' : Value} {ps : List Value} : p ∉ ps → free p →
      Turn s free (.signal s) ⟨n, p :: ps, a⟩ ⟨n, ps, a'⟩
  /-- A counted signal ends the wait at once. -/
  | consume {n : Int} {a : Value} {ps : List Value} : 0 < n →
      Turn s free (.wait s) ⟨n, ps, a⟩ ⟨n - 1, ps, a⟩
  /-- The running process goes behind those that wait, and another one runs. -/
  | park {n : Int} {a a' : Value} {ps : List Value} : ¬ 0 < n → a' ≠ a → a ∉ ps →
      Turn s free (.wait s) ⟨n, ps, a⟩ ⟨n, ps ++ [a], a'⟩
  /-- The operation was not about this semaphore. -/
  | other {op : Op} {n : Int} {a a' : Value} {ps : List Value} : op ≠ .signal s → op ≠ .wait s →
      Turn s free op ⟨n, ps, a⟩ ⟨n, ps, a'⟩

/-- Whoever leaves the list was let go. -/
theorem Turn.free {free : Value → Prop} {op : Op} {g g' : Gauge} (turn : Turn s free op g g')
    (hp : p ∈ g.waiting) (hp' : p ∉ g'.waiting) : free p := by
  cases turn with
  | count => exact absurd hp hp'
  | release _ hfree =>
    rcases List.mem_cons.1 hp with rfl | hp
    · exact hfree
    · exact absurd hp hp'
  | consume => exact absurd hp hp'
  | park => exact absurd (List.mem_append_left _ hp) hp'
  | other => exact absurd hp hp'

/-- A machine with well-formed lists in which the semaphore `s` stands as the gauge says. -/
structure Shows (L : Layout) (s : Value) (m : Machine) (g : Gauge) : Prop where
  excess : m.memory.cell s ProcessList.excessSignals = some (.small g.excess)
  seat : ∃ S, Settled L m S ∧ S.queue s = g.waiting ∧ S.active = g.running

/-- What an operation may be applied to: the semaphores and processes of the layout, and a process
is let run only when it does not run and stands in no list. -/
def Op.Permitted (L : Layout) (m : Machine) : Op → Prop
  | signal t => t ∈ L.semaphores
  | wait t => t ∈ L.semaphores
  | suspend => True
  | resume p => p ∈ L.processes ∧ running L m ≠ some p ∧ ∀ l ∈ L.holders, p ∉ members m l

theorem Layout.Distinct.semaphore_ne_list (hL : L.Distinct) (hs : s ∈ L.semaphores)
    (hl : l ∈ L.lists) : s ≠ l := fun e =>
  (List.nodup_append.1 hL.holders_nodup).2.2 l hl s hs e.symm

theorem Seated.runnable (h : Seated L m S) (hL : L.Distinct) (hl : l ∈ L.lists)
    (hp : p ∈ S.queue l) : Runnable L m p :=
  .inr ⟨l, hl, (h.members hL (List.mem_append_left _ hl)).symm ▸ hp⟩

/-- Letting a process run leaves the semaphores alone. -/
theorem Seated.resume (h : Seated L m S) (hL : L.Distinct) (hp : p ∈ L.processes)
    (hne : p ≠ S.active) (unlisted : L.Unlisted S.queue p)
    (hactive : L.Unlisted S.queue S.active) (hrun : Action.resume p m = .ok u m') :
    ∃ S', Settled L m' S' ∧ Runnable L m' p ∧ SameExcess L m m' ∧
      ∀ s ∈ L.semaphores, S'.queue s = S.queue s := by
  obtain ⟨x, _, hx, hrun⟩ := bind_ok.1 hrun
  obtain ⟨rfl, rfl⟩ := h.activeProcess_ok hx
  simp only [bind_ok, priority, fetchInt_ok] at hrun
  obtain ⟨wanted, _, ⟨-, rfl⟩, current, _, ⟨-, rfl⟩, hrun⟩ := hrun
  by_cases hlt : current < wanted
  · rw [if_pos hlt] at hrun
    obtain ⟨_, m₁, hready, htransfer⟩ := bind_ok.1 hrun
    obtain ⟨l, hl, hseat, hexcess⟩ := h.makeReady hL h.active hactive hready
    obtain ⟨hseat, hexcess'⟩ := hseat.transferTo hL hp hne htransfer
    refine ⟨_, ⟨hseat, fun k hk hmem => ?_⟩, .inl hseat.running, hexcess.trans hexcess',
      fun s hs => ?_⟩
    · rcases Schedule.mem_enlist hmem with hmem | ⟨e, -⟩
      · exact unlisted k hk hmem
      · exact hne e
    · exact S.withQueue_of_ne _ (hL.semaphore_ne_list hs hl)
  · rw [if_neg hlt] at hrun
    obtain ⟨l, hl, hseat, hexcess⟩ := h.makeReady hL hp unlisted hrun
    have hready : p ∈ (S.enlist p l).queue l := by
      rw [Schedule.enlist, Schedule.withQueue_self]
      exact List.mem_append_right _ (List.mem_singleton_self p)
    refine ⟨_, ⟨hseat, fun k hk hmem => ?_⟩, hseat.runnable hL hl hready, hexcess,
      fun s hs => ?_⟩
    · rcases Schedule.mem_enlist hmem with hmem | ⟨e, -⟩
      · exact hactive k hk hmem
      · exact hne e.symm
    · exact S.withQueue_of_ne _ (hL.semaphore_ne_list hs hl)

/-- When the first ready process takes over from one that is not ready itself, the semaphores are
left alone. -/
theorem Seated.yields (h : Seated L m S) (hL : L.Distinct)
    (hactive : ∀ l ∈ L.lists, S.active ∉ S.queue l)
    (hrun : (Action.pickTop >>= Action.transferTo) m = .ok u m') :
    ∃ S', Settled L m' S' ∧ S'.active ≠ S.active ∧ SameExcess L m m' ∧
      ∀ s ∈ L.semaphores, S'.queue s = S.queue s := by
  obtain ⟨p, m₁, hpick, htransfer⟩ := bind_ok.1 hrun
  obtain ⟨l, hl, ps, hq, hseat, hexcess, hun⟩ := h.pickTop hL hpick
  have hpl : p ∈ S.queue l := hq ▸ List.mem_cons_self
  have hp := h.threaded.process l (List.mem_append_left _ hl) p hpl
  have hne : p ≠ S.active := fun e => hactive l hl (e ▸ hpl)
  obtain ⟨hseat, hexcess'⟩ := hseat.transferTo hL hp hne htransfer
  exact ⟨_, ⟨hseat, hun⟩, hne, hexcess.trans hexcess', fun s hs =>
    S.withQueue_of_ne _ (hL.semaphore_ne_list hs hl)⟩

variable {g : Gauge}

theorem Shows.signal {t : Value} (h : Shows L s m g) (hL : L.Distinct) (hs : s ∈ L.semaphores)
    (ht : t ∈ L.semaphores) (hrun : Action.signal t m = .ok u m') :
    ∃ g', Turn s (Runnable L m') (.signal t) g g' ∧ Shows L s m' g' := by
  obtain ⟨hexcess, S, hS, hwaiting, hrunning⟩ := h
  have hl := L.mem_holders_of_semaphore ht
  obtain ⟨n, ws, a⟩ := g
  obtain rfl : S.queue s = ws := hwaiting
  obtain rfl : S.active = a := hrunning
  obtain ⟨b, _, hlook, hrun⟩ := bind_ok.1 hrun
  obtain ⟨hb, rfl⟩ := isEmptyList_ok (hS.threads hl) (hS.nil_not_mem hL hl) hlook
  cases hq : S.queue t with
  | nil =>
    rw [if_pos (hb.2 hq)] at hrun
    simp only [bind_ok, fetchInt_ok, immediate_ok, store_ok] at hrun
    obtain ⟨k, _, ⟨hk, rfl⟩, _, _, ⟨-, rfl, rfl⟩, -, rfl⟩ := hrun
    obtain ⟨hS', hset⟩ := hS.setExcess hL hl hk (x := .small (k + 1))
    by_cases hst : s = t
    · subst hst
      obtain rfl : k = n := Value.small.inj (Option.some.inj (hk.symm.trans hexcess))
      refine ⟨⟨k + 1, [], S.active⟩, ?_, (hset s).trans (if_pos rfl), S, hS', hq, rfl⟩
      rw [hq]
      exact .count
    · refine ⟨⟨n, S.queue s, S.active⟩, .other ?_ (by simp), ?_, S, hS', rfl, rfl⟩
      · exact fun e => hst (Op.signal.inj e).symm
      · exact (hset s).trans ((if_neg hst).trans hexcess)
  | cons p ps =>
    rw [if_neg fun e => List.cons_ne_nil p ps (hq.symm.trans (hb.1 e))] at hrun
    obtain ⟨x, m₁, hunlink, hrun⟩ := bind_ok.1 hrun
    obtain ⟨rfl, hseat, hsame, hun⟩ := hS.toSeated.unlinkFirst hL hl hq hunlink
    have hx : x ∈ S.queue t := hq ▸ List.mem_cons_self
    have hne : x ≠ S.active := fun e => hS.unlisted t hl (e ▸ hx)
    obtain ⟨S', hS', hfree, hsame', hqueue⟩ := hseat.resume hL (hS.threaded.process t hl x hx) hne hun
      (fun k hk hmem => hS.unlisted k hk (Schedule.mem_of_mem_withQueue hq hmem)) hrun
    have hexcess' := ((hsame.trans hsame') s (L.mem_holders_of_semaphore hs)).trans hexcess
    by_cases hst : s = t
    · subst hst
      have honce : x ∉ ps := (List.nodup_cons.1 (hq ▸ hS.threaded.once s hl)).1
      refine ⟨⟨n, ps, S'.active⟩, hq ▸ .release honce hfree, hexcess', S', hS', ?_, rfl⟩
      exact (hqueue s hs).trans (Schedule.withQueue_self ..)
    · refine ⟨⟨n, S.queue s, S'.active⟩, .other ?_ (by simp), hexcess', S', hS', ?_, rfl⟩
      · exact fun e => hst (Op.signal.inj e).symm
      · exact (hqueue s hs).trans (S.withQueue_of_ne _ hst)

theorem Shows.wait {t : Value} (h : Shows L s m g) (hL : L.Distinct) (hs : s ∈ L.semaphores)
    (ht : t ∈ L.semaphores) (hrun : Action.wait t m = .ok u m') :
    ∃ g', Turn s (Runnable L m') (.wait t) g g' ∧ Shows L s m' g' := by
  obtain ⟨hexcess, S, hS, hwaiting, hrunning⟩ := h
  have hl := L.mem_holders_of_semaphore ht
  obtain ⟨n, ws, a⟩ := g
  obtain rfl : S.queue s = ws := hwaiting
  obtain rfl : S.active = a := hrunning
  obtain ⟨k, _, hlook, hrun⟩ := bind_ok.1 hrun
  obtain ⟨hk, rfl⟩ := fetchInt_ok.1 hlook
  by_cases hpos : 0 < k
  · rw [if_pos hpos, store_ok] at hrun
    obtain ⟨-, rfl⟩ := hrun
    obtain ⟨hS', hset⟩ := hS.setExcess hL hl hk (x := .small (k - 1))
    by_cases hst : s = t
    · subst hst
      obtain rfl : k = n := Value.small.inj (Option.some.inj (hk.symm.trans hexcess))
      exact ⟨⟨k - 1, S.queue s, S.active⟩, .consume hpos, (hset s).trans (if_pos rfl), S, hS',
        rfl, rfl⟩
    · refine ⟨⟨n, S.queue s, S.active⟩, .other (by simp) ?_, ?_, S, hS', rfl, rfl⟩
      · exact fun e => hst (Op.wait.inj e).symm
      · exact (hset s).trans ((if_neg hst).trans hexcess)
  · rw [if_neg hpos] at hrun
    obtain ⟨x, _, hx, hrun⟩ := bind_ok.1 hrun
    obtain ⟨rfl, rfl⟩ := hS.toSeated.activeProcess_ok hx
    obtain ⟨_, m₁, hlink, hrun⟩ := bind_ok.1 hrun
    obtain ⟨hseat, hsame⟩ := hS.toSeated.linkLast hL hl hS.active hS.unlisted hlink
    have hready : ∀ j ∈ L.lists, S.active ∉ (S.enlist S.active t).queue j := by
      intro j hj hmem
      rcases Schedule.mem_enlist hmem with hmem | ⟨-, e⟩
      · exact hS.unlisted j (List.mem_append_left _ hj) hmem
      · exact hL.semaphore_ne_list ht hj e.symm
    obtain ⟨S', hS', hne, hsame', hqueue⟩ := hseat.yields hL hready hrun
    have hexcess' := ((hsame.trans hsame') s (L.mem_holders_of_semaphore hs)).trans hexcess
    by_cases hst : s = t
    · subst hst
      obtain rfl : k = n := Value.small.inj (Option.some.inj (hk.symm.trans hexcess))
      refine ⟨⟨k, S.queue s ++ [S.active], S'.active⟩, .park hpos hne (hS.unlisted s hl),
        hexcess', S', hS', ?_, rfl⟩
      exact (hqueue s hs).trans (Schedule.withQueue_self ..)
    · refine ⟨⟨n, S.queue s, S'.active⟩, .other (by simp) ?_, hexcess', S', hS', ?_, rfl⟩
      · exact fun e => hst (Op.wait.inj e).symm
      · exact (hqueue s hs).trans (S.withQueue_of_ne _ hst)

/-- Every operation that ends leaves the lists well-formed and does one of five things to a
semaphore. -/
theorem Shows.step {op : Op} (h : Shows L s m g) (hL : L.Distinct) (hs : s ∈ L.semaphores)
    (permitted : op.Permitted L m) (hrun : op.run m = .ok u m') :
    ∃ g', Turn s (Runnable L m') op g g' ∧ Shows L s m' g' := by
  cases op with
  | signal t => exact h.signal hL hs permitted hrun
  | wait t => exact h.wait hL hs permitted hrun
  | suspend =>
    obtain ⟨n, ws, a⟩ := g
    obtain ⟨hexcess, S, hS, hwaiting, hrunning⟩ := h
    obtain rfl : S.queue s = ws := hwaiting
    obtain ⟨S', hS', -, hsame, hqueue⟩ := hS.toSeated.yields hL
      (fun l hl => hS.unlisted l (List.mem_append_left _ hl)) hrun
    exact ⟨⟨_, _, S'.active⟩, .other (by simp) (by simp),
      (hsame s (L.mem_holders_of_semaphore hs)).trans hexcess, S', hS', hqueue s hs, rfl⟩
  | resume p =>
    obtain ⟨n, ws, a⟩ := g
    obtain ⟨hexcess, S, hS, hwaiting, hrunning⟩ := h
    obtain rfl : S.queue s = ws := hwaiting
    obtain ⟨hp, hne, hfree⟩ := permitted
    obtain ⟨S', hS', -, hsame, hqueue⟩ := hS.toSeated.resume hL hp
      (fun e => hne (e ▸ hS.running)) (fun l hl => hS.toSeated.members hL hl ▸ hfree l hl)
      hS.unlisted hrun
    exact ⟨⟨_, _, S'.active⟩, .other (by simp) (by simp),
      (hsame s (L.mem_holders_of_semaphore hs)).trans hexcess, S', hS', hqueue s hs, rfl⟩

/-! ### The account of a semaphore -/

deriving instance DecidableEq for Op

/-- What was seen of a semaphore: the signals it got, the waits that ended at once, the processes
that came to stand in its list, and those that left it to run or be ready, in order. -/
structure Ledger where
  signals : Nat := 0
  atOnce : Nat := 0
  entered : List Value := []
  released : List Value := []

/-- The ledger after an operation that led from `m` to `m'`. A wait ended at once when it did not
change who runs. -/
def Ledger.note (L : Layout) (s : Value) (op : Op) (m m' : Machine) (b : Ledger) : Ledger where
  signals := b.signals + if op = .signal s then 1 else 0
  atOnce := b.atOnce + if op = .wait s ∧ running L m' = running L m then 1 else 0
  entered := b.entered ++ (members m' s).filter (· ∉ members m s)
  released := b.released ++
    (members m s).filter fun p => p ∉ members m' s ∧ Runnable L m' p

/-- A sequence of operations that all end, with the ledger of the semaphore `s`. -/
inductive Course (L : Layout) (s : Value) (m : Machine) : Machine → Ledger → Prop
  | start : Course L s m m {}
  | step {m₁ m₂ : Machine} {b : Ledger} {op : Op} : Course L s m m₁ b → op.Permitted L m₁ →
      op.run m₁ = .ok () m₂ → Course L s m m₂ (b.note L s op m₁ m₂)

/-- The account is even: every signal ended a wait, let a process go or is still counted, and the
processes left in the order in which they came. -/
structure Ledger.Even (b : Ledger) (g : Gauge) : Prop where
  nonneg : 0 ≤ g.excess
  idle : 0 < g.excess → g.waiting = []
  signals : (b.signals : Int) = b.atOnce + b.released.length + g.excess
  order : b.entered = b.released ++ g.waiting

theorem Shows.members (h : Shows L s m g) (hL : L.Distinct) (hs : s ∈ L.semaphores) :
    members m s = g.waiting := by
  obtain ⟨-, S, hS, hwaiting, -⟩ := h
  exact (hS.toSeated.members hL (L.mem_holders_of_semaphore hs)).trans hwaiting

theorem Shows.running (h : Shows L s m g) : running L m = some g.running := by
  obtain ⟨-, S, hS, -, hrunning⟩ := h
  exact hS.running.trans (congrArg some hrunning)

theorem Ledger.note_eq {b : Ledger} {op : Op} {g' : Gauge} (hL : L.Distinct)
    (hs : s ∈ L.semaphores) (hm : Shows L s m g) (hm' : Shows L s m' g')
    (turn : Turn s (Runnable L m') op g g') :
    b.note L s op m m' =
      { signals := b.signals + if op = .signal s then 1 else 0
        atOnce := b.atOnce + if op = .wait s ∧ g'.running = g.running then 1 else 0
        entered := b.entered ++ g'.waiting.filter (· ∉ g.waiting)
        released := b.released ++ g.waiting.filter (· ∉ g'.waiting) } := by
  have hfree : (g.waiting.filter fun p => p ∉ g'.waiting ∧ Runnable L m' p) =
      g.waiting.filter (· ∉ g'.waiting) := by
    refine List.filter_congr fun p hp => decide_eq_decide.2 (and_iff_left_of_imp ?_)
    exact turn.free hp
  rw [Ledger.note, hm.members hL hs, hm'.members hL hs, hm.running, hm'.running, hfree]
  simp only [Option.some.injEq]

theorem filter_not_mem_of_subset {xs ys : List Value} (h : xs ⊆ ys) :
    xs.filter (· ∉ ys) = [] :=
  List.filter_eq_nil_iff.2 fun _ hx hnot => absurd (h hx) (of_decide_eq_true hnot)

/-- What an operation does to a semaphore keeps its account even. -/
theorem Ledger.Even.note {b : Ledger} {op : Op} {g' : Gauge} (h : b.Even g) (hL : L.Distinct)
    (hs : s ∈ L.semaphores) (hm : Shows L s m g) (hm' : Shows L s m' g')
    (turn : Turn s (Runnable L m') op g g') : (b.note L s op m m').Even g' := by
  obtain ⟨hnonneg, hidle, hsignals, horder⟩ := h
  rw [Ledger.note_eq hL hs hm hm' turn]
  cases turn with
  | @count n a =>
    simp only at hnonneg hsignals horder
    simp only [if_true, reduceCtorEq, false_and, if_false, List.filter_nil, List.append_nil]
    refine ⟨?_, fun _ => rfl, ?_, horder⟩ <;> dsimp only <;> omega
  | @release n p a a' ps hp _ =>
    have hleft : (p :: ps).filter (· ∉ ps) = [p] := by
      rw [List.filter_cons, if_pos (decide_eq_true hp),
        filter_not_mem_of_subset (List.Subset.refl ps)]
    have hnone := filter_not_mem_of_subset (List.subset_cons_self p ps)
    have hzero : ¬ 0 < n := fun hpos => List.cons_ne_nil p ps (hidle hpos)
    simp only at hnonneg hsignals horder
    simp only [if_true, reduceCtorEq, false_and, if_false, hleft, hnone, List.append_nil]
    refine ⟨hnonneg, fun hpos => absurd hpos hzero, ?_, ?_⟩ <;> dsimp only
    · rw [List.length_append, List.length_singleton]
      omega
    · rw [horder, List.append_assoc, List.singleton_append]
  | @consume n a ps hpos =>
    obtain rfl : ps = [] := hidle hpos
    simp only at hnonneg hsignals horder
    simp only [if_true, reduceCtorEq, and_self, if_false, List.filter_nil, List.append_nil]
    refine ⟨?_, fun _ => rfl, ?_, horder⟩ <;> dsimp only <;> omega
  | @park n a a' ps hn ha hfresh =>
    have hentered : (ps ++ [a]).filter (· ∉ ps) = [a] := by
      rw [List.filter_append, filter_not_mem_of_subset (List.Subset.refl ps), List.nil_append,
        List.filter_cons, if_pos (decide_eq_true hfresh), List.filter_nil]
    have hnone := filter_not_mem_of_subset (List.subset_append_left ps [a])
    simp only at hnonneg hsignals horder
    simp only [ha, reduceCtorEq, and_false, if_false, hentered, hnone, List.append_nil]
    refine ⟨hnonneg, fun hpos => absurd hpos hn, hsignals, ?_⟩
    rw [horder, List.append_assoc]
  | @other op n a a' ps hsignal hwait =>
    have hnone := filter_not_mem_of_subset (List.Subset.refl ps)
    simp only [hsignal, hwait, false_and, if_false, hnone, List.append_nil]
    exact ⟨hnonneg, hidle, hsignals, horder⟩

/-- The account of a semaphore stays even along every course. -/
theorem Course.even {a : Value} {b : Ledger} (course : Course L s m m' b) (hL : L.Distinct)
    (hs : s ∈ L.semaphores) (h : Shows L s m ⟨0, [], a⟩) :
    ∃ g, Shows L s m' g ∧ b.Even g := by
  induction course with
  | start => exact ⟨_, h, ⟨Int.le_refl 0, fun _ => rfl, rfl, rfl⟩⟩
  | step _ permitted hrun ih =>
    obtain ⟨g, hshows, heven⟩ := ih
    obtain ⟨g', turn, hshows'⟩ := hshows.step hL hs permitted hrun
    exact ⟨g', hshows', heven.note hL hs hshows hshows' turn⟩

/-! ### No signal is lost or made up -/

/-- A semaphore that starts with no signals and nobody waiting never has a negative count, and a
positive one only while nobody waits. Every signal ended a wait at once, let a process go, or is
still counted, and the processes are let go in the order in which they came, each once for each time
that it came. -/
theorem signals_conserved {b : Ledger} (course : Course L s m m' b) (hL : L.Distinct)
    (h : Settled L m S) (hs : s ∈ L.semaphores) (hempty : members m s = [])
    (hzero : m.memory.cell s ProcessList.excessSignals = some (.small 0)) :
    ∃ n : Nat, m'.memory.cell s ProcessList.excessSignals = some (.small n) ∧
      (0 < n → members m' s = []) ∧ b.signals = b.atOnce + b.released.length + n ∧
      b.entered = b.released ++ members m' s ∧ (members m' s).Nodup := by
  have hholder := L.mem_holders_of_semaphore hs
  have hqueue : S.queue s = [] := (h.toSeated.members hL hholder).symm.trans hempty
  obtain ⟨g, hshows, heven⟩ := course.even hL hs ⟨hzero, S, h, hqueue, rfl⟩
  have hmembers := hshows.members hL hs
  obtain ⟨hexcess, S', hS', hwaiting, -⟩ := hshows
  obtain ⟨n, hn⟩ := Int.eq_ofNat_of_zero_le heven.nonneg
  refine ⟨n, hn ▸ hexcess, fun hpos => ?_, ?_, hmembers ▸ heven.order, ?_⟩
  · exact hmembers.trans (heven.idle (by omega))
  · have := heven.signals
    omega
  · exact (hmembers.trans hwaiting.symm) ▸ hS'.threaded.once s hholder

/-- The second process takes over and waits, a signal lets it go, and the next signal ends its next
wait. The third process has kept a link to it all the while. -/
theorem signals_conserved_stage : stageLayout.Distinct ∧
    Settled stageLayout (stage (place 9)) stageSchedule ∧ place 7 ∈ stageLayout.semaphores ∧
    members (stage (place 9)) (place 7) = [] ∧
    (stage (place 9)).memory.cell (place 7) ProcessList.excessSignals = some (.small 0) ∧
    ∃ m' b, Course stageLayout (place 7) (stage (place 9)) m' b ∧ b.signals = 2 ∧
      ∃ n : Nat, m'.memory.cell (place 7) ProcessList.excessSignals = some (.small n) ∧
        (0 < n → members m' (place 7) = []) ∧ b.signals = b.atOnce + b.released.length + n ∧
        b.entered = b.released ++ members m' (place 7) ∧ (members m' (place 7)).Nodup := by
  have hsettled : Settled stageLayout (stage (place 9)) stageSchedule :=
    ⟨(arranged_stage (place 9)).seated, (arranged_stage (place 9)).unlisted⟩
  have hs : place 7 ∈ stageLayout.semaphores := List.mem_singleton_self _
  have hempty : members (stage (place 9)) (place 7) = [] := by decide +kernel
  refine ⟨proper_stage.toDistinct, hsettled, hs, hempty, rfl, ?_⟩
  have hpermitted : (Op.resume (place 9)).Permitted stageLayout (stage (place 9)) :=
    ⟨by decide, by decide +kernel, by decide +kernel⟩
  have hleads : leads (do
      Action.resume (place 9)
      Action.wait (place 7)
      Action.signal (place 7)
      Action.signal (place 7)
      Action.wait (place 7)) (stage (place 9)) (fun _ _ => true) = true := by decide +kernel
  obtain ⟨_, m₅, hrun, -⟩ := exists_of_leads hleads
  obtain ⟨_, m₁, hresume, hrun⟩ := bind_ok.1 hrun
  obtain ⟨_, m₂, hpark, hrun⟩ := bind_ok.1 hrun
  obtain ⟨_, m₃, hrelease, hrun⟩ := bind_ok.1 hrun
  obtain ⟨_, m₄, hcount, hconsume⟩ := bind_ok.1 hrun
  have hwait : ∀ m, (Op.wait (place 7)).Permitted stageLayout m := fun _ => hs
  have hsignal : ∀ m, (Op.signal (place 7)).Permitted stageLayout m := fun _ => hs
  have course := (((((Course.start (L := stageLayout) (s := place 7)).step hpermitted hresume).step
    (hwait m₁) hpark).step (hsignal m₂) hrelease).step (hsignal m₃) hcount).step (hwait m₄) hconsume
  exact ⟨m₅, _, course, rfl, signals_conserved course proper_stage.toDistinct hsettled hs hempty rfl⟩

end Smalltalk.Scheduling
