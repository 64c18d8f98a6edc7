import Mathlib.Data.List.Nodup
import Mathlib.Logic.Function.Basic
import Mathlib.Tactic.Common
import Smalltalk.Proofs.Outcome

/-!
# Scheduling keeps the lists in order

The lists of processes are linked through the processes themselves, so one store in the wrong place
breaks a list that the operation was not about. A layout names the objects that take part, and a
schedule says who runs and who stands in which list. A machine is orderly when its objects spell out
a schedule; every operation of the scheduler leads from an orderly machine to an orderly one, and
what it does to the schedule is short to say.
-/

namespace Smalltalk.Scheduling

/-- The objects the scheduler works on, and the priorities of the processes. -/
structure Layout where
  nil : Value
  /-- The special objects. -/
  array : Value
  /-- The association of the special objects that leads to the scheduler. -/
  association : Value
  scheduler : Value
  /-- The object that has the priority lists as its fields. -/
  table : Value
  /-- The priority lists, the one for priority 1 first. -/
  lists : List Value
  semaphores : List Value
  processes : List Value
  priority : Value → Nat

/-- Everything that processes can be linked to. -/
def Layout.holders (L : Layout) : List Value := L.lists ++ L.semaphores

/-- Everything the scheduler reads or writes, contexts apart. -/
def Layout.objects (L : Layout) : List Value :=
  [L.array, L.association, L.scheduler, L.table] ++ (L.holders ++ L.processes)

/-- The objects of a layout are distinct. -/
def Layout.Distinct (L : Layout) : Prop := (L.nil :: L.objects).Nodup

/-- The objects of a layout are distinct, and there is a list for every priority. -/
structure Layout.Proper (L : Layout) : Prop where
  distinct : (L.nil :: L.objects).Nodup
  priority : ∀ p ∈ L.processes, 1 ≤ L.priority p ∧ L.priority p ≤ L.lists.length

/-- Who runs, and who stands in which list. -/
structure Schedule where
  active : Value
  queue : Value → List Value

/-- Whether a process stands in no list. -/
def Layout.Unlisted (L : Layout) (queue : Value → List Value) (p : Value) : Prop :=
  ∀ l ∈ L.holders, p ∉ queue l

/-- Each process is linked to the one behind it, and the last one to nil. -/
def Linked (c : Cells) (nil : Value) : List Value → Prop
  | [] => True
  | p :: ps => c p Process.next = some (ps.head?.getD nil) ∧ Linked c nil ps

/-- A list object that leads through the processes `ps`, from its first to its last one. What the
last one is linked to does not matter. -/
structure Threads (c : Cells) (nil list : Value) (ps : List Value) : Prop where
  first : c list ProcessList.first = some (ps.head?.getD nil)
  last : ∀ q ∈ ps.getLast?, c list ProcessList.last = some q
  chain : ps.IsChain fun p q => c p Process.next = some q

/-- A list object that holds the processes `ps`. -/
structure Holds (c : Cells) (nil list : Value) (ps : List Value) : Prop where
  first : c list ProcessList.first = some (ps.head?.getD nil)
  last : c list ProcessList.last = some (ps.getLast?.getD nil)
  linked : Linked c nil ps

/-- The fields spell out the lists, and each process in a list knows which one it is. -/
structure Listed (L : Layout) (c : Cells) (queue : Value → List Value) : Prop where
  holds : ∀ l ∈ L.holders, Holds c L.nil l (queue l)
  once : ∀ l ∈ L.holders, (queue l).Nodup
  process : ∀ l ∈ L.holders, ∀ p ∈ queue l, p ∈ L.processes
  myList : ∀ l ∈ L.holders, ∀ p ∈ queue l, c p Process.myList = some l

/-- Moreover, a process in no list is linked to nothing. -/
structure Queued (L : Layout) (c : Cells) (queue : Value → List Value) : Prop
    extends Listed L c queue where
  loose : ∀ p ∈ L.processes, L.Unlisted queue p → c p Process.next = some L.nil

variable {L : Layout} {c c' : Cells} {queue : Value → List Value} {l k p q : Value}
  {ps : List Value} {nil : Value}

/-! ### The objects are distinct -/

theorem Layout.Proper.toDistinct (hL : L.Proper) : L.Distinct := hL.distinct

theorem Layout.Distinct.nil_not_mem (hL : L.Distinct) : L.nil ∉ L.objects :=
  (List.nodup_cons.1 hL).1

theorem Layout.mem_objects_of_holder (h : l ∈ L.holders) : l ∈ L.objects :=
  List.mem_append_right _ (List.mem_append_left _ h)

theorem Layout.mem_objects_of_process (h : p ∈ L.processes) : p ∈ L.objects :=
  List.mem_append_right _ (List.mem_append_right _ h)

theorem Layout.Distinct.holder_ne_process (hL : L.Distinct) (hl : l ∈ L.holders)
    (hp : p ∈ L.processes) : l ≠ p := by
  have h := (List.nodup_append.1 (List.nodup_cons.1 hL).2).2.1
  exact (List.nodup_append.1 h).2.2 l hl p hp

theorem Layout.Distinct.holders_nodup (hL : L.Distinct) : L.holders.Nodup := by
  have h := (List.nodup_append.1 (List.nodup_cons.1 hL).2).2.1
  exact (List.nodup_append.1 h).1

theorem Layout.Distinct.nil_ne_process (hL : L.Distinct) (hp : p ∈ L.processes) : p ≠ L.nil :=
  fun e => hL.nil_not_mem (e ▸ mem_objects_of_process hp)

/-- The scheduler and the objects it is found through are neither lists nor processes. -/
theorem Layout.Distinct.root_ne (hL : L.Distinct) {r : Value}
    (hr : r ∈ [L.array, L.association, L.scheduler, L.table])
    (h : p ∈ L.holders ∨ p ∈ L.processes) : r ≠ p :=
  (List.nodup_append.1 (List.nodup_cons.1 hL).2).2.2 r hr p (List.mem_append.2 h)

/-- Of the objects the scheduler is found through, only the scheduler is the scheduler. -/
theorem Layout.Distinct.ne_scheduler (hL : L.Distinct) :
    L.array ≠ L.scheduler ∧ L.association ≠ L.scheduler ∧ L.table ≠ L.scheduler := by
  have hd := (List.nodup_append.1 (List.nodup_cons.1 hL).2).1
  simp only [List.nodup_cons, List.mem_cons, not_or] at hd
  exact ⟨hd.1.2.1, hd.2.1.1, Ne.symm hd.2.2.1.1⟩

/-! ### One list -/

theorem Linked.congr (h : ∀ p ∈ ps, c' p Process.next = c p Process.next) :
    Linked c nil ps → Linked c' nil ps := by
  induction ps with
  | nil => exact id
  | cons p ps ih =>
    rintro ⟨hp, hps⟩
    refine ⟨?_, ih (fun q hq => h q (List.mem_cons_of_mem p hq)) hps⟩
    rw [h p List.mem_cons_self, hp]

/-- A list does not change unless its own fields or the links of its processes do. -/
theorem Holds.congr (hfirst : c' l ProcessList.first = c l ProcessList.first)
    (hlast : c' l ProcessList.last = c l ProcessList.last)
    (hnext : ∀ p ∈ ps, c' p Process.next = c p Process.next) (h : Holds c nil l ps) :
    Holds c' nil l ps :=
  ⟨hfirst.trans h.first, hlast.trans h.last, h.linked.congr hnext⟩

theorem Linked.chain (h : Linked c nil ps) :
    ps.IsChain fun p q => c p Process.next = some q := by
  induction ps with
  | nil => exact .nil
  | cons p ps ih =>
    cases ps with
    | nil => exact .singleton p
    | cons q ps => exact List.isChain_cons_cons.2 ⟨h.1, ih h.2⟩

theorem Holds.threads (h : Holds c nil l ps) : Threads c nil l ps := by
  refine ⟨h.first, fun q hq => ?_, h.linked.chain⟩
  rw [h.last, hq]
  rfl

/-- Linking a loose process behind the last one makes the list longer. -/
theorem Linked.append (hps : Linked c nil ps) (once : ps.Nodup) (fresh : p ∉ ps)
    (loose : c p Process.next = some nil) (hlast : ps.getLast? = some q) :
    Linked (c.set q Process.next p) nil (ps ++ [p]) := by
  induction ps with
  | nil => exact absurd hlast (by simp)
  | cons r ps ih =>
    obtain ⟨hr, hps⟩ := hps
    obtain ⟨hnotin, once⟩ := List.nodup_cons.1 once
    obtain ⟨hne, fresh⟩ := List.ne_and_not_mem_of_not_mem_cons fresh
    cases ps with
    | nil =>
      obtain rfl : r = q := by simpa using hlast
      refine ⟨Cells.set_same .., ?_, trivial⟩
      rw [Cells.set_of_ne hne, loose]
      rfl
    | cons s ps =>
      have hlast : (s :: ps).getLast? = some q := by simpa using hlast
      have hrq : r ≠ q := fun e => hnotin (e ▸ List.mem_of_getLast? hlast)
      refine ⟨?_, ih hps once fresh hlast⟩
      rw [Cells.set_of_ne hrq, hr]
      rfl

/-! ### Taking a process in and out -/

/-- The fields after a process was linked to what stands before it: the last process of the list,
or the list itself. -/
def attach (c : Cells) (p l : Value) : Option Value → Cells
  | none => c.set l ProcessList.first p
  | some q => c.set q Process.next p

/-- The fields after a process was put at the end of a list with the processes `ps`. -/
def enlist (c : Cells) (p l : Value) (ps : List Value) : Cells :=
  ((attach c p l ps.getLast?).set l ProcessList.last p).set p Process.myList l

/-- Taking a process into a list leaves alone what is neither a list nor a process, and the
fields of processes that are not links. -/
theorem enlist_other {v : Value} {i : Nat} (hl : v ≠ l)
    (hi : v ∉ p :: ps ∨ i ≠ Process.next ∧ i ≠ Process.myList) :
    enlist c p l ps v i = c v i := by
  rw [enlist]
  have hmine : v ≠ p ∨ i ≠ Process.myList := by
    rcases hi with h | h
    · exact .inl (List.ne_of_not_mem_cons h)
    · exact .inr h.2
  have hlink : ∀ q, ps.getLast? = some q → v ≠ q ∨ i ≠ Process.next := by
    intro q hq
    rcases hi with h | h
    · exact .inl fun e => h (List.mem_cons_of_mem p (e ▸ List.mem_of_getLast? hq))
    · exact .inr h.1
  have houter : ∀ c : Cells, (c.set l ProcessList.last p).set p Process.myList l v i = c v i := by
    intro c
    rw [← Cells.set_of_ne (c := c) (x := p) (i := ProcessList.last) (j := i) hl]
    exact hmine.elim Cells.set_of_ne Cells.set_of_index_ne
  rw [houter]
  cases hq : ps.getLast? with
  | none => exact Cells.set_of_ne hl
  | some q => exact (hlink q hq).elim Cells.set_of_ne Cells.set_of_index_ne

theorem Holds.enlist (h : Holds c nil l ps) (once : ps.Nodup) (fresh : p ∉ ps)
    (loose : c p Process.next = some nil) (hl : l ∉ p :: ps) :
    Holds (enlist c p l ps) nil l (ps ++ [p]) := by
  have hlp : l ≠ p := List.ne_of_not_mem_cons hl
  refine ⟨?_, ?_, ?_⟩
  · rw [Scheduling.enlist, Cells.set_of_ne hlp, Cells.set_of_index_ne (by decide)]
    cases hq : ps.getLast? with
    | none =>
      obtain rfl := List.getLast?_eq_none_iff.1 hq
      exact Cells.set_same ..
    | some q =>
      have hlq : l ≠ q := fun e => hl (List.mem_cons_of_mem p (e ▸ List.mem_of_getLast? hq))
      rw [attach, Cells.set_of_ne hlq, h.first]
      cases ps with
      | nil => exact absurd hq (by simp)
      | cons r ps => rfl
  · rw [Scheduling.enlist, Cells.set_of_ne hlp, Cells.set_same]
    simp
  · have hlinked : Linked (attach c p l ps.getLast?) nil (ps ++ [p]) := by
      cases hq : ps.getLast? with
      | none =>
        obtain rfl := List.getLast?_eq_none_iff.1 hq
        refine ⟨?_, trivial⟩
        rw [attach, Cells.set_of_ne (Ne.symm hlp), loose]
        rfl
      | some q => exact h.linked.append once fresh loose hq
    refine hlinked.congr fun r hr => ?_
    have hne : r ≠ l := by
      rintro rfl
      rcases List.mem_append.1 hr with hr | hr
      · exact hl (List.mem_cons_of_mem p hr)
      · exact hlp (List.mem_singleton.1 hr)
    rw [Scheduling.enlist, Cells.set_of_index_ne (by decide), Cells.set_of_ne hne]

/-- No process stands in two lists. -/
theorem Listed.single (h : Listed L c queue) (hl : l ∈ L.holders) (hk : k ∈ L.holders)
    (hp : p ∈ queue l) (hp' : p ∈ queue k) : l = k :=
  Option.some.inj ((h.myList l hl p hp).symm.trans (h.myList k hk p hp'))

theorem Queued.not_mem (h : Queued L c queue) (hL : L.Proper) (hl : l ∈ L.holders)
    (hk : k ∈ L.holders) : l ∉ queue k := fun hmem =>
  hL.toDistinct.holder_ne_process hl (h.process k hk l hmem) rfl

/-- A loose process can be put at the end of any list. -/
theorem Queued.enlist (h : Queued L c queue) (hL : L.Proper) (hl : l ∈ L.holders)
    (hp : p ∈ L.processes) (unlisted : L.Unlisted queue p) :
    Queued L (enlist c p l (queue l)) (Function.update queue l (queue l ++ [p])) := by
  have hlp : l ≠ p := hL.toDistinct.holder_ne_process hl hp
  have hnot : ∀ k ∈ L.holders, k ∉ p :: queue l := fun k hk hmem =>
    (List.mem_cons.1 hmem).elim (hL.toDistinct.holder_ne_process hk hp) (h.not_mem hL hk hl)
  have hproc : ∀ q ∈ L.processes, q ≠ l := fun q hq => Ne.symm (hL.toDistinct.holder_ne_process hl hq)
  -- the processes of another list are neither `p` nor in `l`
  have hother : ∀ k ∈ L.holders, k ≠ l → ∀ q ∈ queue k, q ∉ p :: queue l := by
    intro k hk hkl q hq hmem
    rcases List.mem_cons.1 hmem with rfl | hmem
    · exact unlisted k hk hq
    · exact hkl (h.single hk hl hq hmem)
  refine ⟨⟨?_, ?_, ?_, ?_⟩, ?_⟩
  · intro k hk
    by_cases hkl : k = l
    · subst hkl
      rw [Function.update_self]
      exact (h.holds k hk).enlist (h.once k hk) (unlisted k hk) (h.loose p hp unlisted)
        (hnot k hk)
    · rw [Function.update_of_ne hkl]
      refine (h.holds k hk).congr ?_ ?_ ?_
      · exact enlist_other hkl (.inl (hnot k hk))
      · exact enlist_other hkl (.inl (hnot k hk))
      · intro q hq
        exact enlist_other (hproc q (h.process k hk q hq)) (.inl (hother k hk hkl q hq))
  · intro k hk
    by_cases hkl : k = l
    · subst hkl
      rw [Function.update_self]
      refine List.nodup_append.2 ⟨h.once k hk, List.nodup_singleton p, ?_⟩
      rintro q hq r hr rfl
      exact unlisted k hk (List.mem_singleton.1 hr ▸ hq)
    · rw [Function.update_of_ne hkl]
      exact h.once k hk
  · intro k hk q hq
    by_cases hkl : k = l
    · subst hkl
      rw [Function.update_self] at hq
      rcases List.mem_append.1 hq with hq | hq
      · exact h.process k hk q hq
      · exact List.mem_singleton.1 hq ▸ hp
    · rw [Function.update_of_ne hkl] at hq
      exact h.process k hk q hq
  · intro k hk q hq
    by_cases hqp : q = p
    · subst hqp
      by_cases hkl : k = l
      · subst hkl
        exact Cells.set_same ..
      · rw [Function.update_of_ne hkl] at hq
        exact absurd hq (unlisted k hk)
    · have hq : q ∈ queue k := by
        by_cases hkl : k = l
        · subst hkl
          rw [Function.update_self] at hq
          exact (List.mem_append.1 hq).resolve_right fun e => hqp (List.mem_singleton.1 e)
        · rwa [Function.update_of_ne hkl] at hq
      have hql := hproc q (h.process k hk q hq)
      rw [← h.myList k hk q hq, Scheduling.enlist, Cells.set_of_ne hqp, Cells.set_of_ne hql]
      cases (queue l).getLast? with
      | none => exact Cells.set_of_ne hql
      | some r => exact Cells.set_of_index_ne (by decide)
  · intro q hq hun
    have hnotin : q ∉ queue l ++ [p] := by
      have := hun l hl
      rwa [Function.update_self] at this
    have hun' : L.Unlisted queue q := by
      intro k hk
      by_cases hkl : k = l
      · subst hkl
        exact fun hmem => hnotin (List.mem_append_left _ hmem)
      · have := hun k hk
        rwa [Function.update_of_ne hkl] at this
    rw [← h.loose q hq hun']
    refine enlist_other (hproc q hq) (.inl fun hmem => hnotin ?_)
    rcases List.mem_cons.1 hmem with rfl | hmem
    · exact List.mem_append_right _ (List.mem_singleton_self q)
    · exact List.mem_append_left _ hmem

/-- The fields after a list was made to start with the processes that stood behind its first. -/
def advance (c : Cells) (nil l : Value) : List Value → Cells
  | [] => (c.set l ProcessList.first nil).set l ProcessList.last nil
  | q :: _ => c.set l ProcessList.first q

/-- The fields after the process `p` was taken off a list that had `ps` behind it. -/
def delist (c : Cells) (nil p l : Value) (ps : List Value) : Cells :=
  (advance c nil l ps).set p Process.next nil

theorem delist_other {v : Value} {i : Nat} (hl : v ≠ l) (hi : v ≠ p ∨ i ≠ Process.next) :
    delist c nil p l ps v i = c v i := by
  have hinner : advance c nil l ps v i = c v i := by
    cases ps with
    | nil => rw [advance, Cells.set_of_ne hl, Cells.set_of_ne hl]
    | cons q ps => exact Cells.set_of_ne hl
  rw [← hinner, delist]
  exact hi.elim Cells.set_of_ne Cells.set_of_index_ne

theorem Holds.delist (h : Holds c nil l (p :: ps)) (hp : p ∉ ps) (hl : l ∉ p :: ps) :
    Holds (delist c nil p l ps) nil l ps := by
  have hlp : l ≠ p := List.ne_of_not_mem_cons hl
  have hlast := h.last
  refine ⟨?_, ?_, ?_⟩
  · rw [Scheduling.delist, Cells.set_of_ne hlp]
    cases ps with
    | nil =>
      rw [advance, Cells.set_of_index_ne (by decide)]
      exact Cells.set_same ..
    | cons q ps => exact Cells.set_same ..
  · rw [Scheduling.delist, Cells.set_of_ne hlp]
    cases ps with
    | nil => exact Cells.set_same ..
    | cons q ps =>
      rw [advance, Cells.set_of_index_ne (by decide), hlast, List.getLast?_cons_cons]
  · refine h.linked.2.congr fun q hq => delist_other ?_ (.inl ?_)
    · rintro rfl
      exact hl (List.mem_cons_of_mem p hq)
    · rintro rfl
      exact hp hq

/-- The first process of a list can be taken off it. -/
theorem Queued.delist (h : Queued L c queue) (hL : L.Proper) (hl : l ∈ L.holders)
    (hq : queue l = p :: ps) :
    Queued L (delist c L.nil p l ps) (Function.update queue l ps) ∧
      L.Unlisted (Function.update queue l ps) p := by
  have hp : p ∈ queue l := hq ▸ List.mem_cons_self
  have honce : p ∉ ps := (List.nodup_cons.1 (hq ▸ h.once l hl)).1
  have hsub : ∀ k, ∀ q ∈ Function.update queue l ps k, q ∈ queue k := by
    intro k q hmem
    by_cases hkl : k = l
    · subst hkl
      rw [Function.update_self] at hmem
      exact hq ▸ List.mem_cons_of_mem p hmem
    · rwa [Function.update_of_ne hkl] at hmem
  have hproc : ∀ q ∈ L.processes, q ≠ l := fun q hq => Ne.symm (hL.toDistinct.holder_ne_process hl hq)
  have hun : L.Unlisted (Function.update queue l ps) p := by
    intro k hk hmem
    by_cases hkl : k = l
    · subst hkl
      rw [Function.update_self] at hmem
      exact honce hmem
    · rw [Function.update_of_ne hkl] at hmem
      exact hkl (h.single hk hl hmem hp)
  refine ⟨⟨⟨?_, ?_, ?_, ?_⟩, ?_⟩, hun⟩
  · intro k hk
    by_cases hkl : k = l
    · subst hkl
      rw [Function.update_self]
      exact Holds.delist (hq ▸ h.holds k hk) honce (hq ▸ h.not_mem hL hk hk)
    · rw [Function.update_of_ne hkl]
      have hkp : k ≠ p := hL.toDistinct.holder_ne_process hk (h.process l hl p hp)
      refine (h.holds k hk).congr (delist_other hkl (.inl hkp)) (delist_other hkl (.inl hkp)) ?_
      intro q hmem
      refine delist_other (hproc q (h.process k hk q hmem)) (.inl ?_)
      rintro rfl
      exact hkl (h.single hk hl hmem hp)
  · intro k hk
    by_cases hkl : k = l
    · subst hkl
      rw [Function.update_self]
      exact (List.nodup_cons.1 (hq ▸ h.once k hk)).2
    · rw [Function.update_of_ne hkl]
      exact h.once k hk
  · exact fun k hk q hmem => h.process k hk q (hsub k q hmem)
  · intro k hk q hmem
    rw [← h.myList k hk q (hsub k q hmem)]
    exact delist_other (hproc q (h.process k hk q (hsub k q hmem))) (.inr (by decide))
  · intro q hmem hunq
    by_cases hqp : q = p
    · subst hqp
      exact Cells.set_same ..
    · rw [← h.loose q hmem fun k hk hin => ?_]
      · exact delist_other (hproc q hmem) (.inl hqp)
      · refine hunq k hk ?_
        by_cases hkl : k = l
        · subst hkl
          rw [Function.update_self]
          rw [hq] at hin
          exact (List.mem_cons.1 hin).resolve_left hqp
        · rwa [Function.update_of_ne hkl]

/-! ### The machine -/

/-- How the scheduler is found, and what the processes have besides their links. -/
structure Rooted (L : Layout) (c : Cells) : Prop where
  association : c L.array Special.schedulerAssociation = some L.association
  scheduler : c L.association Association.value = some L.scheduler
  table : c L.scheduler Scheduler.processLists = some L.table
  lists : ∀ i, c L.table i = L.lists[i]?
  priority : ∀ p ∈ L.processes, c p Process.priority = some (.small (L.priority p))
  suspended : ∀ p ∈ L.processes, ∀ x, c p Process.suspendedContext = some x → x ∉ L.objects

/-- The fields that the scheduler is found through stay. -/
theorem Rooted.congr (h : Rooted L c)
    (hroot : ∀ v ∈ [L.array, L.association, L.scheduler, L.table], ∀ i,
      v ≠ L.scheduler ∨ i ≠ Scheduler.activeProcess → c' v i = c v i)
    (hprocess : ∀ p ∈ L.processes, c' p Process.priority = c p Process.priority)
    (hsuspended : ∀ p ∈ L.processes, ∀ x, c' p Process.suspendedContext = some x →
      x ∉ L.objects)
    (hL : L.Proper) : Rooted L c' := by
  have hne := hL.toDistinct.ne_scheduler
  refine ⟨?_, ?_, ?_, fun i => ?_, fun p hp => ?_, hsuspended⟩
  · rw [hroot _ (by simp) _ (.inl hne.1), h.association]
  · rw [hroot _ (by simp) _ (.inl hne.2.1), h.scheduler]
  · rw [hroot _ (by simp) _ (.inr (by decide)), h.table]
  · rw [hroot _ (by simp) _ (.inl hne.2.2), h.lists]
  · rw [hprocess p hp, h.priority p hp]

/-- A machine that has the objects of a layout, with the processes at their levels. -/
structure Posted (L : Layout) (m : Machine) (S : Schedule) : Prop where
  nil : m.specials.nil = L.nil
  array : m.specials.array = L.array
  context : m.registers.context ∉ L.objects
  rooted : Rooted L m.memory.cell
  running : m.memory.cell L.scheduler Scheduler.activeProcess = some S.active
  active : S.active ∈ L.processes
  level : ∀ (i : Nat) (l : Value), L.lists[i]? = some l → ∀ p ∈ S.queue l, L.priority p = i + 1

/-- A machine whose objects spell out a schedule, whoever is running. -/
structure Standing (L : Layout) (m : Machine) (S : Schedule) : Prop extends Posted L m S where
  queued : Queued L m.memory.cell S.queue

/-- A machine whose lists are right: the running process is in none of them, and no process of
higher priority is ready. -/
structure Arranged (L : Layout) (m : Machine) (S : Schedule) : Prop extends Posted L m S where
  listed : Listed L m.memory.cell S.queue
  unlisted : L.Unlisted S.queue S.active
  highest : ∀ l ∈ L.lists, ∀ p ∈ S.queue l, L.priority p ≤ L.priority S.active

/-- A machine whose scheduler is in order: the lists are right, and the processes outside them have
no link left from a list they were in. -/
structure Orderly (L : Layout) (m : Machine) (S : Schedule) : Prop extends Arranged L m S where
  loose : ∀ p ∈ L.processes, L.Unlisted S.queue p →
    m.memory.cell p Process.next = some L.nil

variable {m m' : Machine} {S S' : Schedule} {u : Unit} {x : Value}

theorem Orderly.standing (h : Orderly L m S) : Standing L m S :=
  ⟨h.toPosted, h.listed, h.loose⟩

theorem Standing.orderly (h : Standing L m S) (unlisted : L.Unlisted S.queue S.active)
    (highest : ∀ l ∈ L.lists, ∀ p ∈ S.queue l, L.priority p ≤ L.priority S.active) :
    Orderly L m S :=
  ⟨⟨h.toPosted, h.queued.toListed, unlisted, highest⟩, h.queued.loose⟩

theorem Layout.mem_holders_of_list {i : Nat} (h : L.lists[i]? = some l) : l ∈ L.holders :=
  List.mem_append_left _ (List.mem_of_getElem? h)

theorem Layout.mem_holders_of_semaphore (h : l ∈ L.semaphores) : l ∈ L.holders :=
  List.mem_append_right _ h

open Outcome Smalltalk.Action

theorem scheduler_ok : scheduler m = .ok x m' ↔
    m.memory.cell (m.specials.get m.memory Special.schedulerAssociation) Association.value =
      some x ∧ m = m' := by
  simp only [scheduler, bind_ok, special_ok, fetch_ok]
  constructor
  · rintro ⟨_, _, ⟨rfl, rfl⟩, hx⟩
    exact hx
  · exact fun hx => ⟨_, m, ⟨rfl, rfl⟩, hx⟩

/-- The scheduler is the value of the association that the special objects have for it. -/
theorem scheduler_ok_of_cells {a s : Value}
    (hassociation : m.memory.cell m.specials.array Special.schedulerAssociation = some a)
    (hscheduler : m.memory.cell a Association.value = some s) :
    scheduler m = .ok x m' ↔ s = x ∧ m = m' := by
  have hspecial : m.specials.get m.memory Special.schedulerAssociation = a := by
    rw [Memory.cell] at hassociation
    rw [SpecialObjects.get, hassociation]
    rfl
  rw [Scheduling.scheduler_ok, hspecial, hscheduler, Option.some.injEq]

theorem Standing.scheduler_ok (h : Standing L m S) :
    scheduler m = .ok x m' ↔ L.scheduler = x ∧ m = m' :=
  scheduler_ok_of_cells (h.array ▸ h.rooted.association) h.rooted.scheduler

theorem Standing.activeProcess_ok (h : Standing L m S) (hx : activeProcess m = .ok x m') :
    x = S.active ∧ m = m' := by
  simp only [activeProcess, bind_ok, h.scheduler_ok, fetch_ok] at hx
  obtain ⟨_, _, ⟨rfl, rfl⟩, hx, rfl⟩ := hx
  rw [h.running] at hx
  exact ⟨(Option.some.inj hx).symm, rfl⟩

theorem Standing.priority_ok {n : Int} (h : Standing L m S) (hp : p ∈ L.processes)
    (hn : priority p m = .ok n m') : n = L.priority p ∧ m = m' := by
  rw [priority, fetchInt_ok, h.rooted.priority p hp] at hn
  exact ⟨(Value.small.inj (Option.some.inj hn.1)).symm, hn.2⟩

theorem isEmptyList_ok {b : Bool} (hl : Threads m.memory.cell m.specials.nil l ps)
    (hnil : m.specials.nil ∉ ps) (h : isEmptyList l m = .ok b m') :
    (b = true ↔ ps = []) ∧ m = m' := by
  simp only [isEmptyList, bind_ok, fetch_ok, nil_ok, pure_ok] at h
  obtain ⟨first, _, ⟨hfirst, rfl⟩, _, _, ⟨rfl, rfl⟩, rfl, rfl⟩ := h
  refine ⟨?_, rfl⟩
  rw [hl.first] at hfirst
  obtain rfl := Option.some.inj hfirst
  cases ps with
  | nil => simp
  | cons p ps =>
    have hne : p ≠ m.specials.nil := fun e => hnil (e ▸ List.mem_cons_self)
    simp [hne]

/-- Linking a process to a list is what `enlist` says. -/
theorem linkLast_ok (hl : Threads m.memory.cell m.specials.nil l ps) (hnil : m.specials.nil ∉ ps)
    (h : linkLast p l m = .ok u m') :
    ∃ memory, m' = { m with memory } ∧ memory.cell = enlist m.memory.cell p l ps := by
  obtain ⟨b, _, hempty, h⟩ := bind_ok.1 h
  obtain ⟨hb, rfl⟩ := isEmptyList_ok hl hnil hempty
  rw [enlist]
  cases hq : ps.getLast? with
  | none =>
    rw [if_pos (hb.2 (List.getLast?_eq_none_iff.1 hq))] at h
    simp only [bind_ok, store_ok] at h
    obtain ⟨_, _, ⟨hfirst, rfl⟩, _, _, ⟨hlast, rfl⟩, hmine, rfl⟩ := h
    refine ⟨_, rfl, ?_⟩
    rw [attach, ← Machine.cell_setCell hfirst, ← Machine.cell_setCell hlast]
    exact Machine.cell_setCell hmine
  | some q =>
    have hne : ps ≠ [] := by
      rintro rfl
      exact absurd hq (by simp)
    rw [if_neg fun e => hne (hb.1 e)] at h
    simp only [bind_ok, fetch_ok, store_ok] at h
    obtain ⟨q', _, ⟨hq', rfl⟩, _, _, ⟨hnext, rfl⟩, _, _, ⟨hlast, rfl⟩, hmine, rfl⟩ := h
    rw [hl.last q hq] at hq'
    obtain rfl : q = q' := Option.some.inj hq'
    refine ⟨_, rfl, ?_⟩
    rw [attach, ← Machine.cell_setCell hnext, ← Machine.cell_setCell hlast]
    exact Machine.cell_setCell hmine

/-- Unlinking the first process is what `delist` says. -/
theorem unlinkFirst_ok (hl : Threads m.memory.cell m.specials.nil l (p :: ps))
    (once : (p :: ps).Nodup) (h : unlinkFirst l m = .ok x m') :
    x = p ∧ ∃ memory, m' = { m with memory } ∧
      memory.cell = delist m.memory.cell m.specials.nil p l ps := by
  simp only [unlinkFirst, bind_ok, nil_ok, fetch_ok] at h
  obtain ⟨_, _, ⟨rfl, rfl⟩, first, _, ⟨hfirst, rfl⟩, last, _, ⟨hlast, rfl⟩, h⟩ := h
  rw [hl.first] at hfirst
  obtain rfl : p = first := Option.some.inj hfirst
  rw [delist]
  cases ps with
  | nil =>
    rw [hl.last p rfl] at hlast
    rw [if_pos (Option.some.inj hlast)] at h
    simp only [bind_ok, store_ok, pure_ok] at h
    obtain ⟨_, _, ⟨hfirst, rfl⟩, _, _, ⟨hlast, rfl⟩, _, _, ⟨hnext, rfl⟩, rfl, rfl⟩ := h
    refine ⟨rfl, _, rfl, ?_⟩
    rw [advance, ← Machine.cell_setCell hfirst, ← Machine.cell_setCell hlast]
    exact Machine.cell_setCell hnext
  | cons q ps =>
    have hend := List.getLast?_eq_some_getLast (List.cons_ne_nil q ps)
    rw [hl.last _ (List.getLast?_cons_cons.trans hend)] at hlast
    -- the first process is the last one only when it is alone
    have hne : p ≠ last := fun e => (List.nodup_cons.1 once).1
      (e ▸ Option.some.inj hlast ▸ List.getLast_mem (List.cons_ne_nil q ps))
    rw [if_neg hne] at h
    simp only [bind_ok, fetch_ok, store_ok, pure_ok] at h
    obtain ⟨q', _, ⟨hq', rfl⟩, _, _, ⟨hfirst, rfl⟩, _, _, ⟨hnext, rfl⟩, rfl, rfl⟩ := h
    rw [(List.isChain_cons_cons.1 hl.chain).1] at hq'
    obtain rfl : q = q' := Option.some.inj hq'
    refine ⟨rfl, _, rfl, ?_⟩
    rw [advance, ← Machine.cell_setCell hfirst]
    exact Machine.cell_setCell hnext

/-! ### The steps of an operation -/

theorem Queued.congr (h : Queued L c queue)
    (hholder : ∀ l ∈ L.holders, ∀ i, i ≠ ProcessList.excessSignals → c' l i = c l i)
    (hprocess : ∀ p ∈ L.processes, ∀ i, i ≠ Process.suspendedContext → c' p i = c p i) :
    Queued L c' queue where
  holds l hl := (h.holds l hl).congr (hholder l hl _ (by decide)) (hholder l hl _ (by decide))
    fun p hp => hprocess p (h.process l hl p hp) _ (by decide)
  once := h.once
  process := h.process
  myList l hl p hp := (hprocess p (h.process l hl p hp) _ (by decide)).trans (h.myList l hl p hp)
  loose p hp hun := (hprocess p hp _ (by decide)).trans (h.loose p hp hun)

theorem Standing.holds (h : Standing L m S) (hl : l ∈ L.holders) :
    Holds m.memory.cell m.specials.nil l (S.queue l) := by
  rw [h.nil]
  exact h.queued.holds l hl

theorem Standing.nil_not_mem (h : Standing L m S) (hL : L.Proper) (hl : l ∈ L.holders) :
    m.specials.nil ∉ S.queue l := by
  rw [h.nil]
  exact fun hmem => hL.toDistinct.nil_ne_process (h.queued.process l hl _ hmem) rfl

/-- The schedule with other processes in a list. -/
def Schedule.withQueue (S : Schedule) (l : Value) (ps : List Value) : Schedule :=
  { S with queue := Function.update S.queue l ps }

@[simp] theorem Schedule.withQueue_self (S : Schedule) (l : Value) (ps : List Value) :
    (S.withQueue l ps).queue l = ps := Function.update_self ..

theorem Schedule.withQueue_of_ne (S : Schedule) (ps : List Value) (h : k ≠ l) :
    (S.withQueue l ps).queue k = S.queue k := Function.update_of_ne h ..

/-- The schedule with a process at the end of a list. -/
def Schedule.enlist (S : Schedule) (p l : Value) : Schedule := S.withQueue l (S.queue l ++ [p])

/-- A loose process linked to a list stands at its end. -/
theorem Standing.linkLast (h : Standing L m S) (hL : L.Proper) (hl : l ∈ L.holders)
    (hp : p ∈ L.processes) (unlisted : L.Unlisted S.queue p)
    (hlevel : ∀ i : Nat, L.lists[i]? = some l → L.priority p = i + 1)
    (hrun : linkLast p l m = .ok u m') :
    Standing L m' (S.enlist p l) ∧ m'.registers = m.registers := by
  obtain ⟨memory, rfl, hcell⟩ := linkLast_ok (h.holds hl).threads (h.nil_not_mem hL hl) hrun
  have hroot : ∀ v ∈ [L.array, L.association, L.scheduler, L.table], ∀ i,
      memory.cell v i = m.memory.cell v i := by
    intro v hv i
    rw [hcell]
    refine enlist_other (hL.toDistinct.root_ne hv (.inl hl)) (.inl fun hmem => ?_)
    rcases List.mem_cons.1 hmem with rfl | hmem
    · exact hL.toDistinct.root_ne hv (.inr hp) rfl
    · exact hL.toDistinct.root_ne hv (.inr (h.queued.process l hl v hmem)) rfl
  have hprocess : ∀ q ∈ L.processes, ∀ i, i ≠ Process.next → i ≠ Process.myList →
      memory.cell q i = m.memory.cell q i := by
    intro q hq i hnext hmine
    rw [hcell]
    exact enlist_other (Ne.symm (hL.toDistinct.holder_ne_process hl hq)) (.inr ⟨hnext, hmine⟩)
  refine ⟨⟨⟨h.nil, h.array, h.context, ?_, ?_, h.active, ?_⟩, ?_⟩, rfl⟩
  · refine h.rooted.congr (fun v hv i _ => hroot v hv i)
      (fun q hq => hprocess q hq _ (by decide) (by decide)) (fun q hq x hx => ?_) hL
    rw [hprocess q hq _ (by decide) (by decide)] at hx
    exact h.rooted.suspended q hq x hx
  · exact (hroot _ (by simp) _).trans h.running
  · intro i k hk q hq
    by_cases hkl : k = l
    · subst hkl
      rw [Schedule.enlist, Schedule.withQueue_self] at hq
      rcases List.mem_append.1 hq with hq | hq
      · exact h.level i k hk q hq
      · rw [List.mem_singleton.1 hq]
        exact hlevel i hk
    · rw [Schedule.enlist, S.withQueue_of_ne _ hkl] at hq
      exact h.level i k hk q hq
  · have hq := h.queued.enlist hL hl hp unlisted
    rw [← hcell] at hq
    exact hq

/-- Taking the first process off a list. -/
theorem Standing.unlinkFirst (h : Standing L m S) (hL : L.Proper) (hl : l ∈ L.holders)
    (hq : S.queue l = p :: ps) (hrun : unlinkFirst l m = .ok x m') :
    x = p ∧ Standing L m' (S.withQueue l ps) ∧ L.Unlisted (S.withQueue l ps).queue p ∧
      m'.registers = m.registers := by
  obtain ⟨rfl, memory, rfl, hcell⟩ :=
    unlinkFirst_ok (hq ▸ (h.holds hl).threads) (hq ▸ h.queued.once l hl) hrun
  rw [h.nil] at hcell
  have hp : x ∈ L.processes := h.queued.process l hl x (hq ▸ List.mem_cons_self)
  obtain ⟨hqueued, hun⟩ := h.queued.delist hL hl hq
  have hroot : ∀ v ∈ [L.array, L.association, L.scheduler, L.table], ∀ i,
      memory.cell v i = m.memory.cell v i := by
    intro v hv i
    rw [hcell]
    exact delist_other (hL.toDistinct.root_ne hv (.inl hl)) (.inl (hL.toDistinct.root_ne hv (.inr hp)))
  have hprocess : ∀ q ∈ L.processes, ∀ i, i ≠ Process.next →
      memory.cell q i = m.memory.cell q i := by
    intro q hq i hnext
    rw [hcell]
    exact delist_other (Ne.symm (hL.toDistinct.holder_ne_process hl hq)) (.inr hnext)
  refine ⟨rfl, ⟨⟨h.nil, h.array, h.context, ?_, ?_, h.active, ?_⟩, ?_⟩, hun, rfl⟩
  · refine h.rooted.congr (fun v hv i _ => hroot v hv i)
      (fun q hq => hprocess q hq _ (by decide)) (fun q hq x hx => ?_) hL
    rw [hprocess q hq _ (by decide)] at hx
    exact h.rooted.suspended q hq x hx
  · exact (hroot _ (by simp) _).trans h.running
  · intro i k hk q hmem
    by_cases hkl : k = l
    · subst hkl
      rw [Schedule.withQueue_self] at hmem
      exact h.level i k hk q (hq ▸ List.mem_cons_of_mem x hmem)
    · rw [S.withQueue_of_ne _ hkl] at hmem
      exact h.level i k hk q hmem
  · rw [← hcell] at hqueued
    exact hqueued

theorem Layout.Proper.list_index (hL : L.Proper) {i j : Nat} (hi : L.lists[i]? = some l)
    (hj : L.lists[j]? = some l) : i = j := by
  have hnodup := (List.nodup_append.1 hL.toDistinct.holders_nodup).1
  exact (List.getElem?_inj (List.getElem?_eq_some_iff.1 hi).1 hnodup).1 (hi.trans hj.symm)

theorem Layout.Proper.semaphore_not_list (hL : L.Proper) (hl : l ∈ L.semaphores) {i : Nat} :
    L.lists[i]? ≠ some l := fun h =>
  (List.nodup_append.1 hL.toDistinct.holders_nodup).2.2 l (List.mem_of_getElem? h) l hl rfl

/-- A loose process that is made ready stands at the end of the list of its priority. -/
theorem Standing.makeReady (h : Standing L m S) (hL : L.Proper) (hp : p ∈ L.processes)
    (unlisted : L.Unlisted S.queue p) (hrun : makeReady p m = .ok u m') :
    ∃ l, L.lists[L.priority p - 1]? = some l ∧ Standing L m' (S.enlist p l) ∧
      m'.registers = m.registers := by
  simp only [Action.makeReady, bind_ok, h.scheduler_ok, fetch_ok] at hrun
  obtain ⟨_, _, ⟨rfl, rfl⟩, table, _, ⟨htable, rfl⟩, n, _, hn, hrun⟩ := hrun
  rw [h.rooted.table] at htable
  obtain rfl : L.table = table := Option.some.inj htable
  obtain ⟨rfl, rfl⟩ := h.priority_ok hp hn
  have hrange := hL.priority p hp
  rw [if_neg (by omega)] at hrun
  simp only [bind_ok, fetch_ok] at hrun
  obtain ⟨l, _, ⟨hl, rfl⟩, hrun⟩ := hrun
  have hindex : ((L.priority p : Int) - 1).toNat = L.priority p - 1 := by omega
  rw [h.rooted.lists, hindex] at hl
  refine ⟨l, hl, ?_⟩
  refine h.linkLast hL (L.mem_holders_of_list hl) hp unlisted (fun i hi => ?_) hrun
  have := hL.list_index hi hl
  omega

/-- The schedule with another process running. -/
def Schedule.run (S : Schedule) (p : Value) : Schedule := { S with active := p }

/-- The machine when a switch to `p` has told the scheduler and saved the old process' context. -/
def handedOver (m : Machine) (s old p : Value) : Machine :=
  (m.setCell s Scheduler.activeProcess p).setCell old Process.suspendedContext m.registers.context

@[simp] theorem handedOver_registers (m : Machine) (s old p : Value) :
    (handedOver m s old p).registers = m.registers := rfl

@[simp] theorem handedOver_specials (m : Machine) (s old p : Value) :
    (handedOver m s old p).specials = m.specials := rfl

/-- The machine with a switch of processes counted and all contexts held. -/
def switched (m : Machine) : Machine :=
  { m with
    reclaimable := 0
    counters := { m.counters with processSwitches := m.counters.processSwitches + 1 } }

theorem switched_ok : ((do
      modify fun m => { m with reclaimable := 0 }
      modifyCounters fun c => { c with processSwitches := c.processSwitches + 1 }) :
      Action Unit) m = .ok u m' ↔ switched m = m' := by
  simp only [bind_ok, modify_ok, modifyCounters_ok]
  constructor
  · rintro ⟨_, _, rfl, rfl⟩
    rfl
  · rintro rfl
    exact ⟨(), _, rfl, rfl⟩

/-- The machine when a switch to `p` has ended, with the registers `r` of its context. -/
def transferred (m : Machine) (s old p : Value) (r : Registers) : Machine :=
  switched (((saved (handedOver m s old p)).withRegisters r).setCell p Process.suspendedContext
    m.specials.nil)

theorem transferTo_ok (h : transferTo p m = .ok u m') :
    ∃ s old next r, scheduler m = .ok s m ∧
      m.memory.cell s Scheduler.activeProcess = some old ∧
      (∃ y, (m.setCell s Scheduler.activeProcess p).memory.cell old Process.suspendedContext =
        some y) ∧
      (handedOver m s old p).memory.cell p Process.suspendedContext = some next ∧
      r.context = next ∧ Loaded (saved (handedOver m s old p)).memory next r ∧
      (∃ y, (saved (handedOver m s old p)).memory.cell p Process.suspendedContext = some y) ∧
      m' = transferred m s old p r := by
  obtain ⟨s, _, hs, h⟩ := bind_ok.1 h
  obtain ⟨hcell, rfl⟩ := scheduler_ok.1 hs
  simp only [bind_ok, fetch_ok, store_ok, registers_ok] at h
  obtain ⟨old, _, ⟨hold, rfl⟩, _, _, ⟨hactive, rfl⟩, _, _, ⟨rfl, rfl⟩, _, _, ⟨hsuspend, rfl⟩,
    next, _, ⟨hnext, rfl⟩, _, m₁, hactivate, _, _, hnil, _, _, ⟨hresume, rfl⟩, h⟩ := h
  rw [Machine.setCell_registers, ← handedOver] at hnext hactivate
  obtain ⟨-, r, rfl, hr, hload⟩ := activate_ok hactivate
  rw [nil_ok, Machine.withRegisters_specials, saved_specials, handedOver_specials] at hnil
  obtain ⟨rfl, rfl⟩ := hnil
  rw [Machine.withRegisters_memory] at hresume
  have hend := switched_ok.1 (bind_ok.2 h)
  exact ⟨s, old, next, r, hs, hold, hsuspend, hnext, hr, hload, hresume, hend.symm⟩

/-- What a switch from the process `old` to `p` leaves in the objects that are not the context. -/
theorem transferred_cell {s old : Value} {r : Registers} {w : Value} {j : Nat}
    (hactive : ∃ y, m.memory.cell s Scheduler.activeProcess = some y)
    (hsuspend : ∃ y, (m.setCell s Scheduler.activeProcess p).memory.cell old
      Process.suspendedContext = some y)
    (hresume : ∃ y, (saved (handedOver m s old p)).memory.cell p Process.suspendedContext = some y)
    (hw : w ≠ m.registers.context) :
    (transferred m s old p r).memory.cell w j =
      (((Cells.set m.memory.cell s Scheduler.activeProcess p).set old Process.suspendedContext
        m.registers.context).set p Process.suspendedContext m.specials.nil) w j := by
  have hset := Machine.cell_setCell (m := (saved (handedOver m s old p)).withRegisters r)
    (x := m.specials.nil) hresume
  have hmemory : (transferred m s old p r).memory.cell = Cells.set
      (saved (handedOver m s old p)).memory.cell p Process.suspendedContext m.specials.nil := hset
  have hover : (handedOver m s old p).memory.cell =
      (Cells.set m.memory.cell s Scheduler.activeProcess p).set old Process.suspendedContext
        m.registers.context := by
    rw [handedOver, Machine.cell_setCell hsuspend, Machine.cell_setCell hactive]
  rw [hmemory, Cells.set]
  conv_rhs => rw [Cells.set]
  rw [saved_of_ne (by rwa [handedOver_registers]), hover]

/-- Switching to another process keeps the lists. -/
theorem Standing.transferTo (h : Standing L m S) (hL : L.Proper) (hp : p ∈ L.processes)
    (hne : p ≠ S.active) (hrun : transferTo p m = .ok u m') : Standing L m' (S.run p) := by
  obtain ⟨s, old, next, r, hs, hold, hsuspend, hnext, rfl, -, hresume, rfl⟩ := transferTo_ok hrun
  obtain ⟨rfl, -⟩ := h.scheduler_ok.1 hs
  rw [h.running] at hold
  obtain rfl : S.active = old := Option.some.inj hold
  have hactive : ∃ y, m.memory.cell L.scheduler Scheduler.activeProcess = some y := ⟨_, h.running⟩
  have hcell : ∀ w ∈ L.objects, ∀ j, _ := fun w hw j =>
    transferred_cell (r := r) (j := j) hactive hsuspend hresume fun e => h.context (e ▸ hw)
  have hps : p ≠ L.scheduler := Ne.symm (hL.toDistinct.root_ne (by simp) (.inr hp))
  generalize hend : transferred m L.scheduler S.active p r = m' at hcell
  have hroot : ∀ v ∈ [L.array, L.association, L.scheduler, L.table], ∀ i,
      v ≠ L.scheduler ∨ i ≠ Scheduler.activeProcess → m'.memory.cell v i = m.memory.cell v i := by
    intro v hv i hi
    rw [hcell v (List.mem_append_left _ hv), Cells.set_of_ne (hL.toDistinct.root_ne hv (.inr hp)),
      Cells.set_of_ne (hL.toDistinct.root_ne hv (.inr h.active))]
    exact hi.elim Cells.set_of_ne Cells.set_of_index_ne
  have hprocess : ∀ q ∈ L.processes, ∀ i, i ≠ Process.suspendedContext →
      m'.memory.cell q i = m.memory.cell q i := by
    intro q hq i hi
    rw [hcell q (L.mem_objects_of_process hq), Cells.set_of_index_ne hi, Cells.set_of_index_ne hi,
      Cells.set_of_ne (Ne.symm (hL.toDistinct.root_ne (by simp) (.inr hq)))]
  refine ⟨⟨?_, ?_, ?_, ?_, ?_, hp, h.level⟩, ?_⟩
  · rw [← hend]
    exact h.nil
  · rw [← hend]
    exact h.array
  · -- the context of the process was no object of the layout while it waited
    rw [handedOver, Machine.cell_setCell hsuspend, Machine.cell_setCell hactive,
      Cells.set_of_ne hne, Cells.set_of_ne hps] at hnext
    rw [← hend]
    exact h.rooted.suspended p hp _ hnext
  · refine h.rooted.congr hroot (fun q hq => hprocess q hq _ (by decide)) (fun q hq x hx => ?_) hL
    rw [hcell q (L.mem_objects_of_process hq)] at hx
    by_cases hqp : q = p
    · subst hqp
      rw [Cells.set_same, h.nil] at hx
      exact Option.some.inj hx ▸ hL.toDistinct.nil_not_mem
    · rw [Cells.set_of_ne hqp] at hx
      by_cases hqa : q = S.active
      · subst hqa
        rw [Cells.set_same] at hx
        exact Option.some.inj hx ▸ h.context
      · rw [Cells.set_of_ne hqa, Cells.set_of_ne (Ne.symm (hL.toDistinct.root_ne (by simp) (.inr hq)))] at hx
        exact h.rooted.suspended q hq x hx
  · rw [hcell _ (List.mem_append_left _ (by simp)), Cells.set_of_ne hps.symm,
      Cells.set_of_ne (hL.toDistinct.root_ne (by simp) (.inr h.active)), Cells.set_same]
    rfl
  · refine h.queued.congr (fun l hl i _ => ?_) hprocess
    rw [hcell l (L.mem_objects_of_holder hl), Cells.set_of_ne (hL.toDistinct.holder_ne_process hl hp),
      Cells.set_of_ne (hL.toDistinct.holder_ne_process hl h.active),
      Cells.set_of_ne (Ne.symm (hL.toDistinct.root_ne (by simp) (.inl hl)))]

/-- The process `p` is the first of the highest list that has one, with `ps` behind it. -/
def Foremost (L : Layout) (S : Schedule) (p l : Value) (ps : List Value) : Prop :=
  ∃ i : Nat, L.lists[i]? = some l ∧ S.queue l = p :: ps ∧
    ∀ (j : Nat) (k : Value), i < j → L.lists[j]? = some k → S.queue k = []

theorem Standing.unlinkHighest {count : Nat} (h : Standing L m S) (hL : L.Proper)
    (hempty : ∀ (j : Nat) (k : Value), count ≤ j → L.lists[j]? = some k → S.queue k = [])
    (hrun : unlinkHighest L.table count m = .ok x m') :
    ∃ l ps, Foremost L S x l ps ∧ Standing L m' (S.withQueue l ps) ∧
      L.Unlisted (S.withQueue l ps).queue x := by
  induction count with
  | zero => exact absurd hrun (by simp [Action.unlinkHighest, throw_ok])
  | succ count ih =>
    simp only [Action.unlinkHighest, bind_ok, fetch_ok] at hrun
    obtain ⟨l, _, ⟨hl, rfl⟩, b, _, hlook, hrun⟩ := hrun
    rw [h.rooted.lists] at hl
    have hholder := L.mem_holders_of_list hl
    obtain ⟨hb, rfl⟩ := isEmptyList_ok (h.holds hholder).threads (h.nil_not_mem hL hholder) hlook
    cases hq : S.queue l with
    | nil =>
      rw [if_pos (hb.2 hq)] at hrun
      refine ih (fun j k hj hk => ?_) hrun
      rcases Nat.eq_or_lt_of_le hj with rfl | hj
      · rw [hl] at hk
        exact Option.some.inj hk ▸ hq
      · exact hempty j k hj hk
    | cons p ps =>
      rw [if_neg fun e => List.cons_ne_nil p ps (hq.symm.trans (hb.1 e))] at hrun
      obtain ⟨rfl, hstand, hun, -⟩ := h.unlinkFirst hL hholder hq hrun
      exact ⟨l, ps, ⟨count, hl, hq, fun j k hj hk => hempty j k hj hk⟩, hstand, hun⟩

/-- The process that is picked to run next is the foremost one. -/
theorem Standing.pickTop (h : Standing L m S) (hL : L.Proper) (hrun : pickTop m = .ok x m') :
    ∃ l ps, Foremost L S x l ps ∧ Standing L m' (S.withQueue l ps) ∧
      L.Unlisted (S.withQueue l ps).queue x := by
  simp only [Action.pickTop, bind_ok, h.scheduler_ok, fetch_ok, object_ok] at hrun
  obtain ⟨_, _, ⟨rfl, rfl⟩, table, _, ⟨htable, rfl⟩, o, _, ⟨ho, rfl⟩, hrun⟩ := hrun
  rw [h.rooted.table] at htable
  obtain rfl : L.table = table := Option.some.inj htable
  refine h.unlinkHighest hL (fun j k hj hk => ?_) hrun
  have hcell := h.rooted.lists j
  rw [Memory.cell, ho, Option.bind_some, Array.getElem?_eq_none hj, hk] at hcell
  exact absurd hcell (by simp)

/-! ### The operations -/

/-- What is done to the scheduler from outside. -/
inductive Op where
  | signal (semaphore : Value)
  | wait (semaphore : Value)
  | suspend
  | resume (process : Value)

def Op.run : Op → Action Unit
  | signal s => Action.signal s
  | wait s => Action.wait s
  | suspend => suspendActive
  | resume p => Action.resume p

/-- The list for the priority of a process. -/
def Layout.listOf (L : Layout) (p : Value) : Value := L.lists[L.priority p - 1]?.getD L.nil

/-- A process that is let run goes first if it has the higher priority, and else to its list. -/
def Schedule.resume (L : Layout) (S : Schedule) (p : Value) : Schedule :=
  if L.priority S.active < L.priority p then (S.enlist S.active (L.listOf S.active)).run p
  else S.enlist p (L.listOf p)

/-- The first process that waits for a signal is let run. -/
def Schedule.signal (L : Layout) (S : Schedule) (s : Value) : Schedule :=
  match S.queue s with
  | [] => S
  | p :: ps => (S.withQueue s ps).resume L p

/-- The foremost process runs in place of the active one. -/
def Schedule.Yields (L : Layout) (S S' : Schedule) : Prop :=
  ∃ p l ps, Foremost L S p l ps ∧ S' = (S.withQueue l ps).run p

theorem Layout.Proper.listOf (hL : L.Proper) (hp : p ∈ L.processes) :
    L.lists[L.priority p - 1]? = some (L.listOf p) := by
  have hrange := hL.priority p hp
  have hlt : L.priority p - 1 < L.lists.length := by omega
  rw [Layout.listOf, List.getElem?_eq_getElem hlt, Option.getD_some]

theorem Layout.Proper.listOf_mem (hL : L.Proper) (hp : p ∈ L.processes) :
    L.listOf p ∈ L.holders := L.mem_holders_of_list (hL.listOf hp)

/-- Who is ready after a process was put into a list. -/
theorem Schedule.mem_enlist (h : q ∈ (S.enlist p l).queue k) : q ∈ S.queue k ∨ q = p ∧ k = l := by
  by_cases hkl : k = l
  · subst hkl
    rw [Schedule.enlist, Schedule.withQueue_self] at h
    exact (List.mem_append.1 h).imp_right fun e => ⟨List.mem_singleton.1 e, rfl⟩
  · rw [Schedule.enlist, S.withQueue_of_ne _ hkl] at h
    exact .inl h

theorem Standing.resume (h : Standing L m S) (hL : L.Proper) (hp : p ∈ L.processes)
    (hne : p ≠ S.active) (unlisted : L.Unlisted S.queue p)
    (hactive : L.Unlisted S.queue S.active)
    (highest : ∀ l ∈ L.lists, ∀ q ∈ S.queue l, L.priority q ≤ L.priority S.active)
    (hrun : Action.resume p m = .ok u m') : Orderly L m' (S.resume L p) := by
  obtain ⟨x, _, hx, hrun⟩ := bind_ok.1 hrun
  obtain ⟨rfl, rfl⟩ := h.activeProcess_ok hx
  obtain ⟨n, _, hn, hrun⟩ := bind_ok.1 hrun
  obtain ⟨rfl, rfl⟩ := h.priority_ok hp hn
  obtain ⟨n, _, hn, hrun⟩ := bind_ok.1 hrun
  obtain ⟨rfl, rfl⟩ := h.priority_ok h.active hn
  rw [Schedule.resume]
  by_cases hlt : L.priority S.active < L.priority p
  · rw [if_pos (Int.ofNat_lt.2 hlt)] at hrun
    obtain ⟨_, m₁, hready, htransfer⟩ := bind_ok.1 hrun
    obtain ⟨l, hl, hstand, -⟩ := h.makeReady hL h.active hactive hready
    obtain rfl : L.listOf S.active = l := Option.some.inj ((hL.listOf h.active).symm.trans hl)
    rw [if_pos hlt]
    refine (hstand.transferTo hL hp hne htransfer).orderly ?_ ?_
    · intro k hk hmem
      rcases Schedule.mem_enlist hmem with hmem | ⟨rfl, -⟩
      · exact unlisted k hk hmem
      · exact hne rfl
    · intro k hk q hmem
      change L.priority q ≤ L.priority p
      rcases Schedule.mem_enlist hmem with hmem | ⟨rfl, -⟩
      · exact Nat.le_of_lt (Nat.lt_of_le_of_lt (highest k hk q hmem) hlt)
      · exact Nat.le_of_lt hlt
  · rw [if_neg fun e => hlt (Int.ofNat_lt.1 e)] at hrun
    obtain ⟨l, hl, hstand, -⟩ := h.makeReady hL hp unlisted hrun
    obtain rfl : L.listOf p = l := Option.some.inj ((hL.listOf hp).symm.trans hl)
    rw [if_neg hlt]
    refine hstand.orderly ?_ ?_
    · intro k hk hmem
      rcases Schedule.mem_enlist hmem with hmem | ⟨he, -⟩
      · exact hactive k hk hmem
      · exact hne he.symm
    · intro k hk q hmem
      change L.priority q ≤ L.priority S.active
      rcases Schedule.mem_enlist hmem with hmem | ⟨rfl, -⟩
      · exact highest k hk q hmem
      · exact Nat.le_of_not_lt hlt

/-- The foremost process takes over from one that is not ready itself. -/
theorem Standing.yields (h : Standing L m S) (hL : L.Proper)
    (hactive : ∀ l ∈ L.lists, S.active ∉ S.queue l)
    (hrun : (Action.pickTop >>= Action.transferTo) m = .ok u m') :
    ∃ S', S.Yields L S' ∧ Orderly L m' S' := by
  obtain ⟨p, m₁, hpick, htransfer⟩ := bind_ok.1 hrun
  obtain ⟨l, ps, hfore, hstand, hun⟩ := h.pickTop hL hpick
  refine ⟨_, ⟨p, l, ps, hfore, rfl⟩, ?_⟩
  obtain ⟨i, hl, hq, hempty⟩ := hfore
  have hpl : p ∈ S.queue l := hq ▸ List.mem_cons_self
  have hp : p ∈ L.processes := h.queued.process l (L.mem_holders_of_list hl) p hpl
  have hne : p ≠ S.active := fun e => hactive l (List.mem_of_getElem? hl) (e ▸ hpl)
  refine (hstand.transferTo hL hp hne htransfer).orderly hun ?_
  intro k hk q hmem
  change L.priority q ≤ L.priority p
  obtain ⟨j, hj⟩ := List.getElem?_of_mem hk
  have hlevel := hstand.level j k hj q hmem
  have htop := h.level i l hl p hpl
  -- the lists above the one of `p` have nobody
  by_cases hij : i < j
  · have hkl : k ≠ l := by
      rintro rfl
      exact absurd (hL.list_index hj hl) (by omega)
    change q ∈ (S.withQueue l ps).queue k at hmem
    rw [S.withQueue_of_ne _ hkl, hempty j k hij hj] at hmem
    exact absurd hmem List.not_mem_nil
  · omega

theorem Standing.setExcess (h : Standing L m S) (hL : L.Proper) (hs : l ∈ L.semaphores)
    (hcell : ∃ y, m.memory.cell l ProcessList.excessSignals = some y) :
    Standing L (m.setCell l ProcessList.excessSignals x) S := by
  have hl := L.mem_holders_of_semaphore hs
  have hother : ∀ v, v ≠ l → ∀ i,
      (m.setCell l ProcessList.excessSignals x).memory.cell v i = m.memory.cell v i := by
    intro v hv i
    rw [Machine.cell_setCell hcell, Cells.set_of_ne hv]
  have hroot : ∀ v ∈ [L.array, L.association, L.scheduler, L.table], v ≠ l := fun v hv =>
    hL.toDistinct.root_ne hv (.inl hl)
  have hprocess : ∀ p ∈ L.processes, p ≠ l := fun p hp => Ne.symm (hL.toDistinct.holder_ne_process hl hp)
  refine ⟨⟨h.nil, h.array, h.context, ?_, ?_, h.active, h.level⟩, ?_⟩
  · refine h.rooted.congr (fun v hv i _ => hother v (hroot v hv) i)
      (fun p hp => hother p (hprocess p hp) _) (fun p hp y hy => ?_) hL
    rw [hother p (hprocess p hp)] at hy
    exact h.rooted.suspended p hp y hy
  · rw [hother _ (hroot _ (by simp)), h.running]
  · refine h.queued.congr (fun k _ i hi => ?_) (fun p hp i _ => hother p (hprocess p hp) i)
    rw [Machine.cell_setCell hcell, Cells.set_of_index_ne hi]

/-- A signal lets the first process that waits for it run. -/
theorem Orderly.signal (h : Orderly L m S) (hL : L.Proper) (hs : l ∈ L.semaphores)
    (hrun : Action.signal l m = .ok u m') : Orderly L m' (S.signal L l) := by
  have hl := L.mem_holders_of_semaphore hs
  obtain ⟨b, _, hlook, hrun⟩ := bind_ok.1 hrun
  obtain ⟨hb, rfl⟩ := isEmptyList_ok (h.standing.holds hl).threads
    (h.standing.nil_not_mem hL hl) hlook
  cases hq : S.queue l with
  | nil =>
    rw [if_pos (hb.2 hq)] at hrun
    simp only [bind_ok, fetchInt_ok, immediate_ok, store_ok] at hrun
    obtain ⟨n, _, ⟨-, rfl⟩, _, _, ⟨-, rfl, rfl⟩, hcell, rfl⟩ := hrun
    rw [Schedule.signal, hq]
    exact (h.standing.setExcess hL hs hcell).orderly h.unlisted h.highest
  | cons p ps =>
    rw [if_neg fun e => List.cons_ne_nil p ps (hq.symm.trans (hb.1 e))] at hrun
    obtain ⟨x, m₁, hunlink, hrun⟩ := bind_ok.1 hrun
    obtain ⟨rfl, hstand, hun, -⟩ := h.standing.unlinkFirst hL hl hq hunlink
    have hx : x ∈ S.queue l := hq ▸ List.mem_cons_self
    have hne : x ≠ S.active := fun e => h.unlisted l hl (e ▸ hx)
    have hsub : ∀ k, ∀ q ∈ (S.withQueue l ps).queue k, q ∈ S.queue k := by
      intro k q hmem
      by_cases hkl : k = l
      · subst hkl
        rw [Schedule.withQueue_self] at hmem
        exact hq ▸ List.mem_cons_of_mem x hmem
      · rwa [S.withQueue_of_ne _ hkl] at hmem
    rw [Schedule.signal, hq]
    exact hstand.resume hL (h.listed.process l hl x hx) hne hun
      (fun k hk hmem => h.unlisted k hk (hsub k _ hmem))
      (fun k hk q hmem => h.highest k hk q (hsub k q hmem)) hrun

/-- What an operation does to the schedule. A wait gives up a signal that nobody waited for, and
blocks when there is none. -/
def Moves (L : Layout) (m : Machine) : Op → Schedule → Schedule → Prop
  | .signal s, S, S' => S' = S.signal L s
  | .resume p, S, S' => S' = S.resume L p
  | .suspend, S, S' => S.Yields L S'
  | .wait s, S, S' => ∃ n, m.memory.cell s ProcessList.excessSignals = some (.small n) ∧
      if 0 < n then S' = S else (S.enlist S.active s).Yields L S'

/-- Waiting for a semaphore. -/
theorem Orderly.wait (h : Orderly L m S) (hL : L.Proper) (hs : l ∈ L.semaphores)
    (hrun : Action.wait l m = .ok u m') : ∃ S', Moves L m (.wait l) S S' ∧ Orderly L m' S' := by
  have hl := L.mem_holders_of_semaphore hs
  obtain ⟨n, _, hlook, hrun⟩ := bind_ok.1 hrun
  obtain ⟨hn, rfl⟩ := fetchInt_ok.1 hlook
  by_cases hpos : 0 < n
  · rw [if_pos hpos, store_ok] at hrun
    obtain ⟨hcell, rfl⟩ := hrun
    refine ⟨S, ⟨n, hn, ?_⟩, (h.standing.setExcess hL hs hcell).orderly h.unlisted h.highest⟩
    rw [if_pos hpos]
  · rw [if_neg hpos] at hrun
    obtain ⟨x, _, hx, hrun⟩ := bind_ok.1 hrun
    obtain ⟨rfl, rfl⟩ := h.standing.activeProcess_ok hx
    obtain ⟨_, m₁, hlink, hrun⟩ := bind_ok.1 hrun
    obtain ⟨hstand, -⟩ := h.standing.linkLast hL hl h.active h.unlisted
      (fun i hi => absurd hi (hL.semaphore_not_list hs)) hlink
    have hready : ∀ k ∈ L.lists, S.active ∉ (S.enlist S.active l).queue k := by
      intro k hk hmem
      obtain ⟨j, hj⟩ := List.getElem?_of_mem hk
      rcases Schedule.mem_enlist hmem with hmem | ⟨-, rfl⟩
      · exact h.unlisted k (L.mem_holders_of_list hj) hmem
      · exact hL.semaphore_not_list hs hj
    obtain ⟨S', hyields, horder⟩ := hstand.yields hL hready hrun
    refine ⟨S', ⟨n, hn, ?_⟩, horder⟩
    rwa [if_neg hpos]

/-! ### Nobody is lost -/

/-- The processes that run, are ready or wait. -/
def Layout.roster (L : Layout) (S : Schedule) : List Value :=
  S.active :: L.holders.flatMap S.queue

/-- Changing one list changes the processes by those of that list. -/
theorem flatMap_update_perm {xs : List Value} (hl : l ∈ xs) (hxs : xs.Nodup)
    (queue : Value → List Value) (ps : List Value) :
    (queue l ++ xs.flatMap (Function.update queue l ps)).Perm (ps ++ xs.flatMap queue) := by
  induction xs with
  | nil => exact absurd hl List.not_mem_nil
  | cons a xs ih =>
    obtain ⟨ha, hxs⟩ := List.nodup_cons.1 hxs
    rw [List.flatMap_cons, List.flatMap_cons]
    by_cases hal : a = l
    · subst hal
      have hrest : xs.flatMap (Function.update queue a ps) = xs.flatMap queue := by
        refine List.flatMap_congr fun k hk => Function.update_of_ne ?_ ..
        rintro rfl
        exact ha hk
      rw [Function.update_self, hrest]
      exact List.perm_append_comm_assoc ..
    · rw [Function.update_of_ne hal]
      have hmem : l ∈ xs := (List.mem_cons.1 hl).resolve_left (Ne.symm hal)
      calc queue l ++ (queue a ++ xs.flatMap (Function.update queue l ps))
          _ |>.Perm (queue a ++ (queue l ++ xs.flatMap (Function.update queue l ps))) :=
            List.perm_append_comm_assoc ..
          _ |>.Perm (queue a ++ (ps ++ xs.flatMap queue)) := (ih hmem hxs).append_left _
          _ |>.Perm (ps ++ (queue a ++ xs.flatMap queue)) := List.perm_append_comm_assoc ..

theorem roster_enlist (hL : L.Proper) (hl : l ∈ L.holders) :
    (L.roster (S.enlist p l)).Perm (p :: L.roster S) := by
  have h := flatMap_update_perm hl hL.toDistinct.holders_nodup S.queue (S.queue l ++ [p])
  rw [List.append_assoc, List.perm_append_left_iff] at h
  exact (h.cons S.active).trans (List.Perm.swap ..)

theorem roster_withQueue (hL : L.Proper) (hl : l ∈ L.holders) (hq : S.queue l = p :: ps) :
    (p :: L.roster (S.withQueue l ps)).Perm (L.roster S) := by
  have h := flatMap_update_perm hl hL.toDistinct.holders_nodup S.queue ps
  rw [hq, List.cons_append, ← List.singleton_append, ← List.append_assoc] at h
  have h := (List.perm_append_comm.append_right _).trans h
  rw [List.append_assoc, List.perm_append_left_iff] at h
  exact (List.Perm.swap ..).trans (h.cons S.active)

theorem roster_resume (hL : L.Proper) (hp : p ∈ L.processes) (hactive : S.active ∈ L.processes) :
    (L.roster (S.resume L p)).Perm (p :: L.roster S) := by
  rw [Schedule.resume]
  split
  · exact ((roster_enlist hL (hL.listOf_mem hactive)).cons_inv).cons p
  · exact roster_enlist hL (hL.listOf_mem hp)

theorem roster_yields (hL : L.Proper) (h : S.Yields L S') :
    (S.active :: L.roster S').Perm (L.roster S) := by
  obtain ⟨p, l, ps, ⟨i, hl, hq, -⟩, rfl⟩ := h
  exact (List.Perm.swap ..).trans (roster_withQueue hL (L.mem_holders_of_list hl) hq)

/-- No process is counted twice. -/
theorem Arranged.roster_nodup (h : Arranged L m S) (hL : L.Proper) : (L.roster S).Nodup := by
  refine List.nodup_cons.2 ⟨fun hmem => ?_, List.nodup_flatMap.2 ⟨h.listed.once, ?_⟩⟩
  · obtain ⟨l, hl, hmem⟩ := List.mem_flatMap.1 hmem
    exact h.unlisted l hl hmem
  · refine hL.toDistinct.holders_nodup.imp_of_mem fun {l k} hl hk hne => ?_
    exact fun p hp hp' => hne (h.listed.single hl hk hp hp')

/-! ### Runs -/

/-- What an operation may be applied to: the semaphores and processes of the layout, and a process
is let run only when it does not run and waits for nothing. -/
def Op.Allowed (L : Layout) (m : Machine) : Op → Prop
  | signal s => s ∈ L.semaphores
  | wait s => s ∈ L.semaphores
  | suspend => True
  | resume p => p ∈ L.processes ∧ ∀ S, Arranged L m S → p ≠ S.active ∧ L.Unlisted S.queue p

/-- Whether an operation stops the active process. -/
def Op.Blocks (m : Machine) : Op → Prop
  | suspend => True
  | wait s => ¬ ∃ n, m.memory.cell s ProcessList.excessSignals = some (.small n) ∧ 0 < n
  | _ => False

/-- Which processes an operation adds or takes away. -/
def Op.Balanced (L : Layout) : Op → Schedule → Schedule → Prop
  | signal _, S, S' => (L.roster S').Perm (L.roster S)
  | wait _, S, S' => (L.roster S').Perm (L.roster S)
  | resume p, S, S' => (L.roster S').Perm (p :: L.roster S)
  | suspend, S, S' => (S.active :: L.roster S').Perm (L.roster S)

/-- A step of the scheduler: it moves the schedule as it should, loses and doubles nobody, and if
the active process stops, the first process of the highest list that has one takes over. -/
structure Advances (L : Layout) (m : Machine) (op : Op) (S S' : Schedule) : Prop where
  moves : Moves L m op S S'
  balanced : op.Balanced L S S'
  foremost : op.Blocks m → ∃ l ps, Foremost L S S'.active l ps

theorem Foremost.of_enlist (hL : L.Proper) (hs : k ∈ L.semaphores)
    (h : Foremost L (S.enlist q k) p l ps) : Foremost L S p l ps := by
  obtain ⟨i, hl, hq, hempty⟩ := h
  have hne : ∀ {j : Nat} {l : Value}, L.lists[j]? = some l → l ≠ k := by
    rintro j l hj rfl
    exact hL.semaphore_not_list hs hj
  rw [Schedule.enlist, S.withQueue_of_ne _ (hne hl)] at hq
  refine ⟨i, hl, hq, fun j l' hij hj => ?_⟩
  rw [← hempty j l' hij hj, Schedule.enlist, S.withQueue_of_ne _ (hne hj)]

/-- Every operation that ends leaves the scheduler in order. -/
theorem Orderly.step {op : Op} (h : Orderly L m S) (hL : L.Proper) (allowed : op.Allowed L m)
    (hrun : op.run m = .ok u m') : ∃ S', Advances L m op S S' ∧ Orderly L m' S' := by
  cases op with
  | signal s =>
    refine ⟨S.signal L s, ⟨rfl, ?_, False.elim⟩, h.signal hL allowed hrun⟩
    have hs := L.mem_holders_of_semaphore allowed
    change (L.roster (S.signal L s)).Perm (L.roster S)
    rw [Schedule.signal]
    cases hq : S.queue s with
    | nil => exact List.Perm.refl _
    | cons p ps =>
      have hp := h.listed.process s hs p (hq ▸ List.mem_cons_self)
      exact (roster_resume (S := S.withQueue s ps) hL hp h.active).trans
        (roster_withQueue hL hs hq)
  | wait s =>
    obtain ⟨S', hmoves, horder⟩ := h.wait hL allowed hrun
    have hs := L.mem_holders_of_semaphore allowed
    refine ⟨S', ⟨hmoves, ?_, fun hblocks => ?_⟩, horder⟩
    · obtain ⟨n, -, hmoves⟩ := hmoves
      split at hmoves
      · exact hmoves ▸ List.Perm.refl _
      · exact ((roster_yields hL hmoves).trans (roster_enlist hL hs)).cons_inv
    · obtain ⟨n, hn, hmoves⟩ := hmoves
      rw [if_neg fun hpos => hblocks ⟨n, hn, hpos⟩] at hmoves
      obtain ⟨p, l, ps, hfore, rfl⟩ := hmoves
      exact ⟨l, ps, hfore.of_enlist hL allowed⟩
  | suspend =>
    have hready : ∀ l ∈ L.lists, S.active ∉ S.queue l := fun l hl =>
      h.unlisted l (List.mem_append_left _ hl)
    obtain ⟨S', hyields, horder⟩ := h.standing.yields hL hready hrun
    refine ⟨S', ⟨hyields, roster_yields hL hyields, fun _ => ?_⟩, horder⟩
    obtain ⟨p, l, ps, hfore, rfl⟩ := hyields
    exact ⟨l, ps, hfore⟩
  | resume p =>
    obtain ⟨hp, hfree⟩ := allowed
    obtain ⟨hne, hun⟩ := hfree S h.toArranged
    exact ⟨S.resume L p, ⟨rfl, roster_resume hL hp h.active, False.elim⟩,
      h.standing.resume hL hp hne hun h.unlisted h.highest hrun⟩

/-- A sequence of operations that all end. -/
inductive Run (L : Layout) : Machine → List Op → Machine → Prop
  | done {m : Machine} : Run L m [] m
  | step {m m₁ m' : Machine} {op : Op} {ops : List Op} :
      op.Allowed L m → op.run m = .ok () m₁ → Run L m₁ ops m' → Run L m (op :: ops) m'

/-- A sequence of operations that goes through schedules of orderly machines. -/
inductive History (L : Layout) : Machine → Schedule → List Op → Machine → Prop
  | done {m : Machine} {S : Schedule} : Orderly L m S → (L.roster S).Nodup → History L m S [] m
  | step {m m₁ m' : Machine} {S S₁ : Schedule} {op : Op} {ops : List Op} :
      Orderly L m S → (L.roster S).Nodup → op.run m = .ok () m₁ → Advances L m op S S₁ →
        History L m₁ S₁ ops m' → History L m S (op :: ops) m'

/-! ### A small machine -/

/-- The object in slot `i`. -/
def place (i : Nat) : Value := .ref (UInt32.ofNat i) 0

/-- The fields of nil, the special objects, the association, the scheduler, the table with its two
lists, a semaphore, three processes, two contexts and a method. The third process is linked to
`next`. -/
def stageFields (next : Value) : List (List Value) :=
  [[], [place 0, place 0, place 0, place 2], [place 0, place 3], [place 4, place 8],
    [place 5, place 6], [place 0, place 0], [place 0, place 0], [place 0, place 0, .small 0],
    [place 0, place 0, .small 1, place 0], [place 0, place 12, .small 2, place 0],
    [next, place 0, .small 1, place 0],
    [place 0, .small 5, .small 0, place 13, place 0, place 0],
    [place 0, .small 5, .small 0, place 13, place 0, place 0], [.small 0]]

/-- A machine in which the first of three processes runs and the others wait for nothing. -/
def stage (next : Value) : Machine :=
  let slots := (stageFields next).map fun fields =>
    { generation := 0, object := some (.ofPointers (place 0) .fixed fields.toArray) }
  let m := Machine.create { Memory.empty .standard with slots := slots.toArray }
    { array := place 1, nil := place 0, falseObject := place 0, trueObject := place 0 } {} default
  m.withRegisters { m.registers with context := place 11, home := place 11, method := place 13 }

/-- The second process has the higher priority. -/
def stageLayout : Layout where
  nil := place 0
  array := place 1
  association := place 2
  scheduler := place 3
  table := place 4
  lists := [place 5, place 6]
  semaphores := [place 7]
  processes := [place 8, place 9, place 10]
  priority p := if p = place 9 then 2 else 1

def stageSchedule : Schedule := { active := place 8, queue := fun _ => [] }

theorem proper_stage : stageLayout.Proper := ⟨by decide, by decide⟩

/-- The lists of the small machine are right, whatever the third process is linked to. -/
theorem arranged_stage (next : Value) : Arranged stageLayout (stage next) stageSchedule where
  nil := rfl
  array := rfl
  context := by
    change place 11 ∉ stageLayout.objects
    decide
  rooted := by
    refine ⟨rfl, rfl, rfl, fun i => ?_, fun p hp => ?_, fun p hp x hx => ?_⟩
    · rcases i with _ | _ | i <;> rfl
    · simp only [stageLayout, List.mem_cons, List.not_mem_nil, or_false] at hp
      rcases hp with rfl | rfl | rfl <;> rfl
    · simp only [stageLayout, List.mem_cons, List.not_mem_nil, or_false] at hp
      rcases hp with rfl | rfl | rfl
      · obtain rfl : place 0 = x := Option.some.inj hx
        decide
      · obtain rfl : place 12 = x := Option.some.inj hx
        decide
      · obtain rfl : place 0 = x := Option.some.inj hx
        decide
  running := rfl
  active := by decide
  level i l _ p hp := absurd hp List.not_mem_nil
  listed := by
    refine ⟨fun l hl => ?_, fun l _ => List.nodup_nil, fun l _ p hp => absurd hp List.not_mem_nil,
      fun l _ p hp => absurd hp List.not_mem_nil⟩
    simp only [Layout.holders, stageLayout, List.mem_append, List.mem_cons, List.not_mem_nil,
      or_false] at hl
    rcases hl with (rfl | rfl) | rfl <;> exact ⟨rfl, rfl, trivial⟩
  unlisted l _ := List.not_mem_nil
  highest l _ p hp := absurd hp List.not_mem_nil

theorem Arranged.queue_eq_nil (h : Arranged L m S) (hL : L.Proper) (hl : l ∈ L.holders)
    (hfirst : m.memory.cell l ProcessList.first = some L.nil) : S.queue l = [] := by
  have hhead := (h.listed.holds l hl).first.symm.trans hfirst
  cases hq : S.queue l with
  | nil => rfl
  | cons p ps =>
    rw [hq] at hhead
    obtain rfl : p = L.nil := Option.some.inj hhead
    exact absurd rfl (hL.toDistinct.nil_ne_process (h.listed.process l hl _ (hq ▸ List.mem_cons_self)))

/-- In the small machine, any process but the first may be let run. -/
theorem allowed_stage (next : Value) (hp : p ∈ [place 9, place 10]) :
    (Op.resume p).Allowed stageLayout (stage next) := by
  refine ⟨List.mem_cons_of_mem _ hp, fun S h => ⟨?_, fun l hl => ?_⟩⟩
  · have hactive : place 8 = S.active := Option.some.inj h.running
    rw [← hactive]
    rintro rfl
    exact absurd hp (by decide)
  · have hempty : S.queue l = [] := by
      refine h.queue_eq_nil proper_stage hl ?_
      simp only [Layout.holders, stageLayout, List.mem_append, List.mem_cons, List.not_mem_nil,
        or_false] at hl
      rcases hl with (rfl | rfl) | rfl <;> rfl
    rw [hempty]
    exact List.not_mem_nil

theorem orderly_stage : Orderly stageLayout (stage (place 0)) stageSchedule where
  toArranged := arranged_stage (place 0)
  loose p hp _ := by
    simp only [stageLayout, List.mem_cons, List.not_mem_nil, or_false] at hp
    rcases hp with rfl | rfl | rfl <;> rfl

/-! ### The scheduler stays in order -/

/-- Whatever is done to an orderly scheduler, it stays in order at every step. -/
theorem run_keeps_order {ops : List Op} (hrun : Run L m ops m') (hL : L.Proper)
    (h : Orderly L m S) : History L m S ops m' := by
  induction hrun generalizing S with
  | done => exact .done h (h.roster_nodup hL)
  | step allowed hstep _ ih =>
    obtain ⟨S₁, hadvances, horder⟩ := h.step hL allowed hstep
    exact .step h (h.roster_nodup hL) hstep hadvances (ih horder)

/-- The second process takes over from the first and gives way again by waiting. -/
theorem run_keeps_order_stage : stageLayout.Proper ∧
    Orderly stageLayout (stage (place 0)) stageSchedule ∧
    ∃ m', Run stageLayout (stage (place 0)) [.resume (place 9), .wait (place 7)] m' ∧
      History stageLayout (stage (place 0)) stageSchedule [.resume (place 9), .wait (place 7)] m' := by
  refine ⟨proper_stage, orderly_stage, ?_⟩
  have hleads : leads (do Action.resume (place 9); Action.wait (place 7)) (stage (place 0))
      (fun _ _ => true) = true := by decide +kernel
  obtain ⟨_, m', hrun, -⟩ := exists_of_leads hleads
  obtain ⟨_, m₁, hresume, hwait⟩ := bind_ok.1 hrun
  have run : Run stageLayout (stage (place 0)) [.resume (place 9), .wait (place 7)] m' :=
    .step (allowed_stage _ (by decide)) hresume (.step (List.mem_singleton_self _) hwait .done)
  exact ⟨m', run, run_keeps_order run proper_stage orderly_stage⟩

/-- A list is not in order when its only process is still linked to another one. -/
theorem not_arranged_of_link (hl : l ∈ L.holders) (hfirst : m.memory.cell l ProcessList.first = some p)
    (hlast : m.memory.cell l ProcessList.last = some p)
    (hnext : m.memory.cell p Process.next = some q) (hp : p ≠ L.nil) (hq : q ≠ L.nil) :
    ¬ Arranged L m S := by
  intro h
  have hholds := h.listed.holds l hl
  have honce := h.listed.once l hl
  cases hqueue : S.queue l with
  | nil =>
    rw [hqueue] at hholds
    exact hp (Option.some.inj (hfirst.symm.trans hholds.first))
  | cons r ps =>
    rw [hqueue] at hholds honce
    obtain rfl : p = r := Option.some.inj (hfirst.symm.trans hholds.first)
    cases ps with
    | nil => exact hq (Option.some.inj (hnext.symm.trans hholds.linked.1))
    | cons r ps =>
      have hend := Option.some.inj (hlast.symm.trans hholds.last)
      rw [List.getLast?_cons_cons, List.getLast?_eq_some_getLast (List.cons_ne_nil r ps),
        Option.getD_some] at hend
      exact (List.nodup_cons.1 honce).1 (hend ▸ List.getLast_mem (List.cons_ne_nil r ps))

/-- Lists that are right do not stay right when a process outside them has kept a link: put into a
list, it brings along what it is linked to. -/
theorem stale_link_breaks_list : ¬ ∀ (L : Layout) (m m' : Machine) (S : Schedule) (ops : List Op),
    L.Proper → Arranged L m S → Run L m ops m' → ∃ S', Arranged L m' S' := by
  intro hall
  have hleads : leads (Action.resume (place 10)) (stage (place 9)) (fun _ m =>
      m.memory.cell (place 5) ProcessList.first = some (place 10) ∧
      m.memory.cell (place 5) ProcessList.last = some (place 10) ∧
      m.memory.cell (place 10) Process.next = some (place 9)) = true := by decide +kernel
  obtain ⟨_, m', hrun, htest⟩ := exists_of_leads hleads
  obtain ⟨hfirst, hlast, hnext⟩ := of_decide_eq_true htest
  have run : Run stageLayout (stage (place 9)) [.resume (place 10)] m' :=
    .step (allowed_stage _ (by decide)) hrun .done
  obtain ⟨S', h⟩ := hall stageLayout _ m' stageSchedule _ proper_stage (arranged_stage _) run
  exact not_arranged_of_link (by decide) hfirst hlast hnext (by decide) (by decide) h

end Smalltalk.Scheduling
