import Smalltalk.Memory.Basic

/-!
# Reclamation

Objects that cannot be reached from the roots are freed. A young reclamation leaves the old
objects alone and counts them as roots. Marking keeps a list of values still to be visited; each
visit takes one off the list or marks one more slot, so it ends. Sweeping keeps the order of the
survivors in the table and frees the others in table order.
-/

namespace Smalltalk

/-- Which objects a reclamation may free. -/
inductive Scope where
  /-- Those registered since the old boundary was last drawn. -/
  | young
  /-- All. -/
  | full
  deriving DecidableEq, Inhabited, Repr

namespace Memory

/-- The mark of the slot a value points at. -/
def markOf (marks : Array Bool) : Value → Bool
  | .small _ => false
  | .ref index _ => (marks[index.toNat]?).getD false

theorem count_setMark_lt {marks : Array Bool} {i : Nat} (h : marks[i]? = some false) :
    (marks.setIfInBounds i true).count false < marks.count false := by
  obtain ⟨hi, hv⟩ := Array.getElem?_eq_some_iff.1 h
  have hpos : 0 < marks.count false := Array.count_pos_iff.2 (hv ▸ Array.getElem_mem hi)
  rw [Array.setIfInBounds, dif_pos hi, Array.count_set, hv]
  have same : (if (false == false) = true then 1 else 0) = 1 := rfl
  have other : (if (true == false) = true then 1 else 0) = 0 := rfl
  rw [same, other]
  omega

/-- Marks the slots of all objects that can be reached from the values still to be visited. -/
def mark (m : Memory) (marks : Array Bool) (work : List Value) : Array Bool :=
  match work with
  | [] => marks
  | .small _ :: work => m.mark marks work
  | .ref index generation :: work =>
    match m.get? (.ref index generation) with
    | none => m.mark marks work
    | some o =>
      if marks[index.toNat]? = some false then
        m.mark (marks.setIfInBounds index.toNat true) (o.references ++ work)
      else
        m.mark marks work
termination_by (marks.count false, work.length)
decreasing_by
  · exact Prod.Lex.right _ (Nat.lt_succ_self _)
  · exact Prod.Lex.right _ (Nat.lt_succ_self _)
  · exact Prod.Lex.left _ _ (count_setMark_lt (by assumption))
  · exact Prod.Lex.right _ (Nat.lt_succ_self _)

/-- The marks of everything reachable from `roots`. -/
def reach (m : Memory) (roots : List Value) : Array Bool :=
  m.mark (Array.replicate m.slots.size false) roots

/-- Vacates the slot of a table entry, unless the entry is stale. The slot starts its next
generation and is the first to be used again. -/
def vacate (m : Memory) : Value → Memory
  | .small _ => m
  | .ref index generation =>
    match m.slots[index.toNat]? with
    | some slot =>
      if slot.generation.toNat = generation.toNat ∧ slot.object.isSome then
        { m with
          slots := m.slots.setIfInBounds index.toNat
            { generation := slot.generation + 1, object := none }
          free := index :: m.free
          reclaimed := m.reclaimed + 1 }
      else
        m
    | none => m

/-- The part of the table that a reclamation does not sweep. -/
def sweepStart (m : Memory) : Scope → Nat
  | .young => min m.oldBoundary m.table.size
  | .full => 0

/-- Drops the unmarked entries from `start` on out of the table and vacates their slots. -/
def sweep (m : Memory) (marks : Array Bool) (start : Nat) : Memory :=
  let swept := m.table.toList.drop start
  let survivors := swept.filter (markOf marks)
  let m := { m with table := (m.table.take start) ++ survivors.toArray }
  (swept.filter fun v => !markOf marks v).foldl vacate m

/-- Frees every object in `scope` that cannot be reached from the roots and the pins, and says how
many there were. A full reclamation draws the old boundary after the last old survivor. -/
def reclaim (m : Memory) (roots : List Value) (scope : Scope) : Nat × Memory :=
  let start := m.sweepStart scope
  let marks := m.reach (roots ++ m.pins.toList ++ m.table.toList.take start)
  let oldSurvivors := ((m.table.toList.take m.oldBoundary).filter (markOf marks)).length
  let before := m.reclaimed
  let m := m.sweep marks start
  let m := { m with
    oldBoundary := if scope = .full then oldSurvivors else m.oldBoundary
    hint := 0
    reclamations := m.reclamations + 1 }
  (m.reclaimed - before, m)

end Memory

end Smalltalk
