import Smalltalk.Memory.Basic

/-!
# Become

Objects exchange or forward their identities by one simultaneous renaming of every class field,
pointer field and pin. The lists are checked before anything is changed.
-/

namespace Smalltalk

/-- Why a renaming was refused. -/
inductive BecomeRefusal where
  | lengthMismatch
  | notAnObject
  | duplicate
  deriving DecidableEq, Inhabited, Repr

/-- A finite renaming of values, as pairs of an old and a new value. -/
abbrev Renaming := List (Value × Value)

namespace Renaming

/-- The new value of `v`, or `v` itself when it is not renamed. -/
def apply (r : Renaming) (v : Value) : Value := (r.lookup v).getD v

/-- Adds the pairs of a list; an old value has to be a reference that is not renamed yet. -/
def extend (r : Renaming) : List (Value × Value) → Except BecomeRefusal Renaming
  | [] => .ok r
  | (old, new) :: rest =>
    if !old.isReference then .error .notAnObject
    else if (r.lookup old).isSome then .error .duplicate
    else extend ((old, new) :: r) rest

/-- The renaming of each entry of `source` to its partner in `target`, and back if `twoWay`. -/
def ofLists (source target : List Value) (twoWay : Bool) : Except BecomeRefusal Renaming :=
  if source.length ≠ target.length then
    .error .lengthMismatch
  else do
    let forward ← extend [] (source.zip target)
    if twoWay then extend forward (target.zip source) else pure forward

/-- Renames the class and the pointer fields of an object. -/
def applyObject (r : Renaming) (o : Object) : Object :=
  { o with cls := r.apply o.cls, pointers := o.pointers.map r.apply }

end Renaming

/-- Renames every field and every pin of the memory. -/
def Memory.rename (m : Memory) (r : Renaming) : Memory :=
  { m with
    slots := m.slots.map fun slot => { slot with object := slot.object.map r.applyObject }
    pins := m.pins.map r.apply }

/-- Makes every entry of `source` its partner in `target`, and back if `twoWay`. -/
def Memory.become (m : Memory) (source target : List Value) (twoWay : Bool) :
    Except BecomeRefusal (Renaming × Memory) := do
  let r ← Renaming.ofLists source target twoWay
  return (r, m.rename r)

end Smalltalk
