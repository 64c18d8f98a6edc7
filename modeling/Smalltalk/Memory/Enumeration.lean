import Smalltalk.Memory.Basic

/-!
# Enumeration

Walking over the objects in table order. A query remembers the position it ended at, so that
asking for the successor of its answer finds the place at once.
-/

namespace Smalltalk.Memory

/-- The table position of a value, and the memory that remembers it. -/
def indexOf (m : Memory) (v : Value) : Option Nat × Memory :=
  if m.table[m.hint]? = some v then
    (some m.hint, m)
  else
    match m.table.findIdx? (· == v) with
    | some i => (some i, { m with hint := i })
    | none => (none, m)

/-- Whether the table entry `v` is a live object, of the class `cls` if one is given. -/
def isWanted (m : Memory) (cls : Option Value) (v : Value) : Bool :=
  match m.get? v, cls with
  | none, _ => false
  | some _, none => true
  | some o, some c => o.cls == c

/-- The position of the first wanted entry at or after `start`, searching `count` entries. -/
def findFrom (m : Memory) (cls : Option Value) : Nat → Nat → Option (Nat × Value)
  | _, 0 => none
  | start, count + 1 =>
    match m.table[start]? with
    | none => none
    | some v => if m.isWanted cls v then some (start, v) else m.findFrom cls (start + 1) count

/-- The first object at or after table position `start`, of the class `cls` if one is given. -/
def enumerate (m : Memory) (start : Nat) (cls : Option Value) : Option Value × Memory :=
  match m.findFrom cls start (m.table.size - start) with
  | some (i, v) => (some v, { m with hint := i })
  | none => (none, m)

/-- The first instance of a class. -/
def firstInstance (m : Memory) (cls : Value) : Option Value × Memory := m.enumerate 0 (some cls)

/-- The instance of the same class that follows an object. -/
def nextInstance (m : Memory) (after : Value) : Option Value × Memory :=
  match m.get? after with
  | none => (none, m)
  | some o =>
    match m.indexOf after with
    | (some i, m) => m.enumerate (i + 1) (some o.cls)
    | (none, m) => (none, m)

/-- The first object of all. -/
def firstObject (m : Memory) : Option Value × Memory := m.enumerate 0 none

/-- The object that follows another. -/
def nextObject (m : Memory) (after : Value) : Option Value × Memory :=
  match m.indexOf after with
  | (some i, m) => m.enumerate (i + 1) none
  | (none, m) => (none, m)

end Smalltalk.Memory
