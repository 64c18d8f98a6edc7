import Smalltalk.Memory.Basic

/-!
# Special objects

The machine knows some objects by their place in the special objects array. The array itself is
authoritative; nil, false and true are read from it once and kept.
-/

namespace Smalltalk

namespace Special

def nilObject : Nat := 0
def falseObject : Nat := 1
def trueObject : Nat := 2
def schedulerAssociation : Nat := 3
def classSmallInteger : Nat := 5
def classString : Nat := 6
def classArray : Nat := 7
def classFloat : Nat := 9
def classMethodContext : Nat := 10
def classBlockContext : Nat := 11
def classPoint : Nat := 12
def classLargePositiveInteger : Nat := 13
def theDisplay : Nat := 14
def classMessage : Nat := 15
def classCompiledMethod : Nat := 16
def lowSpaceSemaphore : Nat := 17
def classSemaphore : Nat := 18
def classCharacter : Nat := 19
def doesNotUnderstand : Nat := 20
def specialSelectors : Nat := 23
def characterTable : Nat := 24
def mustBeBoolean : Nat := 25
def classProcess : Nat := 27
def compactClasses : Nat := 28
def timerSemaphore : Nat := 29
def interruptSemaphore : Nat := 30

end Special

/-- The special objects array and the three objects read from it. -/
structure SpecialObjects where
  /-- The array. -/
  array : Value
  /-- Entry 0. -/
  nil : Value
  /-- Entry 1. -/
  falseObject : Value
  /-- Entry 2. -/
  trueObject : Value
  deriving DecidableEq, Inhabited, Repr

namespace SpecialObjects

/-- Reads nil, false and true from an array. -/
def load (m : Memory) (array : Value) : Except Fault SpecialObjects := do
  let nil ← m.field .specialObjects array Special.nilObject
  let falseObject ← m.field .specialObjects array Special.falseObject
  let trueObject ← m.field .specialObjects array Special.trueObject
  return { array, nil, falseObject, trueObject }

/-- Entry `index` of the array, or nil when the array has none. -/
def get (s : SpecialObjects) (m : Memory) (index : Nat) : Value :=
  ((m.get? s.array).bind fun o => o.pointers[index]?).getD s.nil

/-- The object for a truth value. -/
def truth (s : SpecialObjects) (b : Bool) : Value := if b then s.trueObject else s.falseObject

end SpecialObjects

end Smalltalk
