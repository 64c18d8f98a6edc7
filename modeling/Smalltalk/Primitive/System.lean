import Smalltalk.Primitive.Basic
import Smalltalk.Text.Path

/-!
# System primitives

Space, clocks, names, and giving up the processor.
-/

namespace Smalltalk.Primitive

open Attempt

/-- The path name of the working directory. -/
def workingDirectory : Attempt String := do
  return (← get).devices.files.workingName

/-- The space left, as an answer. -/
def spaceLeft : Attempt Value := do
  return .small (max (← Action.ofExcept (← get).memory.spaceLeft) 0)

/-- Answers the space left. -/
def bytesLeft : PrimitiveAction := fun _ => do
  answer 0 (← spaceLeft)

/-- Stops the machine. -/
def quit : PrimitiveAction := fun _ => do
  modify fun m => { m with quitting := true }
  return .done

/-- The name of the image file. It cannot be changed. -/
def imageName : PrimitiveAction := fun argCount => do
  require (argCount = 0)
  let path ← ofOption (← get).imagePath
  answer 0 (← Action.makeString (Text.absolutePath (← workingDirectory) path))

/-- Reclaims young objects `count` times. -/
def reclaimYoungTimes : Nat → Action Unit
  | 0 => return
  | count + 1 => do
    let _ ← Action.reclaim .young
    reclaimYoungTimes count

/-- Reclaims all that can be reclaimed. -/
def fullCollection : PrimitiveAction := fun _ => do
  modify fun m => { m with pool := m.pool.clear }
  reclaimYoungTimes 5
  let _ ← Action.reclaim .full
  answer 0 (← spaceLeft)

/-- Reclaims young objects. -/
def incrementalCollection : PrimitiveAction := fun _ => do
  let _ ← Action.reclaim .young
  answer 0 (← spaceLeft)

/-- The millisecond clock. -/
def millisecondClock : PrimitiveAction := fun _ => do
  answer 0 (.small (← get).clock.milliseconds)

/-- The seconds clock. -/
def secondsClock : PrimitiveAction := fun _ => do
  answer 0 (← newPositive32 (← get).clock.seconds)

/-- The directory the machine was started from. -/
def vmPath : PrimitiveAction := fun _ => do
  answer 0 (← Action.makeString ((← workingDirectory) ++ "/"))

/-- No system attributes are defined. -/
def systemAttribute : PrimitiveAction := fun _ => do
  answer 1 (← Action.nil)

/-- Waits for an event, for some time that an argument may give. -/
def relinquish : PrimitiveAction := fun argCount => do
  match argCount with
  | 0 => pure ()
  | 1 =>
    let _ ← stackInteger 0
    let _ ← Action.pop
  | _ => decline
  modify fun m => { m with devices := m.devices.takeEvent.2 }
  return .done

end Smalltalk.Primitive
