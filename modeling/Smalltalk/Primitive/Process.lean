import Smalltalk.Machine.Scheduler
import Smalltalk.Primitive.Basic

/-!
# Process primitives

Semaphores and processes, and the semaphores that the machine signals by itself.
-/

namespace Smalltalk.Primitive

open Attempt

/-- The receiver on top of the stack, if it is of the class with that special index. -/
def receiverOf (special : Nat) : Attempt Value := do
  let receiver ← Action.top
  require (← Action.isInstanceOf receiver special)
  return receiver

/-- Makes a value a special object, or nil if it is no semaphore. -/
def registerSemaphore (index : Nat) (v : Value) : Attempt Unit := do
  let isSemaphore ← Action.isInstanceOf v Special.classSemaphore
  let nil ← Action.nil
  Action.store (← get).specials.array index (if isSemaphore then v else nil)

/-- Signals the receiver. -/
def signal : PrimitiveAction := fun _ => do
  Action.signal (← receiverOf Special.classSemaphore)
  return .done

/-- Waits for the receiver, which is also the answer. -/
def wait : PrimitiveAction := fun _ => do
  Action.wait (← receiverOf Special.classSemaphore)
  return .done

/-- Resumes the receiver, which must not be running. -/
def resume : PrimitiveAction := fun _ => do
  let process ← receiverOf Special.classProcess
  require (process ≠ (← Action.activeProcess))
  Action.resume process
  return .done

/-- Suspends the active process, which answers nil when it is resumed. -/
def suspend : PrimitiveAction := fun _ => do
  let process ← Action.top
  require (process = (← Action.activeProcess))
  Action.popThenPush 1 (← Action.nil)
  Action.suspendActive
  return .done

/-- Sets the low space semaphore. -/
def lowSpaceSemaphore : PrimitiveAction := fun _ => do
  registerSemaphore Special.lowSpaceSemaphore (← stackValue 0)
  answer 1 (← stackValue 1)

/-- Sets the space below which the low space semaphore is signalled. -/
def lowSpaceThreshold : PrimitiveAction := fun _ => do
  let threshold ← stackInteger 0
  modify fun m => { m with lowSpaceThreshold := threshold }
  answer 1 (← stackValue 1)

/-- Sets the interrupt semaphore. -/
def interruptSemaphore : PrimitiveAction := fun _ => do
  registerSemaphore Special.interruptSemaphore (← stackValue 0)
  answer 1 (← stackValue 1)

/-- Arms the timer semaphore for a time; anything but a semaphore disarms it. -/
def signalAtMilliseconds : PrimitiveAction := fun _ => do
  let semaphore ← stackValue 1
  let tick ← stackInteger 0
  registerSemaphore Special.timerSemaphore semaphore
  let isSemaphore ← Action.isInstanceOf semaphore Special.classSemaphore
  let nextWakeup := if isSemaphore then tick else 0
  modify fun m => { m with interrupts := { m.interrupts with nextWakeup } }
  answer 2 (← stackValue 2)

end Smalltalk.Primitive
