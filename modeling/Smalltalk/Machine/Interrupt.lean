import Smalltalk.Machine.Scheduler

/-!
# Interrupts

Every activation and every backward jump counts a counter down. When it runs out the clock is looked
at, the counter is set anew so that looks are about one check interval apart, and the semaphores that
are due are signalled.
-/

namespace Smalltalk

/-- When to signal the timer after a look at the clock at time `now`: if the clock has started over,
so does the wait. -/
def Interrupts.wakeupAfter (i : Interrupts) (now : Int) : Except Fault Int := do
  if now < i.lastTick ∧ i.nextWakeup ≠ 0 then
    let wait ← Width.integer64.check (i.nextWakeup - i.lastTick)
    Width.integer64.check (now + wait)
  else
    return i.nextWakeup

/-- What the counter starts from after a look at the clock at time `now`. -/
def Interrupts.resetAfter (i : Interrupts) (settings : MachineSettings) (now : Int) :
    Except Fault Int := do
  let passed ← Width.integer64.check (now - i.lastTick)
  if passed < settings.checkInterval then
    Width.integer64.check (i.feedbackReset + 10)
  else if i.feedbackReset ≤ settings.minCounter then
    return settings.minCounter
  else
    Width.integer64.check (i.feedbackReset - 12)

/-- What a look at the clock at time `now` does to the counters. -/
def Interrupts.sample (i : Interrupts) (settings : MachineSettings) (now : Int) :
    Except Fault Interrupts := do
  let nextWakeup ← i.wakeupAfter now
  let feedbackReset ← i.resetAfter settings now
  return { i with nextWakeup, feedbackReset, counter := feedbackReset, lastTick := now }

/-- Arms the interrupt semaphore and makes the next check look at the clock. -/
def Machine.requestInterrupt (m : Machine) : Machine :=
  { m with interrupts := { m.interrupts with pending := true, counter := 0 } }

namespace Action

/-- Signals a special semaphore, if there is one. -/
def signalSpecial (index : Nat) : Action Unit := do
  let semaphore ← special index
  if semaphore ≠ (← nil) then
    signal semaphore

/-- Applies a function to the interrupt counters. -/
def modifyInterrupts (f : Interrupts → Interrupts) : Action Unit :=
  modify fun m => { m with interrupts := f m.interrupts }

/-- Counts down, and when it is time looks at the clock and signals what is due. -/
def checkInterrupts : Action Unit := do
  let before := (← get).interrupts
  if 0 < before.counter then
    modifyInterrupts fun i => { i with counter := i.counter - 1 }
    return
  let now := (← get).clock.milliseconds
  let sampled ← ofExcept (before.sample (← get).settings now)
  modifyInterrupts fun _ => sampled
  if before.signalLowSpace then
    modifyInterrupts fun i => { i with signalLowSpace := false }
    signalSpecial Special.lowSpaceSemaphore
  if (← get).interrupts.pending then
    modifyInterrupts fun i => { i with pending := false }
    signalSpecial Special.interruptSemaphore
  let wakeup := (← get).interrupts.nextWakeup
  if wakeup ≠ 0 ∧ wakeup ≤ now then
    modifyInterrupts fun i => { i with nextWakeup := 0 }
    signalSpecial Special.timerSemaphore

end Action

end Smalltalk
