import Smalltalk.Machine.Basic

/-!
# Processes

The scheduler has one list of waiting processes for each priority and knows the active process. A
semaphore is a list of processes that wait for it, with a count of signals nobody waited for. Lists
are linked through the processes. A process runs until it waits, is suspended, or a process of
higher priority becomes ready.
-/

namespace Smalltalk

namespace Scheduler

/-- The lists by priority. -/
def processLists : Nat := 0

/-- The active process. -/
def activeProcess : Nat := 1

end Scheduler

namespace ProcessList

/-- The first process of a list. -/
def first : Nat := 0

/-- The last process of a list. -/
def last : Nat := 1

/-- The count of a semaphore. -/
def excessSignals : Nat := 2

end ProcessList

namespace Process

/-- The process behind this one in its list. -/
def next : Nat := 0

/-- The context the process will go on with. -/
def suspendedContext : Nat := 1

/-- The priority, counting from one. -/
def priority : Nat := 2

/-- The list the process is in. -/
def myList : Nat := 3

end Process

namespace Action

/-- The scheduler object. -/
def scheduler : Action Value := do
  fetch (← special Special.schedulerAssociation) Association.value

/-- The process that is running. -/
def activeProcess : Action Value := do fetch (← scheduler) Scheduler.activeProcess

/-- The priority of a process. -/
def priority (process : Value) : Action Int := fetchInt process Process.priority

/-- Whether a list has no processes. -/
def isEmptyList (list : Value) : Action Bool := do
  return (← fetch list ProcessList.first) == (← nil)

/-- Puts a process at the end of a list. -/
def linkLast (process list : Value) : Action Unit := do
  if ← isEmptyList list then
    store list ProcessList.first process
  else
    store (← fetch list ProcessList.last) Process.next process
  store list ProcessList.last process
  store process Process.myList list

/-- Takes the first process off a list. -/
def unlinkFirst (list : Value) : Action Value := do
  let nil ← nil
  let first ← fetch list ProcessList.first
  let last ← fetch list ProcessList.last
  if first = last then
    store list ProcessList.first nil
    store list ProcessList.last nil
  else
    store list ProcessList.first (← fetch first Process.next)
  store first Process.next nil
  return first

/-- Puts a process at the end of the list for its priority. -/
def makeReady (process : Value) : Action Unit := do
  let lists ← fetch (← scheduler) Scheduler.processLists
  let priority ← priority process
  if priority < 1 then
    throw (.malformed .processPriority process)
  linkLast process (← fetch lists (priority - 1).toNat)

/-- Makes a process the active one. The process that was active keeps its context. -/
def transferTo (process : Value) : Action Unit := do
  let scheduler ← scheduler
  let old ← fetch scheduler Scheduler.activeProcess
  store scheduler Scheduler.activeProcess process
  store old Process.suspendedContext (← registers).context
  activate (← fetch process Process.suspendedContext)
  store process Process.suspendedContext (← nil)
  modify fun m => { m with reclaimable := 0 }
  modifyCounters fun c => { c with processSwitches := c.processSwitches + 1 }

/-- Takes the first process off the first list that has one, counting down from list `count`. -/
def unlinkHighest (lists : Value) : Nat → Action Value
  | 0 => throw .noRunnableProcess
  | count + 1 => do
    let list ← fetch lists count
    if ← isEmptyList list then unlinkHighest lists count else unlinkFirst list

/-- Takes the first process of the highest priority off its list. -/
def pickTop : Action Value := do
  let lists ← fetch (← scheduler) Scheduler.processLists
  unlinkHighest lists (← object lists).pointers.size

/-- Lets a process run: at once if it has a higher priority than the active one, else later. -/
def resume (process : Value) : Action Unit := do
  let active ← activeProcess
  let wanted ← priority process
  let current ← priority active
  if current < wanted then
    makeReady active
    transferTo process
  else
    makeReady process

/-- Signals a semaphore: the first process that waits for it is resumed. -/
def signal (semaphore : Value) : Action Unit := do
  if ← isEmptyList semaphore then
    let excess ← fetchInt semaphore ProcessList.excessSignals
    store semaphore ProcessList.excessSignals (← immediate (excess + 1))
  else
    resume (← unlinkFirst semaphore)

/-- Lets the active process wait for a semaphore. -/
def wait (semaphore : Value) : Action Unit := do
  let excess ← fetchInt semaphore ProcessList.excessSignals
  if 0 < excess then
    store semaphore ProcessList.excessSignals (.small (excess - 1))
  else
    linkLast (← activeProcess) semaphore
    transferTo (← pickTop)

/-- Stops the active process. -/
def suspendActive : Action Unit := do transferTo (← pickTop)

end Action

end Smalltalk
