import Smalltalk.Bytecode.Instruction
import Smalltalk.Machine.Send

/-!
# Execution

One step fetches an instruction and carries it out. Arithmetic on immediate integers, indexed access
that the at-cache knows, and entering a block are done without a send where the operands allow it.
A comparison that is followed by a conditional jump does both in one step.
-/

namespace Smalltalk.Action

/-- The byte of the active method at the program counter. -/
def peekByte : Action (Option UInt8) := do
  let r ← registers
  return ((← object? r.method).bind Object.bytes?).bind (·[r.pc]?)

/-- Moves the program counter past one byte. -/
def skipByte : Action Unit := modifyRegisters fun r => { r with pc := r.pc + 1 }

/-- Counts a bytecode. -/
def countBytecode : Action Unit := modifyCounters fun c => { c with bytecodes := c.bytecodes + 1 }

/-- Fetches the byte at the program counter. -/
def nextByte : Action UInt8 := do
  let method := (← registers).method
  let _ ← object method
  match ← peekByte with
  | none => throw (.malformed .instructionStream method)
  | some byte =>
    skipByte
    return byte

/-- A literal of the active method, counting from zero. -/
def literal (index : Nat) : Action Value := do fetch (← registers).method (index + 1)

/-- The value at a place. -/
def readVariable : Variable → Action Value
  | .field index => do fetch (← registers).receiver index
  | .temporary index => do fetch (← registers).home (Context.frameStart + index)
  | .literal index => literal index
  | .global index => do fetch (← literal index) Association.value

/-- Stores a value at a place; a literal itself cannot be changed. -/
def writeVariable (x : Value) : Variable → Action Unit
  | .field index => do store (← registers).receiver index x
  | .temporary index => do store (← registers).home (Context.frameStart + index) x
  | .literal _ => do throw (.malformed .literalStore (← registers).method)
  | .global index => do store (← literal index) Association.value x

/-- The value of a constant. -/
def constantValue : Constant → Action Value
  | .receiver => return (← registers).receiver
  | .true => truth true
  | .false => truth false
  | .nil => nil
  | .integer n => return .small n

/-! ### Jumps -/

/-- Moves the program counter by an offset. -/
def jump (offset : Int) : Action Unit := do
  let r ← registers
  let target := (r.pc : Int) + offset
  if target < 0 then
    throw (.malformed .jumpTarget r.method)
  modifyRegisters fun r => { r with pc := target.toNat }

/-- Takes a truth value off the stack and jumps if it is `condition`. Any other value stays and is
sent `mustBeBoolean`. -/
def jumpIf (condition : Bool) (offset : Int) : Action Unit := do
  let x ← pop
  if x = (← truth condition) then
    jump offset
  else if x = (← truth !condition) then
    return
  else
    push x
    send (← special Special.mustBeBoolean) 0

/-- Replaces the two operands of a comparison by its result. A conditional jump that follows takes
the result at once. -/
def answerComparison (result : Bool) : Action Unit := do
  popN 2
  match ← peekByte with
  | none => push (← truth result)
  | some next =>
    if 152 ≤ next ∧ next ≤ 159 then
      skipByte
      countBytecode
      if !result then
        jump (next.toNat - 152 + 1 : Nat)
    else if 168 ≤ next ∧ next ≤ 175 then
      skipByte
      countBytecode
      let low ← nextByte
      if result = decide (next < 172) then
        jump (next.toNat % 4 * 256 + low.toNat : Nat)
    else
      push (← truth result)

/-! ### Special selectors -/

/-- Sends a special selector with the number of arguments that stands beside it. -/
def sendSpecial (index : Nat) : Action Unit := do
  let selector ← specialSelector (index * 2)
  let argCount ← fetchInt (← special Special.specialSelectors) (index * 2 + 1)
  if argCount < 0 then
    throw (.malformed .selectorArity selector)
  send selector argCount.toNat

/-- The result of an arithmetic selector on two integers, if it is an integer. -/
def arithmeticResult (index : Nat) (a b : Int) : Option Int :=
  match index with
  | 0 => some (a + b)
  | 1 => some (a - b)
  | 8 => some (a * b)
  | 9 => Arithmetic.exactDiv? a b
  | 10 => Arithmetic.floorMod? a b
  | 12 => Arithmetic.shift? a b
  | 13 => Arithmetic.floorDiv? a b
  | 14 => some (Arithmetic.bitAnd a b)
  | 15 => some (Arithmetic.bitOr a b)
  | _ => none

/-- The result of a comparison selector on two integers; the other selectors compare nothing. -/
def comparisonResult (index : Nat) (a b : Int) : Option Bool :=
  match index with
  | 2 => some (a < b)
  | 3 => some (a > b)
  | 4 => some (a ≤ b)
  | 5 => some (a ≥ b)
  | 6 => some (a = b)
  | 7 => some (a ≠ b)
  | _ => none

/-- Carries out `+ - < > <= >= = ~= * / \\ @ bitShift: // bitAnd: bitOr:` on two integers, or sends
the selector. -/
def arithmetic (index : Nat) : Action Unit := do
  match ← stackValue 1, ← stackValue 0 with
  | .small a, .small b =>
    match comparisonResult index a b with
    | some result => answerComparison result
    | none =>
      if index = 11 then
        let point ← makePoint (.small a) (.small b)
        popThenPush 2 point
      else
        match (arithmeticResult index a b).bind Value.ofInt? with
        | some v => popThenPush 2 v
        | none => sendSpecial index
  | _, _ => sendSpecial index

/-- Carries out an attempt whose answer replaces `count` entries of the stack. Answers whether it
was not declined. -/
def quickly (count : Nat) (x : Attempt Value) : Action Bool := do
  match ← x.run? with
  | none => return false
  | some v =>
    popThenPush count v
    return true

/-- The size of the object on the stack, if it is indexed. -/
def quickSize : Action Bool := do
  match ← indexableSize (← top) with
  | none => return false
  | some size =>
    if size < 0x100000000 then
      let size ← positive32 size
      popThenPush 1 size
      return true
    else
      return false

/-- Carries out one of `at: at:put: size next nextPut: atEnd == class blockCopy: value value: do:
new new: x y` without a send, if it can. -/
def quickSpecial (index : Nat) : Action Bool := do
  match index with
  | 0 => quickly 2 (Attempt.indexedAt true Primitive.characterMode)
  | 1 => quickly 3 (Attempt.indexedAtPut true Primitive.characterMode)
  | 2 => quickSize
  | 6 =>
    let a ← stackValue 1
    let b ← stackValue 0
    popThenPush 2 (← truth (a == b))
    return true
  | 7 =>
    let cls ← classOf (← top)
    popThenPush 1 cls
    return true
  | 8 => quickly 2 Attempt.blockCopy
  | 9 => return (← (Attempt.blockValue 0).run?).isSome
  | 10 => return (← (Attempt.blockValue 1).run?).isSome
  | _ => return false

/-! ### Steps -/

/-- Carries out an instruction. -/
def execute : Instruction → Action Unit
  | .push v => do push (← readVariable v)
  | .pushConstant c => do push (← constantValue c)
  | .pushContext => do
    -- the context escapes, so it must not be used again
    modify fun m => { m with reclaimable := 0 }
    push (← registers).context
  | .store v => do writeVariable (← top) v
  | .popInto v => do writeVariable (← pop) v
  | .returnConstant c => do
    let value ← constantValue c
    returnTo value (← fetch (← registers).home Context.sender)
  | .returnTop => do
    let value ← pop
    returnTo value (← fetch (← registers).home Context.sender)
  | .blockReturn => do
    let value ← pop
    returnTo value (← fetch (← registers).context Context.caller)
  | .send index argCount => do send (← literal index) argCount
  | .sendSuper index argCount => do sendSuper (← literal index) argCount
  | .pop => do let _ ← pop
  | .duplicate => do push (← top)
  | .jump offset => jump offset
  | .longJump offset => do
    jump offset
    if offset < 0 then
      checkInterrupts
  | .jumpIf condition offset => jumpIf condition offset
  | .arithmetic index => arithmetic index
  | .special index => do
    if !(← quickSpecial index) then
      sendSpecial (index + 16)

/-- Executes one instruction. -/
def step : Action Unit := do
  let bytecode ← nextByte
  countBytecode
  let x ← if 1 ≤ Instruction.operandCount bytecode then nextByte else pure 0
  let y ← if 2 ≤ Instruction.operandCount bytecode then nextByte else pure 0
  match Instruction.decode? bytecode x y with
  | some instruction => execute instruction
  | none => throw (.badBytecode bytecode ((← registers).pc - 1))

/-- Executes `count` instructions. -/
def steps : Nat → Action Unit
  | 0 => return
  | count + 1 => do
    step
    steps count

/-- Why a run ended. -/
inductive StopReason where
  /-- The guest asked to stop. -/
  | quit
  /-- The limit was reached. -/
  | stepLimit
  deriving DecidableEq, Inhabited, Repr

/-- Executes at most `limit` instructions, until the guest asks to stop. -/
def runFor : Nat → Action StopReason
  | 0 => return if (← get).quitting then .quit else .stepLimit
  | limit + 1 => do
    if (← get).quitting then
      return .quit
    step
    runFor limit

/-- More instructions than any run executes. -/
def unlimited : Nat := 0x4000000000000000

/-- Executes instructions until the guest asks to stop or the limit is reached, if there is one. -/
def run (limit : Option Nat) : Action StopReason := runFor (limit.getD unlimited)

/-- Takes up the context that the active process was suspended in. -/
def loadInitialContext : Action Unit := do
  let process ← activeProcess
  let context ← fetch process Process.suspendedContext
  modifyRegisters fun r => { r with context }
  loadRegisters context
  modify fun m => { m with reclaimable := 0 }

end Smalltalk.Action
