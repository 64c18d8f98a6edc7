/-!
# Instructions

The bytecodes of a method:

      0-15   push a field of the receiver     16-31   push a temporary
     32-63   push a literal                   64-95   push the value of a literal association
     96-103  pop into a field                104-111  pop into a temporary
    112-119  push self true false nil -1 0 1 2
    120-125  returns                         126-127  unused
    128-134  extended push, store, send      135-137  pop, duplicate, push the active context
    138-143  unused                          144-175  jumps
    176-191  arithmetic sends                192-207  sends of other special selectors
    208-255  sends of literal 0-15 with 0, 1 or 2 arguments
-/

namespace Smalltalk

/-- A place that a push reads or a store writes. -/
inductive Variable where
  /-- A field of the receiver. -/
  | field (index : Nat)
  /-- An argument or temporary of the home context. -/
  | temporary (index : Nat)
  /-- A literal itself. -/
  | literal (index : Nat)
  /-- The value of the association that is a literal. -/
  | global (index : Nat)
  deriving DecidableEq, Inhabited, Repr

/-- The place in the operand of an extended push or store. -/
def Variable.ofOperand (operand : UInt8) : Variable :=
  let index := operand.toNat % 64
  match operand.toNat / 64 with
  | 0 => field index
  | 1 => temporary index
  | 2 => literal index
  | _ => global index

/-- A value that an instruction names without an index. -/
inductive Constant where
  | receiver
  | true
  | false
  | nil
  | integer (n : Int)
  deriving DecidableEq, Inhabited, Repr

/-- What the machine does in one step. -/
inductive Instruction where
  | push (v : Variable)
  | pushConstant (c : Constant)
  /-- Push the active context. -/
  | pushContext
  /-- Store the top of the stack and keep it. -/
  | store (v : Variable)
  /-- Store the top of the stack and drop it. -/
  | popInto (v : Variable)
  /-- Return a constant to the sender of the home context. -/
  | returnConstant (c : Constant)
  /-- Return the top of the stack to the sender of the home context. -/
  | returnTop
  /-- Return the top of the stack to the caller of the block. -/
  | blockReturn
  /-- Send the selector in a literal. -/
  | send (literal argCount : Nat)
  /-- Send the selector in a literal to super. -/
  | sendSuper (literal argCount : Nat)
  | pop
  | duplicate
  /-- Jump by an offset. -/
  | jump (offset : Int)
  /-- Jump by an offset, looking for interrupts when it leads back. -/
  | longJump (offset : Int)
  /-- Jump by an offset if the top of the stack is that truth value. -/
  | jumpIf (condition : Bool) (offset : Int)
  /-- An arithmetic send. -/
  | arithmetic (index : Nat)
  /-- A send of one of the other special selectors. -/
  | special (index : Nat)
  deriving DecidableEq, Inhabited, Repr

namespace Instruction

/-- How many operand bytes follow a bytecode. -/
def operandCount (bytecode : UInt8) : Nat :=
  if bytecode = 132 then 2
  else if 128 ≤ bytecode ∧ bytecode ≤ 134 then 1
  else if 160 ≤ bytecode ∧ bytecode ≤ 175 then 1
  else 0

/-- The instruction 132: the operation is in the high three bits of its first operand, an index in
the second. -/
def ofDouble (first second : UInt8) : Instruction :=
  let argCount := first.toNat % 32
  let index := second.toNat
  match first.toNat / 32 with
  | 0 => send index argCount
  | 1 => sendSuper index argCount
  | 2 => push (.field index)
  | 3 => push (.literal index)
  | 4 => push (.global index)
  | 5 => store (.field index)
  | 6 => popInto (.field index)
  | _ => store (.global index)

/-- The constant among the eight that push and return instructions count. -/
def constant (index : Nat) : Constant :=
  match index with
  | 0 => .receiver
  | 1 => .true
  | 2 => .false
  | 3 => .nil
  | n => .integer (n - 5)

/-- The instruction of a bytecode with its operands; some bytecodes are unused. -/
def decode? (bytecode x y : UInt8) : Option Instruction :=
  let b := bytecode.toNat
  if b < 16 then some (push (.field b))
  else if b < 32 then some (push (.temporary (b - 16)))
  else if b < 64 then some (push (.literal (b - 32)))
  else if b < 96 then some (push (.global (b - 64)))
  else if b < 104 then some (popInto (.field (b - 96)))
  else if b < 112 then some (popInto (.temporary (b - 104)))
  else if b < 120 then some (pushConstant (constant (b - 112)))
  else if b < 124 then some (returnConstant (constant (b - 120)))
  else if b = 124 then some returnTop
  else if b = 125 then some blockReturn
  else if b < 128 then none
  else if b = 128 then some (push (.ofOperand x))
  else if b = 129 then some (store (.ofOperand x))
  else if b = 130 then some (popInto (.ofOperand x))
  else if b = 131 then some (send (x.toNat % 32) (x.toNat / 32))
  else if b = 132 then some (ofDouble x y)
  else if b = 133 then some (sendSuper (x.toNat % 32) (x.toNat / 32))
  else if b = 134 then some (send (x.toNat % 64) (x.toNat / 64))
  else if b = 135 then some pop
  else if b = 136 then some duplicate
  else if b = 137 then some pushContext
  else if b < 144 then none
  else if b < 152 then some (jump (b - 144 + 1 : Nat))
  else if b < 160 then some (jumpIf false (b - 152 + 1 : Nat))
  else if b < 168 then some (longJump (((b : Int) - 164) * 256 + x.toNat))
  else if b < 172 then some (jumpIf true ((b - 168) * 256 + x.toNat : Nat))
  else if b < 176 then some (jumpIf false ((b - 172) * 256 + x.toNat : Nat))
  else if b < 192 then some (arithmetic (b - 176))
  else if b < 208 then some (special (b - 192))
  else some (send (b % 16) (b / 16 - 13))

end Instruction

end Smalltalk
