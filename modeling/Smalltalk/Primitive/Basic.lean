import Smalltalk.Machine.Heap

/-!
# Primitives

A primitive takes the place of a method body. It may decline, and then the bytecodes of the method
run instead; so it looks at all its operands before it touches the stack. A primitive that performs
a message does not send it itself: it leaves receiver and arguments on the stack and names the send
that is to go on from there.
-/

namespace Smalltalk

/-- How a primitive ends without an answer. -/
inductive Refusal where
  /-- The operands do not suit it. -/
  | declined
  /-- Interpretation ends. -/
  | fault (fault : Fault)
  deriving DecidableEq, Inhabited, Repr

/-- A change of the machine that may be declined. -/
abbrev Attempt := EStateM Refusal Machine

/-- What is left to do after a primitive. -/
inductive Completion where
  /-- Nothing. -/
  | done
  /-- A send whose receiver and arguments are on the stack. -/
  | resend (selector : Value) (argCount : Nat) (lookupClass : Value)
  deriving DecidableEq, Inhabited, Repr

/-- The work of a primitive, given the number of arguments of the send. -/
abbrev PrimitiveAction := Nat → Attempt Completion

namespace Attempt

/-- Carries out an action. -/
def ofAction (x : Action α) : Attempt α := fun m =>
  match x m with
  | .ok a m => .ok a m
  | .error e m => .error (.fault e) m

instance : MonadLift Action Attempt := ⟨ofAction⟩

/-- Declines. -/
def decline : Attempt α := throw .declined

/-- Declines unless the condition holds. -/
def require (p : Prop) [Decidable p] : Attempt Unit := if p then pure () else decline

/-- Declines if there is no value. -/
def ofOption : Option α → Attempt α
  | some a => pure a
  | none => decline

/-- Carries out an action, and declines if it faults. -/
def orDecline (x : Action α) : Attempt α := fun m =>
  match x m with
  | .ok a m => .ok a m
  | .error _ m => .error .declined m

/-- Carries out an attempt; answers nothing if it is declined. -/
def run? (x : Attempt α) : Action (Option α) := fun m =>
  match x m with
  | .ok a m => .ok (some a) m
  | .error .declined m => .ok none m
  | .error (.fault e) m => .error e m

/-! ### Operands -/

/-- A value of the stack. -/
def stackValue (depth : Nat) : Attempt Value := ofAction (Action.stackValue depth)

/-- An integer of the stack. -/
def stackInteger (depth : Nat) : Attempt Int := do ofOption (← stackValue depth).asSmall?

/-- A reference of the stack. -/
def stackObject (depth : Nat) : Attempt Value := do
  let v ← stackValue depth
  require v.isReference
  return v

/-- A natural number, if the integer is not negative. -/
def natural (n : Int) : Attempt Nat := do
  require (0 ≤ n)
  return n.toNat

/-- The number of bytes, least significant first. -/
def ofLittleEndian (bytes : List UInt8) : Nat := bytes.foldr (fun b n => b.toNat + 256 * n) 0

/-- The natural number below `2^32` that a value stands for: an immediate integer, or a large
positive integer of at most four bytes. -/
def positive32Value (v : Value) : Attempt Nat := do
  match v with
  | .small n =>
    require (0 ≤ n ∧ n < 0x100000000)
    return n.toNat
  | _ =>
    require (← Action.isInstanceOf v Special.classLargePositiveInteger)
    let bytes ← ofOption (← Action.object v).bytes?
    require (bytes.size ≤ 4)
    return ofLittleEndian bytes.toList

/-- A natural number below `2^32` of the stack. -/
def stackPositive32 (depth : Nat) : Attempt Nat := do positive32Value (← stackValue depth)

/-- The double a value stands for. -/
def floatValue (v : Value) : Attempt UInt64 := do
  require (← Action.isInstanceOf v Special.classFloat)
  match (← Action.object v).body with
  | .float bits => return bits
  | .words #[high, low] => return high.toUInt64 <<< 32 ||| low.toUInt64
  | _ => decline

/-- A double of the stack. -/
def stackFloat (depth : Nat) : Attempt UInt64 := do floatValue (← stackValue depth)

/-- The text of a byte object. -/
def textValue (v : Value) : Attempt String := do
  let o ← ofOption (← Action.object? v)
  require (o.format = .bytes)
  return Text.decode (← ofOption o.bytes?)

/-! ### Answers -/

/-- Replaces receiver and arguments by the answer. -/
def answer (argCount : Nat) (v : Value) : Attempt Completion := do
  Action.popThenPush (argCount + 1) v
  return .done

/-- Replaces receiver and arguments by a truth value. -/
def answerTruth (argCount : Nat) (b : Bool) : Attempt Completion := do
  answer argCount (← Action.truth b)

/-- The integer object for a natural number, which has to be below `2^32`. -/
def newPositive32 (n : Nat) : Attempt Value := do
  require (n < 0x100000000)
  Action.positive32 n

end Attempt

end Smalltalk
