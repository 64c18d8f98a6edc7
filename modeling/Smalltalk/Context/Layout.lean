import Smalltalk.Word

/-!
# Contexts

A context is the frame of a method or block that is being executed. Its first six fields are
fixed; arguments, temporaries and the stack follow. The instruction pointer is stored as a byte
count from the start of the method, header and literals included, counting from one; the stack
pointer is stored as the number of entries above the fixed fields.
-/

namespace Smalltalk.Context

/-- The context to return to. -/
def sender : Nat := 0

/-- The stored instruction pointer. -/
def instructionPointer : Nat := 1

/-- The stored stack pointer. -/
def stackPointer : Nat := 2

/-- The method of a method context. -/
def method : Nat := 3

/-- The receiver of a method context. -/
def receiver : Nat := 5

/-- The first argument or temporary. -/
def frameStart : Nat := 6

/-- The context a block returns to. -/
def caller : Nat := 0

/-- The number of arguments of a block, where a method context has its method. -/
def blockArgCount : Nat := 3

/-- Where a block starts. -/
def initialPointer : Nat := 4

/-- The method context a block belongs to. -/
def home : Nat := 5

/-- The number of fields of a small context. -/
def smallSize : Nat := frameStart + 17

/-- The number of fields of a large context. -/
def largeSize : Nat := frameStart + 57

/-- The number of fields of a context. -/
def size (large : Bool) : Nat := if large then largeSize else smallSize

/-- The stored form of the index of a bytecode. -/
def encodePc (pc literalCount : Nat) : Int := signedWord (pc + (literalCount + 1) * 4 + 1)

/-- The bytecode index that is stored as `stored`, if it is not negative. -/
def decodePc? (stored : Int) (literalCount : Nat) : Option Nat :=
  let pc := stored - ((literalCount + 1) * 4 + 1 : Nat)
  if pc < 0 then none else some pc.toNat

/-- The stored form of the index of the top stack slot. -/
def encodeSp (sp : Nat) : Int := sp - receiver

/-- The slot index that is stored as `stored`, if it is not negative. -/
def decodeSp? (stored : Int) : Option Nat :=
  let sp := stored + receiver
  if sp < 0 then none else some sp.toNat

end Smalltalk.Context
