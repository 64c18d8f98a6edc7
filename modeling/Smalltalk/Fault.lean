import Smalltalk.Value
import Smalltalk.Word

/-!
# Faults

The conditions that end interpretation or refuse an image, and their wording. A panic is a check of
the machine's own that fails: it ends everything, and the guest is not told.
-/

namespace Smalltalk

/-- The part of the heap that did not have the shape the machine relies on. -/
inductive Flaw where
  | pointerIndex
  | integerField
  | methodHeader
  | instructionPointer
  | stackPointer
  | stackDepth
  | instructionStream
  | methodFrame
  | lookupStructure
  | specialObjects
  | jumpTarget
  | literalStore
  | selectorArity
  | processPriority
  | formBitmap
  deriving DecidableEq, Inhabited, Repr

/-- How a flaw is written. -/
def Flaw.text : Flaw → String
  | pointerIndex => "pointer index"
  | integerField => "integer field"
  | methodHeader => "method header"
  | instructionPointer => "instruction pointer"
  | stackPointer => "stack pointer"
  | stackDepth => "stack depth"
  | instructionStream => "instruction stream"
  | methodFrame => "method frame"
  | lookupStructure => "lookup structure"
  | specialObjects => "special objects array"
  | jumpTarget => "jump target"
  | literalStore => "store into a literal constant"
  | selectorArity => "special selector argument count"
  | processPriority => "process priority"
  | formBitmap => "form bitmap"

/-- What is wrong with one record of an image. -/
inductive RecordFlaw where
  | shortFileHeader
  | noCompactClass
  | zeroSize
  | shortCompactTable
  | unknownFormat
  | methodWithoutHeader
  | literalsExceedSize
  deriving DecidableEq, Inhabited, Repr

/-- How a flaw of a record is written. -/
def RecordFlaw.text : RecordFlaw → String
  | shortFileHeader => "header size is smaller than the header"
  | noCompactClass => "short header without a compact class"
  | zeroSize => "object size of zero"
  | shortCompactTable => "compact class array is too short"
  | unknownFormat => "unknown format"
  | methodWithoutHeader => "method without header"
  | literalsExceedSize => "method literals exceed its size"

/-- Why an image was refused. -/
inductive ImageFault where
  /-- There is no file of that name. -/
  | missingFile
  /-- The stream ends inside a word. -/
  | endOfStream
  /-- The stream ends inside the file header. -/
  | truncatedHeader
  /-- The first word is no known version, in either byte order. -/
  | badMagic (word : UInt32)
  /-- A free block stands where an object should. -/
  | freeBlock (offset : Nat)
  /-- A record is malformed. -/
  | malformedRecord (offset : Nat) (flaw : RecordFlaw)
  /-- A reference leads to no record. -/
  | danglingReference (address : UInt32)
  /-- The special objects array is too short. -/
  | missingSpecialObject (index : Nat)
  deriving DecidableEq, Inhabited, Repr

/-- Eight hexadecimal digits after `0x`. -/
def hexWord (word : UInt32) : String :=
  let digits := Nat.toDigits 16 word.toNat
  "0x" ++ String.ofList (List.replicate (8 - digits.length) '0' ++ digits)

/-- How the refusal of an image is written. -/
def ImageFault.text : ImageFault → String
  | missingFile => "No such file or directory (os error 2)"
  | endOfStream => "failed to fill whole buffer"
  | truncatedHeader => "image header is truncated"
  | badMagic word => s!"bad image version {hexWord word}"
  | freeBlock offset => s!"unexpected free block at offset {offset}"
  | malformedRecord offset flaw => s!"malformed record at offset {offset}: {flaw.text}"
  | danglingReference address => s!"reference to unknown address {hexWord address}"
  | missingSpecialObject index => s!"special object {index} is missing"

/-- What the machine takes for granted of its own arithmetic and indexing, and finds wanting. -/
inductive Panic where
  /-- A number does not fit the word it is computed in. -/
  | overflow (width : Width) (n : Int)
  /-- A number that is to become an immediate integer is out of their range. -/
  | notImmediate (n : Int)
  /-- A new block is too short for the fields that are fixed. -/
  | shortBlock (block : Value)
  deriving DecidableEq, Inhabited, Repr

/-- How a panic is written. -/
def Panic.text : Panic → String
  | overflow _ n => s!"overflow to {n}"
  | notImmediate n => s!"no immediate integer for {n}"
  | shortBlock block => s!"block {block.text} is too short"

/-- Conditions that end interpretation. -/
inductive Fault where
  /-- The message that reports an unknown selector is itself unknown. -/
  | recursiveDoesNotUnderstand (selector : Value)
  /-- A return has nowhere to go. -/
  | cannotReturn (context : Value)
  /-- Every process waits. -/
  | noRunnableProcess
  /-- The object table is full and cannot grow. -/
  | objectTableFull (count : Nat)
  /-- A value that should be a live reference is not. -/
  | invalidReference (value : Value)
  /-- An object has the wrong shape. -/
  | malformed (flaw : Flaw) (value : Value)
  /-- The bytecode is unused. -/
  | badBytecode (bytecode : UInt8) (pc : Nat)
  /-- An image was refused. -/
  | image (fault : ImageFault)
  /-- A superclass or sender chain runs in a circle, so that walking it would never end. -/
  | endlessChain (start : Value)
  /-- A send was handed on from perform to perform without ever reaching a method. -/
  | endlessResend (selector : Value)
  /-- A check of the machine's own has failed. -/
  | panic (panic : Panic)
  deriving DecidableEq, Inhabited, Repr

/-- How a fault is written. -/
def Fault.text : Fault → String
  | recursiveDoesNotUnderstand selector =>
    s!"recursive doesNotUnderstand: for selector {selector.text}"
  | cannotReturn context => s!"cannot return to context {context.text}"
  | noRunnableProcess => "scheduler has no runnable process"
  | objectTableFull count => s!"object table has reached capacity ({count} objects)"
  | invalidReference value => s!"invalid object reference {value.text}"
  | malformed flaw value => s!"malformed {flaw.text}: {value.text}"
  | badBytecode bytecode pc => s!"unknown bytecode {bytecode.toNat} at pc {pc}"
  | image fault => s!"image: {fault.text}"
  | endlessChain start => s!"chain from {start.text} never ends"
  | endlessResend selector => s!"performs of {selector.text} never reach a method"
  | panic p => s!"panic: {p.text}"

/-- The number `n`, which has to fit a word. -/
def Width.check (w : Width) (n : Int) : Except Fault Int :=
  if w.Holds n then .ok n else .error (.panic (.overflow w n))

theorem Width.check_of_holds {w : Width} {n : Int} (h : w.Holds n) : w.check n = .ok n := if_pos h

theorem Width.check_of_not {w : Width} {n : Int} (h : ¬w.Holds n) :
    w.check n = .error (.panic (.overflow w n)) := if_neg h

theorem Width.check_error {w : Width} {n : Int} {e : Fault} (h : w.check n = .error e) :
    e = .panic (.overflow w n) ∧ ¬w.Holds n := by
  by_cases hn : w.Holds n
  · rw [check_of_holds hn] at h
    cases h
  · rw [check_of_not hn] at h
    exact ⟨(Except.error.inj h).symm, hn⟩

/-- The immediate value of `n`, which has to be in their range. -/
def Value.immediate (n : Int) : Except Fault Value :=
  if Value.InRange n then .ok (.small n) else .error (.panic (.notImmediate n))

theorem Value.immediate_of_inRange {n : Int} (h : InRange n) : immediate n = .ok (.small n) := if_pos h

theorem Value.immediate_of_not {n : Int} (h : ¬InRange n) :
    immediate n = .error (.panic (.notImmediate n)) := if_neg h

end Smalltalk
