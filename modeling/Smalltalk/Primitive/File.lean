import Smalltalk.Primitive.Device
import Smalltalk.Primitive.Storage

/-!
# File primitives

Open files are named by immediate integers. A refusal of the file system declines the primitive.
-/

namespace Smalltalk

namespace Attempt

open Device

/-- A file handle of the stack. -/
def stackHandle (depth : Nat) : Attempt Nat := do
  let n ← stackInteger depth
  require (0 ≤ n ∧ n < 0x100000000)
  return n.toNat

/-- A path name of the stack. -/
def stackPath (depth : Nat) : Attempt String := do textValue (← stackValue depth)

/-- A byte object of the stack with a range in it, given by its start, counting from one, and its
length. -/
def stackByteRange (depth : Nat) : Attempt (Value × Nat × Nat) := do
  let buffer ← stackObject depth
  let start ← stackInteger (depth - 1)
  let count ← stackInteger (depth - 2)
  let o ← Action.object buffer
  require (o.format = .bytes)
  let first ← natural (start - 1)
  let count ← natural count
  require (first + count ≤ o.body.size)
  return (buffer, first, count)

/-- Applies an operation of the file system, and declines if it is refused. -/
def onFiles (f : FileSystem → Option (α × FileSystem)) : Attempt α := do
  let (a, files) ← ofOption (f (← get).devices.files)
  modify fun m => { m with devices := { m.devices with files } }
  return a

/-- Applies an operation of the file system that has no answer. -/
def changeFiles (f : FileSystem → Option FileSystem) : Attempt Unit :=
  onFiles fun fs => (f fs).map fun fs => ((), fs)

/-- The handle behind the guest's. -/
def hostHandle (guest : Nat) : Attempt Nat := return (← get).devices.hostHandle guest

/-- The integer object for a time. -/
def secondsValue (seconds : Int) : Attempt Value := do newPositive32 (← natural seconds)

/-- Keeps a value alive. -/
def pinValue (v : Value) : Attempt Unit := Action.modifyMemory fun m => m.pin v

/-- The array of name, creation and modification time, kind and size of a directory entry. -/
def buildEntry (e : Devices.EntryInfo) : Attempt Value := do
  let name ← Action.makeString e.name
  pinValue name
  let created ← secondsValue e.created
  pinValue created
  let modified ← secondsValue e.modified
  pinValue modified
  let size ← newPositive32 e.size
  pinValue size
  let isDirectory ← Action.truth e.isDirectory
  let cls ← Action.special Special.classArray
  Action.allocate (.ofPointers cls .indexable #[name, created, modified, isDirectory, size])

/-- The array for a directory entry; what it is built of stays alive meanwhile. -/
def entryArray (e : Devices.EntryInfo) : Attempt Value := fun m =>
  let count := m.memory.pins.size
  match buildEntry e m with
  | .ok v m => .ok v { m with memory := m.memory.releasePins count }
  | .error e m => .error e { m with memory := m.memory.releasePins count }

end Attempt

namespace Primitive

open Attempt Device

/-- Whether a file is at its end. -/
def fileAtEnd : PrimitiveAction := fun argCount => do
  require (argCount = 1)
  let handle ← stackHandle 0
  let position ← ofOption ((← get).devices.position handle)
  let size ← ofOption ((← get).devices.fileSize handle)
  answerTruth 1 (size ≤ position)

/-- Closes a file. -/
def fileClose : PrimitiveAction := fun argCount => do
  require (argCount = 1)
  let handle ← stackHandle 0
  let closed ← onDevices fun d => d.closeFile handle
  require closed
  answer 1 (← stackValue 1)

/-- The position of a file. -/
def filePosition : PrimitiveAction := fun argCount => do
  require (argCount = 1)
  let handle ← stackHandle 0
  let position ← ofOption ((← get).devices.position handle)
  answer 1 (← newPositive32 position)

/-- Opens the file of a name. A handle that is not immediate is closed again. -/
def openNamed (path : String) (writable : Bool) : Attempt Completion := do
  let (handle, devices) ← ofOption ((← get).devices.openFile path writable)
  modify fun m => { m with devices }
  match Value.ofInt? handle with
  | some v => answer 2 v
  | none =>
    let _ ← onDevices fun d => d.closeFile handle
    decline

/-- Opens a file for reading, or for writing too. -/
def fileOpen : PrimitiveAction := fun argCount => do
  require (argCount = 2)
  let path ← stackPath 1
  let flag ← stackValue 0
  if flag = (← Action.truth true) then
    openNamed path true
  else if flag = (← Action.truth false) then
    openNamed path false
  else
    decline

/-- Reads bytes into a byte object and answers how many there were. -/
def fileRead : PrimitiveAction := fun argCount => do
  require (argCount = 4)
  let handle ← stackHandle 3
  let (buffer, first, count) ← stackByteRange 2
  let handle ← hostHandle handle
  let part ← onFiles fun fs => fs.read handle count
  let bytes ← ofOption (← Action.object buffer).bytes?
  let bytes ← ofOption (overwrite? bytes first part)
  Action.modifyMemory fun m => m.modify buffer fun o => { o with body := .bytes bytes }
  answer 4 (← newPositive32 part.size)

/-- Moves a file to a position. -/
def fileSetPosition : PrimitiveAction := fun argCount => do
  require (argCount = 2)
  let handle ← stackHandle 1
  let position ← stackPositive32 0
  let handle ← hostHandle handle
  changeFiles fun fs => fs.setPosition handle position
  answer 2 (← stackValue 2)

/-- Deletes a file. -/
def fileDelete : PrimitiveAction := fun argCount => do
  require (argCount = 1)
  let path ← stackPath 0
  changeFiles fun fs => fs.delete path
  answer 1 (← stackValue 1)

/-- The size of a file. -/
def fileSize : PrimitiveAction := fun argCount => do
  require (argCount = 1)
  let handle ← stackHandle 0
  let size ← ofOption ((← get).devices.fileSize handle)
  answer 1 (← newPositive32 size)

/-- Writes bytes of a byte object and answers how many there were. -/
def fileWrite : PrimitiveAction := fun argCount => do
  require (argCount = 4)
  let handle ← stackHandle 3
  let (buffer, first, count) ← stackByteRange 2
  let bytes ← ofOption (← Action.object buffer).bytes?
  let handle ← hostHandle handle
  changeFiles fun fs => fs.write handle (bytes.extract first (first + count))
  answer 4 (← newPositive32 count)

/-- Renames a file or directory. -/
def fileRename : PrimitiveAction := fun argCount => do
  require (argCount = 2)
  let source ← stackPath 1
  let target ← stackPath 0
  changeFiles fun fs => fs.rename source target
  answer 2 (← stackValue 2)

/-- Creates a directory. -/
def createDirectory : PrimitiveAction := fun argCount => do
  require (argCount = 1)
  let path ← stackPath 0
  changeFiles fun fs => fs.createDirectory path
  answer 1 (← stackValue 1)

/-- The character between the components of path names. -/
def pathDelimiter : PrimitiveAction := fun _ => do
  let code := (← get).devices.script.delimiter.toNat
  require (code < 256)
  answer 0 (← Action.characterFor code)

/-- An entry of a directory, or nil after the last. -/
def lookupEntry : PrimitiveAction := fun argCount => do
  require (argCount = 2)
  let path ← stackPath 1
  let index ← natural (← stackInteger 0)
  require (index ≠ 0)
  match ← ofOption ((← get).devices.lookupEntry path index) with
  | some e => answer 2 (← entryArray e)
  | none => answer 2 (← Action.nil)

end Primitive

end Smalltalk
