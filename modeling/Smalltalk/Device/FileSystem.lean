import Smalltalk.Device.Contents
import Smalltalk.Text.Path

/-!
# File system

Directories and files under one root, and the files that are open. A name leads to an entry through
directories that exist, from the root if it starts with a slash and from the working directory
otherwise. The contents of a file outlive its name, so an open file survives renaming and deletion.
An operation that the system refuses answers `none` and changes nothing.
-/

namespace Smalltalk.Device

/-- The names of the directories from the root to an entry, and its own. -/
abbrev Place := List String

/-- What a name stands for. -/
inductive Entry where
  | directory
  /-- A file, by the number of its contents. -/
  | file (id : Nat)
  deriving DecidableEq, Inhabited, Repr

/-- A file in use. -/
structure OpenFile where
  entry : Entry
  writable : Bool
  position : Nat
  deriving DecidableEq, Inhabited, Repr

/-- The entries, the contents of the files, and the open files by handle. -/
structure FileSystem where
  /-- Where names that do not start at the root start. -/
  workingDirectory : Place
  entries : List (Place × Entry)
  contents : Array Contents
  openFiles : List (Nat × OpenFile)
  /-- The last handle that was given out. -/
  lastHandle : Nat
  deriving DecidableEq, Inhabited, Repr

/-- What a name says about the entry it leads to. -/
structure Target where
  place : Place
  /-- Only a directory will do. -/
  wantsDirectory : Bool
  /-- The name ends in the root, `.` or `..`, so it cannot be created, removed or renamed. -/
  isFixed : Bool
  deriving DecidableEq, Inhabited, Repr

namespace FileSystem

/-- The system that has nothing but the directories down to its working directory. -/
def startingIn (place : Place) : FileSystem where
  workingDirectory := place
  entries := (List.range place.length).map fun n => (place.take (n + 1), .directory)
  contents := #[]
  openFiles := []
  lastHandle := 0

/-- The system with an empty root, which is the working directory. -/
def empty : FileSystem := startingIn []

/-- The system with an empty working directory below the root. -/
def scratch : FileSystem := startingIn ["tmp", "work"]

/-- The path name of the working directory. -/
def workingName (fs : FileSystem) : String := "/" ++ "/".intercalate fs.workingDirectory

/-- What is at a place. -/
def entry? (fs : FileSystem) : Place → Option Entry
  | [] => some .directory
  | place => fs.entries.lookup place

/-- Follows the components of a name from the directory `place`. All directories on the way have to
exist; the last component need not. -/
def walk (fs : FileSystem) : Place → List String → Option Place
  | place, [] => some place
  | place, c :: rest =>
    if fs.entry? place = some .directory then
      fs.walk (if c = ".." then place.dropLast else place ++ [c]) rest
    else
      none

/-- The longest component a name may have, in bytes. -/
def maxComponent : Nat := 255

/-- The longest name, in bytes. -/
def maxName : Nat := 4095

/-- The directory that a name starts from. -/
def start (fs : FileSystem) (path : String) : Place :=
  if path.startsWith "/" then [] else fs.workingDirectory

/-- Where a name leads. -/
def resolve (fs : FileSystem) (path : String) : Option Target := do
  guard (path ≠ "" ∧ !path.toList.contains '\x00')
  guard (path.utf8ByteSize ≤ maxName)
  let all := path.splitOn "/"
  guard (all.all fun c => c.utf8ByteSize ≤ maxComponent)
  let place ← fs.walk (fs.start path) (Text.components path)
  let last := (all.filter (· ≠ "")).getLast?
  let isFixed := last.isNone || last = some "." || last = some ".."
  return { place, wantsDirectory := isFixed || path.endsWith "/", isFixed }

/-- Whether the entry is acceptable where a directory may be wanted. -/
def suits (t : Target) (e : Entry) : Bool := !t.wantsDirectory || e == .directory

/-- Puts an entry at a place. -/
def put (fs : FileSystem) (place : Place) (e : Entry) : FileSystem :=
  { fs with entries := (place, e) :: fs.entries.filter fun p => p.1 ≠ place }

/-- Removes what is at a place. -/
def remove (fs : FileSystem) (place : Place) : FileSystem :=
  { fs with entries := fs.entries.filter fun p => p.1 ≠ place }

/-- Creates a file. -/
def createFile (fs : FileSystem) (place : Place) (bytes : Array UInt8) : FileSystem :=
  { fs with contents := fs.contents.push (.ofBytes bytes) }.put place (.file fs.contents.size)

/-- Gives out a handle. -/
def addHandle (fs : FileSystem) (file : OpenFile) : Nat × FileSystem :=
  let handle := fs.lastHandle + 1
  (handle, { fs with lastHandle := handle, openFiles := (handle, file) :: fs.openFiles })

/-- Opens a file at its beginning. For writing the file is created if need be. -/
def openFile (fs : FileSystem) (path : String) (writable : Bool) : Option (Nat × FileSystem) := do
  let t ← fs.resolve path
  match fs.entry? t.place, writable with
  | some e, false =>
    guard (suits t e)
    return fs.addHandle { entry := e, writable := false, position := 0 }
  | none, false => none
  | some e, true =>
    guard (e ≠ .directory && !t.wantsDirectory)
    return fs.addHandle { entry := e, writable := true, position := 0 }
  | none, true =>
    guard (!t.wantsDirectory)
    let entry := Entry.file fs.contents.size
    return (fs.createFile t.place #[]).addHandle { entry, writable := true, position := 0 }

/-- The open file of a handle. -/
def file? (fs : FileSystem) (handle : Nat) : Option OpenFile := fs.openFiles.lookup handle

/-- Closes an open file. -/
def close (fs : FileSystem) (handle : Nat) : Option FileSystem := do
  let _ ← fs.file? handle
  return { fs with openFiles := fs.openFiles.filter fun p => p.1 ≠ handle }

/-- Moves an open file to a position. -/
def setPosition (fs : FileSystem) (handle position : Nat) : Option FileSystem := do
  let file ← fs.file? handle
  let openFiles := fs.openFiles.filter fun p => p.1 ≠ handle
  return { fs with openFiles := (handle, { file with position }) :: openFiles }

/-- The contents of a file. -/
def contentsOf (fs : FileSystem) : Entry → Option Contents
  | .directory => none
  | .file id => fs.contents[id]?

/-- Reads up to `count` bytes at the position. Nothing can be read of a directory. -/
def read (fs : FileSystem) (handle count : Nat) : Option (Array UInt8 × FileSystem) := do
  let file ← fs.file? handle
  if count = 0 then
    return (#[], fs)
  let contents ← fs.contentsOf file.entry
  let part := contents.extract file.position (file.position + count)
  let fs ← fs.setPosition handle (file.position + part.size)
  return (part, fs)

/-- Writes bytes at the position. Writing nothing is always allowed. -/
def write (fs : FileSystem) (handle : Nat) (part : Array UInt8) : Option FileSystem := do
  let file ← fs.file? handle
  if part.size = 0 then
    return fs
  guard file.writable
  match file.entry with
  | .directory => none
  | .file id =>
    let fs := { fs with contents := fs.contents.modify id fun c => c.write file.position part }
    fs.setPosition handle (file.position + part.size)

/-- The length of an open file. -/
def sizeOf (fs : FileSystem) (handle : Nat) : Option Nat := do
  let file ← fs.file? handle
  return ((fs.contentsOf file.entry).map Contents.size).getD 0

/-- Deletes a file. -/
def delete (fs : FileSystem) (path : String) : Option FileSystem := do
  let t ← fs.resolve path
  match ← fs.entry? t.place with
  | .directory => none
  | .file _ =>
    guard (!t.wantsDirectory)
    return fs.remove t.place

/-- Creates a directory. -/
def createDirectory (fs : FileSystem) (path : String) : Option FileSystem := do
  let t ← fs.resolve path
  guard (!t.isFixed && (fs.entry? t.place).isNone)
  return fs.put t.place .directory

/-- Whether a name comes before another; names are ordered by their code points. -/
def nameBefore (a b : String) : Bool :=
  List.lex (a.toList.map Char.toNat) (b.toList.map Char.toNat) Nat.blt

/-- The entries in a directory, by name. -/
def children (fs : FileSystem) (place : Place) : List (String × Entry) :=
  let found := fs.entries.filterMap fun (p, e) =>
    match p.getLast? with
    | some name => if p.dropLast = place then some (name, e) else none
    | none => none
  found.mergeSort fun a b => !nameBefore b.1 a.1

/-- Whether an entry may be renamed onto what is at `place`. -/
def mayReplace (fs : FileSystem) (e : Entry) (place : Place) : Bool :=
  match fs.entry? place, e with
  | none, _ => true
  | some (.file _), .file _ => true
  | some .directory, .directory => (fs.children place).isEmpty
  | _, _ => false

/-- The place of an entry after `source` became `target`. -/
def moved (source target place : Place) : Place :=
  if source.isPrefixOf place then target ++ place.drop source.length else place

/-- Renames an entry, with all that is below it, the working directory too. A directory cannot be
moved below itself. -/
def rename (fs : FileSystem) (source target : String) : Option FileSystem := do
  let s ← fs.resolve source
  let t ← fs.resolve target
  guard (!s.isFixed && !t.isFixed)
  let e ← fs.entry? s.place
  guard (suits s e && suits t e)
  if s.place = t.place then
    return fs
  guard (!s.place.isPrefixOf t.place && fs.mayReplace e t.place)
  let fs := fs.remove t.place
  return { fs with
    workingDirectory := moved s.place t.place fs.workingDirectory
    entries := fs.entries.map fun (p, e) => (moved s.place t.place p, e) }

/-- The entries in the directory of that name, by name; the empty name is the working directory. -/
def list (fs : FileSystem) (path : String) : Option (List (String × Entry)) := do
  let t ← fs.resolve (if path = "" then "." else path)
  match ← fs.entry? t.place with
  | .directory => return fs.children t.place
  | .file _ => none

/-- The path from a directory to a place below it. -/
def placeBelow? (directory place : Place) : Option Place :=
  if directory.isPrefixOf place && directory.length < place.length then
    some (place.drop directory.length)
  else
    none

/-- All entries below the working directory with the contents of the files, every directory before
what is in it. -/
def listing (fs : FileSystem) : List (String × Option (Array UInt8)) :=
  let below := fs.entries.filterMap fun (p, e) =>
    (placeBelow? fs.workingDirectory p).map fun place => (place, e)
  let sorted := below.mergeSort fun a b => !List.lex b.1 a.1 nameBefore
  sorted.map fun (place, e) => ("/".intercalate place, (fs.contentsOf e).map Contents.toArray)

end FileSystem

end Smalltalk.Device
