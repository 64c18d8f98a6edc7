import Smalltalk.Image.Load
import Smalltalk.Lookup.Dictionary

/-!
# The standard world

A small world to start from: the classes the machine knows, their names, the special selectors, the
characters, a scheduler with one process, and the special objects array. The objects are registered
in a fixed order, so that each has a known place; they refer to each other by name.
-/

namespace Smalltalk.World

/-- A class of the standard world. -/
structure ClassEntry where
  name : String
  /-- The number of named fields of an instance. -/
  instSize : Nat
  /-- The format code of an instance. -/
  formatCode : Nat
  /-- The name of the superclass. -/
  superclass : String

/-- The classes, in order. -/
def classes : List ClassEntry := [
  ⟨"Object", 0, 0, "nil"⟩,
  ⟨"Class", 7, 1, "Object"⟩,
  ⟨"UndefinedObject", 0, 0, "Object"⟩,
  ⟨"True", 0, 0, "Object"⟩,
  ⟨"False", 0, 0, "Object"⟩,
  ⟨"SmallInteger", 0, 0, "Object"⟩,
  ⟨"String", 0, 8, "Object"⟩,
  ⟨"Symbol", 0, 8, "String"⟩,
  ⟨"Array", 0, 2, "Object"⟩,
  ⟨"Float", 0, 6, "Object"⟩,
  ⟨"MethodContext", 6, 3, "Object"⟩,
  ⟨"BlockContext", 6, 3, "Object"⟩,
  ⟨"Point", 2, 1, "Object"⟩,
  ⟨"LargePositiveInteger", 0, 8, "Object"⟩,
  ⟨"LargeNegativeInteger", 0, 8, "Object"⟩,
  ⟨"Message", 3, 1, "Object"⟩,
  ⟨"CompiledMethod", 0, 12, "Object"⟩,
  ⟨"Semaphore", 3, 1, "Object"⟩,
  ⟨"Character", 1, 1, "Object"⟩,
  ⟨"ByteArray", 0, 8, "Object"⟩,
  ⟨"Process", 4, 1, "Object"⟩,
  ⟨"Bitmap", 0, 6, "Object"⟩,
  ⟨"LinkedList", 2, 1, "Object"⟩,
  ⟨"ProcessorScheduler", 2, 1, "Object"⟩,
  ⟨"Association", 2, 1, "Object"⟩,
  ⟨"MethodDictionary", 2, 3, "Object"⟩]

/-- The special selectors with their numbers of arguments. -/
def selectors : List (String × Nat) := [
  ("+", 1), ("-", 1), ("<", 1), (">", 1), ("<=", 1), (">=", 1), ("=", 1), ("~=", 1),
  ("*", 1), ("/", 1), ("\\\\", 1), ("@", 1), ("bitShift:", 1), ("//", 1), ("bitAnd:", 1),
  ("bitOr:", 1), ("at:", 1), ("at:put:", 2), ("size", 0), ("next", 0), ("nextPut:", 1),
  ("atEnd", 0), ("==", 1), ("class", 0), ("blockCopy:", 1), ("value", 0), ("value:", 1),
  ("do:", 1), ("new", 0), ("new:", 1), ("x", 0), ("y", 0)]

/-- The name a symbol is known by. -/
def symbolName (text : String) : String := "#" ++ text

/-- The name the character of a code is known by. -/
def characterName (code : Nat) : String := s!"${code}"

/-- The name the process list of a priority is known by. -/
def listName (priority : Nat) : String := s!"list{priority}"

/-- The priorities of the process lists. -/
def priorities : List Nat := [1, 2, 3, 4, 5, 6, 7, 8]

/-- What a field of a described object holds. -/
inductive Cell where
  | integer (n : Int)
  | named (name : String)

/-- An object described by names. -/
structure Blueprint where
  name : String
  cls : String
  format : Format
  cells : List Cell
  bytes : Option String

/-- An object with named fields. -/
def fixed (name cls : String) (cells : List Cell) : Blueprint :=
  { name, cls, format := if cells.isEmpty then .empty else .fixed, cells, bytes := none }

/-- An array. -/
def array (name : String) (cells : List Cell) : Blueprint :=
  { name, cls := "Array", format := .indexable, cells, bytes := none }

/-- A symbol. -/
def symbol (text : String) : Blueprint :=
  { name := symbolName text, cls := "Symbol", format := .bytes, cells := [], bytes := some text }

/-- A class. -/
def classBlueprint (c : ClassEntry) : Blueprint :=
  fixed c.name "Class" [
    .named c.superclass, .named "nil", .integer (InstanceSpec.encode c.instSize c.formatCode),
    .named "nil", .named "nil", .named "nil", .named (symbolName c.name)]

/-- The special objects that are not nil. -/
def specialNames : List (Nat × String) := [
  (1, "false"), (2, "true"), (3, "schedulerAssociation"), (5, "SmallInteger"), (6, "String"),
  (7, "Array"), (8, "globals"), (9, "Float"), (10, "MethodContext"), (11, "BlockContext"),
  (12, "Point"), (13, "LargePositiveInteger"), (15, "Message"), (16, "CompiledMethod"),
  (18, "Semaphore"), (19, "Character"), (20, "#doesNotUnderstand:"), (23, "specialSelectors"),
  (24, "characters"), (25, "#mustBeBoolean"), (26, "ByteArray"), (27, "Process")]

/-- The objects of the standard world, in order. -/
def blueprints : List Blueprint :=
  [fixed "nil" "UndefinedObject" []] ++
  classes.map classBlueprint ++
  [fixed "false" "False" [], fixed "true" "True" []] ++
  classes.map (fun c => symbol c.name) ++
  selectors.map (fun s => symbol s.1) ++
  [array "specialSelectors"
      (selectors.flatMap fun s => [.named (symbolName s.1), .integer s.2]),
    symbol "doesNotUnderstand:", symbol "mustBeBoolean"] ++
  (List.range 256).map (fun code => fixed (characterName code) "Character" [.integer code]) ++
  [array "characters" ((List.range 256).map fun code => .named (characterName code)),
    fixed "rootProcess" "Process" [.named "nil", .named "nil", .integer 5, .named "nil"]] ++
  priorities.map (fun p => fixed (listName p) "LinkedList" [.named "nil", .named "nil"]) ++
  [array "lists" (priorities.map fun p => .named (listName p)),
    fixed "scheduler" "ProcessorScheduler" [.named "lists", .named "rootProcess"],
    symbol "Processor",
    fixed "schedulerAssociation" "Association"
      [.named (symbolName "Processor"), .named "scheduler"],
    array "globals" (classes.map (fun c => .named c.name) ++ [.named "rootProcess"]),
    array "specials"
      ((List.range 50).map fun i => .named ((specialNames.lookup i).getD "nil"))]

/-- The references of the standard world by name. -/
def names : Std.HashMap String Value :=
  blueprints.zipIdx.foldl (fun map (b, i) =>
    map.insert b.name (Value.reference (UInt32.ofNat i) 0)) ∅

/-- The reference of a name. -/
def reference (name : String) : Value := (names[name]?).getD (.small 0)

/-- The value of a cell. -/
def Cell.value : Cell → Value
  | integer n => .small n
  | named name => reference name

/-- The object of a description. -/
def Blueprint.object (b : Blueprint) : Object where
  cls := reference b.cls
  format := b.format
  hash := 0
  pointers := (b.cells.map Cell.value).toArray
  body := match b.bytes with
    | some text => .bytes text.toUTF8.data
    | none => .none

/-- The objects of the standard world. -/
def objects : List Object := blueprints.map Blueprint.object

/-- Registers the objects of the standard world. All of them count as old. -/
def standard (settings : TableSettings) : Except Fault (Memory × SpecialObjects) :=
  match (objects.forM fun o => do let _ ← Memory.register o) (Memory.empty settings) with
  | .error e _ => .error e
  | .ok _ memory => do
    let specials ← SpecialObjects.load memory (reference "specials")
    return (memory.markOldBoundary, specials)

end Smalltalk.World
