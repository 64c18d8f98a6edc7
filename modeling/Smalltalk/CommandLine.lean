import Smalltalk.Boot

/-!
# Command line

The program takes the name of an image file and options, runs the image, and reports how it ended.
-/

namespace Smalltalk.CommandLine

/-- What the command line asks for. -/
structure Options where
  path : String
  /-- The number of bytecodes to stop after. -/
  maxSteps : Option Nat
  table : TableSettings
  /-- Whether to print statistics. -/
  stats : Bool

/-- What the program prints and the code it exits with. -/
structure Outcome where
  code : Nat
  stdout : String
  stderr : String
  deriving DecidableEq, Inhabited, Repr

/-- The word that a decimal numeral stands for, which may have a plus sign. -/
def numeral? (text : String) : Option UInt64 :=
  let digits := match text.toList with
    | '+' :: rest => rest
    | all => all
  if digits.isEmpty || !digits.all Char.isDigit then none
  else
    let n := digits.foldl (fun n c => n * 10 + (c.toNat - '0'.toNat)) 0
    if n < UInt64.size then some (UInt64.ofNat n) else none

/-- The options that take a number. -/
inductive NumberOption where
  | maxSteps
  | tableMax
  | tableMin
  deriving DecidableEq, Inhabited, Repr

/-- The number option of that name. -/
def numberOption? (name : String) : Option NumberOption :=
  match name with
  | "--max-steps" => some .maxSteps
  | "--table-max" => some .tableMax
  | "--table-min" => some .tableMin
  | _ => none

/-- Sets a number option. -/
def setNumber (o : Options) (option : NumberOption) (n : UInt64) : Options :=
  let ⟨hinitial, hgrowth, hmaximum⟩ := o.table.words
  match option with
  | .maxSteps => { o with maxSteps := some n.toNat }
  | .tableMax =>
    { o with table := { o.table with maximum := n.toNat, words := ⟨hinitial, hgrowth, n.toNat_lt⟩ } }
  | .tableMin =>
    { o with table := { o.table with initial := n.toNat, words := ⟨n.toNat_lt, hgrowth, hmaximum⟩ } }

/-- An argument split at its first equals sign. -/
def splitAssignment (argument : String) : String × Option String :=
  match argument.splitOn "=" with
  | name :: first :: rest => (name, some ("=".intercalate (first :: rest)))
  | _ => (argument, none)

/-- Reads the arguments after those that gave `o`; the path may come before or between options. -/
def parseFrom (o : Options) (hasPath : Bool) : List String → Option Options
  | [] => if hasPath then some o else none
  | argument :: rest =>
    if argument = "--stats" then
      parseFrom { o with stats := true } hasPath rest
    else
      let (name, assigned) := splitAssignment argument
      match numberOption? name, assigned, rest with
      | some option, some text, rest => do
        let n ← numeral? text
        parseFrom (setNumber o option n) hasPath rest
      | some option, none, text :: rest => do
        let n ← numeral? text
        parseFrom (setNumber o option n) hasPath rest
      | some _, none, [] => none
      | none, _, rest =>
        if hasPath || argument.startsWith "--" then none
        else parseFrom { o with path := argument } true rest

/-- Reads the arguments of the command line. -/
def parse? (arguments : List String) : Option Options :=
  parseFrom { path := "", maxSteps := none, table := .standard, stats := false } false arguments

/-- The lines that report statistics. -/
def statisticsLines (s : Statistics) : List String := [
  s!"bytecodes:          {s.bytecodes}",
  s!"sends:              {s.sends}",
  s!"method cache:       {s.methodCacheHits} hits, {s.methodCacheMisses} misses",
  s!"doesNotUnderstand:  {s.doesNotUnderstand}",
  s!"primitive failures: {s.primitiveFailures}",
  s!"contexts:           {s.contextsAllocated} allocated, {s.contextsRecycled} recycled",
  s!"process switches:   {s.processSwitches}",
  s!"reclamations:       {s.reclamations} ({s.objectsReclaimed} objects freed)",
  s!"object table:       {s.liveObjects} live of {s.tableCapacity}"]

/-- Lines as text. -/
def unlines (lines : List String) : String := String.join (lines.map (· ++ "\n"))

/-- What is left of a run in which a check of the machine's own fails. -/
def panicked (p : Panic) : Outcome := { code := 101, stdout := "", stderr := unlines [p.text] }

/-- Runs the image in a file, if there is such a file. -/
def run (o : Options) (file : Option (List UInt8)) : Outcome :=
  match boot o.path file o.table with
  | .error (.panic p) => panicked p
  | .error e =>
    { code := 1, stdout := "", stderr := unlines [s!"Error loading image '{o.path}': {e.text}"] }
  | .ok machine =>
    let report (m : Machine) := if o.stats then statisticsLines m.statistics else []
    match Action.run o.maxSteps machine with
    | .ok .quit m => { code := 0, stdout := unlines (report m), stderr := "" }
    | .ok .stepLimit m =>
      let stopped := s!"stopped after {m.counters.bytecodes} bytecodes"
      { code := 0, stdout := unlines (report m ++ [stopped]), stderr := "" }
    | .error (.panic p) _ => panicked p
    | .error e m =>
      { code := 1, stdout := unlines (report m), stderr := unlines [s!"fatal: {e.text}"] }

end Smalltalk.CommandLine
