import Smalltalk.CommandLine

/-!
# The program

Reads the image file, runs it, and prints what the run reports.
-/

namespace Smalltalk

/-- The bytes of a file, if it can be read. -/
def readFile? (path : String) : IO (Option (List UInt8)) := do
  try
    let bytes ← IO.FS.readBinFile path
    return some bytes.toList
  catch _ =>
    return none

/-- How the program is called. -/
def usage : String :=
  "usage: smalltalk IMAGE [--max-steps N] [--table-max N] [--table-min N] [--stats]"

end Smalltalk

/-- Runs the image that the arguments name. -/
def main (arguments : List String) : IO UInt32 := do
  match Smalltalk.CommandLine.parse? arguments with
  | none =>
    IO.eprintln Smalltalk.usage
    return 2
  | some options =>
    let outcome := Smalltalk.CommandLine.run options (← Smalltalk.readFile? options.path)
    IO.print outcome.stdout
    IO.eprint outcome.stderr
    return outcome.code.toUInt32
