import Smalltalk.Machine.Inspect
import Smalltalk.Image.Load

/-!
# Booting

A machine is booted from the bytes of an image file: the image is loaded and its active process goes
on where it was suspended.
-/

namespace Smalltalk

/-- The script of devices without a window. Files have the time of the clock. -/
def headlessScript (clock : Clock) : Device.Script :=
  { Device.Script.plain with created := clock.seconds, modified := clock.seconds }

/-- The machine that an image starts with. The image file, if there is one, stands in the working
directory under its name. -/
def boot (path : String) (file : Option (List UInt8)) (table : TableSettings) :
    Except Fault Machine := do
  match file with
  | none => throw (.image .missingFile)
  | some bytes =>
    let loaded ← Image.load bytes table
    let files := Device.FileSystem.scratch
    let files := files.createFile (files.start path ++ Text.components path) bytes.toArray
    let devices := Device.Devices.idle (headlessScript {}) files
    let machine := Machine.create loaded.memory loaded.specials {} devices
    match Action.loadInitialContext { machine with imagePath := some path } with
    | .ok _ machine => return machine
    | .error e _ => throw e

end Smalltalk
