import Smalltalk.Device.FileSystem
import Smalltalk.Device.Form

/-!
# Devices

The devices the primitives talk to: a display, a raster engine, a mouse, a keyboard, the event flag
and the file system. They are scripted: a script says what the raster engine paints, which requests
are refused, and how files present themselves. Requests are recorded.
-/

namespace Smalltalk.Device

/-- What the devices do when they are asked. -/
structure Script where
  /-- The word the raster engine paints the destination with, if it paints. -/
  fill : Option UInt32
  /-- Whether the raster engine refuses. -/
  rasterFails : Bool
  /-- Whether the display refuses a form. -/
  displayFails : Bool
  /-- When files were created, in seconds since 1901. -/
  created : Int
  /-- When files were last changed. -/
  modified : Int
  /-- What stands between the components of a path name. -/
  delimiter : Char
  /-- What is added to the handle of an open file, in 32 bits. -/
  handleBase : Nat
  /-- What is added to positions and sizes. -/
  sizeBonus : Nat
  deriving DecidableEq, Inhabited, Repr

/-- The script without refusals and additions. -/
def Script.plain : Script where
  fill := none
  rasterFails := false
  displayFails := false
  created := 0
  modified := 0
  delimiter := '/'
  handleBase := 0
  sizeBonus := 0

/-- A request that reached a device. -/
inductive Request where
  | blit (blit : Blit)
  | setDisplay (form : Form)
  | showArea (form : Form) (area : Rect)
  | cursor (form : Form) (x y : Int)
  | reversed (flag : Bool)
  | close (handle : Nat) (succeeded : Bool)
  deriving DecidableEq, Inhabited, Repr

/-- The devices and what they have been asked. -/
structure Devices where
  script : Script
  /-- Width and height of the display. -/
  displaySize : Int × Int
  /-- Whether the display is reversed. -/
  reversed : Bool
  /-- Position of the mouse. -/
  mouse : Int × Int
  /-- The mouse buttons that are pressed. -/
  buttons : Int
  /-- The keys that were pressed and not read yet, in order. -/
  keys : List Int
  /-- Whether an event has happened that nobody waited for yet. -/
  eventRaised : Bool
  /-- The requests, the last one first. -/
  requests : List Request
  files : FileSystem
  deriving DecidableEq, Inhabited, Repr

namespace Devices

/-- The devices before anything happened. -/
def idle (script : Script) (files : FileSystem) : Devices where
  script
  displaySize := (640, 480)
  reversed := false
  mouse := (0, 0)
  buttons := 0
  keys := []
  eventRaised := false
  requests := []
  files

/-- Records a request. -/
def record (d : Devices) (r : Request) : Devices := { d with requests := r :: d.requests }

/-- The requests in the order they were made; they are forgotten afterwards. -/
def drain (d : Devices) : List Request × Devices := (d.requests.reverse, { d with requests := [] })

/-- Presses a key. -/
def pressKey (d : Devices) (key : Int) : Devices :=
  { d with keys := d.keys ++ [key], eventRaised := true }

/-- Raises the event flag. -/
def raiseEvent (d : Devices) : Devices := { d with eventRaised := true }

/-- Whether the event flag was raised; it is lowered. -/
def takeEvent (d : Devices) : Bool × Devices := (d.eventRaised, { d with eventRaised := false })

/-- The 32-bit integer that is congruent to `n`. -/
def wrap32 (n : Int) : Int := n.bmod 0x100000000

/-- Carries out a transfer. It answers the transfer as it ends and the area it touched, or nothing
if it is refused. -/
def copyBits (d : Devices) (b : Blit) : Option (Blit × Option Rect) × Devices :=
  let d := d.record (.blit b)
  if d.script.rasterFails then
    (none, d)
  else
    match d.script.fill with
    | none => (some (b, none), d)
    | some word =>
      let dest := { b.dest with bits := Array.replicate b.dest.bits.size word }
      let bitCount := wrap32 (b.clip.width * b.clip.height)
      (some ({ b with dest, bitCount }, some b.clip), d)

/-- Makes a form the display; answers whether it was accepted. -/
def setDisplay (d : Devices) (form : Form) : Bool × Devices :=
  let d := d.record (.setDisplay form)
  if d.script.displayFails then (false, d)
  else (true, { d with displaySize := (form.width, form.height) })

/-- Exchanges the colours of the display. -/
def reverse (d : Devices) : Devices :=
  let d := { d with reversed := !d.reversed }
  d.record (.reversed d.reversed)

/-! ### Files as the guest sees them -/

/-- The guest's name for a handle. -/
def guestHandle (d : Devices) (handle : Nat) : Nat := (handle + d.script.handleBase) % 0x100000000

/-- The handle behind the guest's name for it. -/
def hostHandle (d : Devices) (guest : Nat) : Nat :=
  ((guest : Int) - d.script.handleBase).emod 0x100000000 |>.toNat

/-- Opens a file for the guest. -/
def openFile (d : Devices) (path : String) (writable : Bool) : Option (Nat × Devices) := do
  let (handle, files) ← d.files.openFile path writable
  return (d.guestHandle handle, { d with files })

/-- Closes a file of the guest; answers whether it was open. -/
def closeFile (d : Devices) (guest : Nat) : Bool × Devices :=
  match d.files.close (d.hostHandle guest) with
  | some files => (true, { d with files }.record (.close guest true))
  | none => (false, d.record (.close guest false))

/-- The position of a file of the guest. -/
def position (d : Devices) (guest : Nat) : Option Nat :=
  (d.files.file? (d.hostHandle guest)).map fun file => file.position + d.script.sizeBonus

/-- The size of a file of the guest. -/
def fileSize (d : Devices) (guest : Nat) : Option Nat :=
  (d.files.sizeOf (d.hostHandle guest)).map fun size => size + d.script.sizeBonus

/-- A directory entry as the guest sees it. -/
structure EntryInfo where
  name : String
  created : Int
  modified : Int
  isDirectory : Bool
  size : Nat
  deriving DecidableEq, Inhabited, Repr

/-- Entry `index` of a directory, counting from one. The outer answer is missing when there is no
such directory, the inner one when it has fewer entries. -/
def lookupEntry (d : Devices) (path : String) (index : Nat) : Option (Option EntryInfo) := do
  let entries ← d.files.list path
  return (entries[index - 1]?).map fun (name, e) => {
    name
    created := d.script.created
    modified := d.script.modified
    isDirectory := e == .directory
    size := ((d.files.contentsOf e).map Contents.size).getD 0 + d.script.sizeBonus }

end Devices

end Smalltalk.Device
