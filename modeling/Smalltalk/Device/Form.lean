import Smalltalk.Fault

/-!
# Forms and transfers

A form is a rectangle of pixels, copied out of the heap. A bit block transfer combines a source
form, a halftone and a destination form inside a clip rectangle. Coordinates are 32-bit integers,
and so must be the corners that are computed from them.
-/

namespace Smalltalk.Device

/-- A rectangle of pixels. -/
structure Rect where
  x : Int
  y : Int
  width : Int
  height : Int
  deriving DecidableEq, Inhabited, Repr

/-- Where the range of `length` pixels from `start` on ends. -/
def farEnd (start length : Int) : Except Fault Int := Width.integer32.check (start + length)

/-- How many pixels there are from `start` up to `stop`. -/
def extent (start stop : Int) : Except Fault Int :=
  return max (← Width.integer32.check (stop - start)) 0

/-- The part of a rectangle inside others bounds. -/
def Rect.clipTo (r bounds : Rect) : Except Fault Rect := do
  let x := max r.x bounds.x
  let y := max r.y bounds.y
  let right := min (← farEnd r.x r.width) (← farEnd bounds.x bounds.width)
  let bottom := min (← farEnd r.y r.height) (← farEnd bounds.y bounds.height)
  return { x, y, width := ← extent x right, height := ← extent y bottom }

/-- The words of a bitmap and how they are arranged. -/
structure Form where
  bits : Array UInt32
  width : Int
  height : Int
  depth : Int
  deriving DecidableEq, Inhabited, Repr

/-- All that a bit block transfer depends on. -/
structure Blit where
  dest : Form
  source : Option Form
  halftone : Option (Array UInt32)
  rule : Int
  destRect : Rect
  sourceX : Int
  sourceY : Int
  clip : Rect
  colorMap : Option (Array UInt32)
  alpha : Option Int
  /-- The number of pixels, for the rules that count them. -/
  bitCount : Int
  deriving DecidableEq, Inhabited, Repr

end Smalltalk.Device
