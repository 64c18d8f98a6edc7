import Smalltalk.Double
import Smalltalk.Primitive.Basic

/-!
# Device primitives

Display, raster engine, mouse and keyboard. Forms are copied out of the heap before a device sees
them, and the bits a transfer changed are copied back.
-/

namespace Smalltalk

namespace Attempt

open Device

/-- A 32-bit integer. -/
def integer32 (v : Value) : Attempt Int := do
  let n ← ofOption v.asSmall?
  require (-0x80000000 ≤ n ∧ n < 0x80000000)
  return n

/-- The words of a bitmap. -/
def wordsOf? (v : Value) : Attempt (Option (Array UInt32)) := do
  return (← Action.object? v).bind Object.words?

/-- Field `i` of an object that was read before. -/
def fieldOf (o : Object) (i : Nat) : Attempt Value := ofOption o.pointers[i]?

/-- Copies a form out of the heap: its fields are bits, width, height and depth. -/
def loadForm (v : Value) : Attempt Form := do
  let o ← ofOption (← Action.object? v)
  require (4 ≤ o.pointers.size)
  let width ← integer32 (← fieldOf o 1)
  let height ← integer32 (← fieldOf o 2)
  let depth ← integer32 (← fieldOf o 3)
  require (0 ≤ width ∧ 0 ≤ height)
  let bits ← ofOption (← wordsOf? (← fieldOf o 0))
  return { bits, width, height, depth := depth.natAbs }

/-- Copies bits back into the bitmap of a form. -/
def storeBits (form : Value) (bits : Array UInt32) : Action Unit := do
  let bitmap ← Action.fetch form 0
  match (← Action.object bitmap).words? with
  | none => throw (.malformed .formBitmap bitmap)
  | some words =>
    let count := min words.size bits.size
    let words := bits.extract 0 count ++ words.extract count words.size
    Action.modifyMemory fun m => m.modify bitmap fun o => { o with body := .words words }

/-- A coordinate: an integer, the integral part of a number, or `default` for nil. -/
def coordinate (v : Value) (default : Int) : Attempt Int := do
  if v = (← Action.nil) then
    return default
  match v with
  | .small _ => integer32 v
  | _ =>
    let bits ← floatValue v
    require (Double.isBetween (-0x80000000) 0x7FFFFFFF bits)
    return Double.truncate bits

/-- Four coordinates from field `start` on. -/
def rectAt (o : Object) (start : Nat) (default : Rect) : Attempt Rect := do
  let x ← coordinate (← fieldOf o start) default.x
  let y ← coordinate (← fieldOf o (start + 1)) default.y
  let width ← coordinate (← fieldOf o (start + 2)) default.width
  let height ← coordinate (← fieldOf o (start + 3)) default.height
  return { x, y, width, height }

/-- A halftone: a form, or words alone. -/
def loadHalftone (v : Value) : Attempt (Option (Array UInt32)) := do
  if v = (← Action.nil) then
    return none
  match ← wordsOf? v with
  | some words => return some words
  | none => return some (← loadForm v).bits

/-- The alpha of a transfer: the blending rules need one, the others ignore it. -/
def alphaFor (rule : Int) (alpha : Option Int) : Attempt (Option Int) := do
  if rule = 30 ∨ rule = 31 then
    let alpha ← ofOption alpha
    require (0 ≤ alpha ∧ alpha ≤ 255)
    return some alpha
  else
    return none

/-- Copies a transfer out of the heap. Its clip rectangle is cut to the destination. -/
def loadBlit (v : Value) (alpha : Option Int) : Attempt Blit := do
  let o ← ofOption (← Action.object? v)
  require (14 ≤ o.pointers.size)
  let rule ← integer32 (← fieldOf o 3)
  require (0 ≤ rule ∧ rule ≤ 39 ∧ rule ≠ 16 ∧ rule ≠ 17)
  let nil ← Action.nil
  let dest ← loadForm (← fieldOf o 0)
  let sourceForm ← fieldOf o 1
  let source ← if sourceForm = nil then pure none else some <$> loadForm sourceForm
  let halftone ← loadHalftone (← fieldOf o 2)
  let destRect ← rectAt o 4 { x := 0, y := 0, width := 0, height := 0 }
  let sourceX ← if source.isSome then coordinate (← fieldOf o 8) 0 else pure 0
  let sourceY ← if source.isSome then coordinate (← fieldOf o 9) 0 else pure 0
  let whole : Rect := { x := 0, y := 0, width := dest.width, height := dest.height }
  let clip ← Action.ofExcept ((← rectAt o 10 whole).clipTo whole)
  let colorMap ← match o.pointers[14]? with
    | none => pure none
    | some map => if map = nil then pure none else some <$> (do ofOption (← wordsOf? map))
  let alpha ← alphaFor rule alpha
  return {
    dest, source, halftone, rule, destRect, sourceX, sourceY, clip, colorMap, alpha
    bitCount := 0 }

/-- Applies a function to the devices. -/
def onDevices (f : Devices → α × Devices) : Attempt α := fun m =>
  let (a, devices) := f m.devices
  .ok a { m with devices }

/-- Records a request. -/
def recordRequest (r : Request) : Attempt Unit := onDevices fun d => ((), d.record r)

end Attempt

namespace Primitive

open Attempt Device

/-- The point of two integers. -/
def integerPoint (p : Int × Int) : Action Value := do
  Action.makePoint (← Action.immediate p.1) (← Action.immediate p.2)

/-- Where the mouse is. -/
def mousePoint : PrimitiveAction := fun _ => do
  answer 0 (← integerPoint (← get).devices.mouse)

/-- Carries out the transfer that `receiver` describes. Two rules count pixels and answer how many. -/
def transferBits (argCount : Nat) (receiver : Value) (alpha : Option Int) : Attempt Completion := do
  let blit ← loadBlit receiver alpha
  let (blit, area) ← ofOption (← onDevices fun d => d.copyBits blit)
  let dest ← Action.fetch receiver 0
  storeBits dest blit.dest.bits
  match area with
  | none => pure ()
  | some area =>
    if dest = (← Action.special Special.theDisplay) then
      recordRequest (.showArea blit.dest area)
  Action.popN argCount
  if blit.rule = 22 ∨ blit.rule = 32 then
    answer 0 (← Action.immediate blit.bitCount)
  else
    return .done

/-- Carries out a transfer; an argument is its alpha. -/
def copyBits : PrimitiveAction := fun argCount => do
  require (argCount ≤ 1)
  let receiver ← stackObject argCount
  if argCount = 1 then
    transferBits argCount receiver (some (← stackInteger 0))
  else
    transferBits argCount receiver none

/-- Makes a form the cursor; its offset is a point. A mask is ignored. -/
def beCursor : PrimitiveAction := fun argCount => do
  require (argCount ≤ 1)
  let cursor ← stackObject argCount
  let form ← loadForm cursor
  let offset ← orDecline (Action.fetch cursor 4)
  require (← Action.isInstanceOf offset Special.classPoint)
  let x ← integer32 (← Action.fetch offset 0)
  let y ← integer32 (← Action.fetch offset 1)
  recordRequest (.cursor form x y)
  Action.popN argCount
  return .done

/-- Makes a form the display. -/
def beDisplay : PrimitiveAction := fun _ => do
  let display ← stackObject 0
  let form ← loadForm display
  let accepted ← onDevices fun d => d.setDisplay form
  require accepted
  Action.store (← get).specials.array Special.theDisplay display
  return .done

/-- The size of the display. -/
def screenSize : PrimitiveAction := fun _ => do
  answer 0 (← integerPoint (← get).devices.displaySize)

/-- The mouse buttons that are pressed. -/
def mouseButtons : PrimitiveAction := fun _ => do
  answer 0 (← Action.immediate (← get).devices.buttons)

/-- The code of a key, or nil. -/
def keyCode : Option Int → Action Value
  | some key => Action.immediate key
  | none => Action.nil

/-- The next key, which is taken out of the queue, or nil. -/
def keyboardNext : PrimitiveAction := fun _ => do
  let key ← onDevices fun d => (d.keys.head?, { d with keys := d.keys.tail })
  answer 0 (← keyCode key)

/-- The next key, which stays in the queue, or nil. -/
def keyboardPeek : PrimitiveAction := fun _ => do
  answer 0 (← keyCode (← get).devices.keys.head?)

/-- Exchanges the colours of the display. -/
def reverseDisplay : PrimitiveAction := fun _ => do
  onDevices fun d => ((), d.reverse)
  return .done

end Primitive

end Smalltalk
