import Smalltalk.Fault

/-!
# Image streams

An image is a stream of bytes that stand for 32-bit words in one of two byte orders. It starts with
a version word, by which the order is recognised, and a header of eight more words. The header
says how long it is itself; the object records follow it.
-/

namespace Smalltalk.Image

/-- How the bytes of a word are ordered. -/
inductive ByteOrder where
  /-- Most significant byte first. -/
  | big
  /-- Least significant byte first. -/
  | little
  deriving DecidableEq, Inhabited, Repr

/-- The word of four bytes, most significant first. -/
def wordOfBytes (a b c d : UInt8) : UInt32 :=
  a.toUInt32 <<< 24 ||| b.toUInt32 <<< 16 ||| c.toUInt32 <<< 8 ||| d.toUInt32

/-- The four bytes of a word, most significant first. -/
def bytesOfWord (w : UInt32) : List UInt8 :=
  [(w >>> 24).toUInt8, (w >>> 16).toUInt8, (w >>> 8).toUInt8, w.toUInt8]

/-- The word of four bytes in stream order. -/
def ByteOrder.word : ByteOrder → UInt8 → UInt8 → UInt8 → UInt8 → UInt32
  | big, a, b, c, d => wordOfBytes a b c d
  | little, a, b, c, d => wordOfBytes d c b a

/-- The whole words at the front of a stream; up to three bytes may be left over. -/
def ByteOrder.words (order : ByteOrder) : List UInt8 → List UInt32
  | a :: b :: c :: d :: rest => order.word a b c d :: order.words rest
  | _ => []

/-- The first word of a stream. -/
def ByteOrder.read (order : ByteOrder) : List UInt8 → Except ImageFault (UInt32 × List UInt8)
  | a :: b :: c :: d :: rest => .ok (order.word a b c d, rest)
  | _ => .error .endOfStream

/-- The version word of an image. -/
def magic : UInt32 := 6502

/-- The header of an image. -/
structure Header where
  /-- The length of the header in bytes. -/
  headerSize : UInt32
  /-- The length of the object records in bytes. -/
  endOfMemory : UInt32
  /-- The address that the first record had when the image was saved. -/
  baseAddress : UInt32
  /-- The address of the special objects array. -/
  specialObjects : UInt32
  /-- The state of the identity hash sequence. -/
  lastHash : UInt32
  /-- The size of the window. -/
  windowSize : UInt32
  /-- Whether the window filled the screen. -/
  fullScreen : UInt32
  /-- Memory that was set aside. -/
  extraMemory : UInt32
  /-- Whether the stream has its least significant bytes first. -/
  swapped : Bool
  deriving DecidableEq, Inhabited, Repr

/-- How many bytes of the header are read, the version word included. -/
def headerBytes : Nat := 36

/-- Reads the version word and tells the byte order by it. -/
def readMagic (bytes : List UInt8) : Except ImageFault (ByteOrder × List UInt8) := do
  let (word, rest) ← ByteOrder.big.read bytes
  if word = magic then
    return (.big, rest)
  else
    let (swapped, rest) ← ByteOrder.little.read bytes
    if swapped = magic then return (.little, rest) else throw (.badMagic word)

/-- Reads the header after the version word and skips what it has beyond the known words. -/
def readHeader (order : ByteOrder) (bytes : List UInt8) :
    Except ImageFault (Header × List UInt8) := do
  let (headerSize, bytes) ← order.read bytes
  let (endOfMemory, bytes) ← order.read bytes
  let (baseAddress, bytes) ← order.read bytes
  let (specialObjects, bytes) ← order.read bytes
  let (lastHash, bytes) ← order.read bytes
  let (windowSize, bytes) ← order.read bytes
  let (fullScreen, bytes) ← order.read bytes
  let (extraMemory, bytes) ← order.read bytes
  if headerSize.toNat < headerBytes then
    throw (.malformedRecord 0 .shortFileHeader)
  let skip := headerSize.toNat - headerBytes
  if bytes.length < skip then
    throw .truncatedHeader
  let header := {
    headerSize, endOfMemory, baseAddress, specialObjects, lastHash, windowSize, fullScreen,
    extraMemory, swapped := order = .little }
  return (header, bytes.drop skip)

end Smalltalk.Image
