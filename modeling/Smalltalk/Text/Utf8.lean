/-!
# Text of bytes

Byte strings are read as UTF-8. A sequence that is not well formed is replaced by the replacement
character, once for each longest part that starts a well-formed character, or for each byte that
starts none.
-/

namespace Smalltalk.Text

/-- What stands for bytes that are no text. -/
def replacement : Char := '\uFFFD'

/-- Whether a byte continues a character. -/
def isContinuation (b : UInt8) : Bool := 0x80 ≤ b && b ≤ 0xBF

/-- Whether `second` may follow the first byte of a character of three or four bytes. -/
def mayFollow (first second : UInt8) : Bool :=
  let low : UInt8 := if first = 0xE0 then 0xA0 else if first = 0xF0 then 0x90 else 0x80
  let high : UInt8 := if first = 0xED then 0x9F else if first = 0xF4 then 0x8F else 0xBF
  low ≤ second && second ≤ high

/-- The low six bits of a continuation byte. -/
def tail (b : UInt8) : Nat := b.toNat % 64

/-- The character that starts with the byte `first`, and how many of the following bytes belong to
it or to its ill-formed beginning. -/
def firstChar (first : UInt8) (rest : List UInt8) : Char × Nat :=
  let a := first.toNat
  if first < 0x80 then
    (Char.ofNat a, 0)
  else if 0xC2 ≤ first && first ≤ 0xDF then
    match rest with
    | b :: _ =>
      if isContinuation b then (Char.ofNat (a % 32 * 64 + tail b), 1) else (replacement, 0)
    | [] => (replacement, 0)
  else if 0xE0 ≤ first && first ≤ 0xEF then
    match rest with
    | b :: rest =>
      if mayFollow first b then
        match rest with
        | c :: _ =>
          if isContinuation c then (Char.ofNat ((a % 16 * 64 + tail b) * 64 + tail c), 2)
          else (replacement, 1)
        | [] => (replacement, 1)
      else (replacement, 0)
    | [] => (replacement, 0)
  else if 0xF0 ≤ first && first ≤ 0xF4 then
    match rest with
    | b :: rest =>
      if mayFollow first b then
        match rest with
        | c :: rest =>
          if isContinuation c then
            match rest with
            | d :: _ =>
              if isContinuation d then
                (Char.ofNat (((a % 8 * 64 + tail b) * 64 + tail c) * 64 + tail d), 3)
              else (replacement, 2)
            | [] => (replacement, 2)
          else (replacement, 1)
        | [] => (replacement, 1)
      else (replacement, 0)
    | [] => (replacement, 0)
  else
    (replacement, 0)

/-- The characters of a byte string. -/
def decodeChars (bytes : List UInt8) : List Char :=
  match bytes with
  | [] => []
  | first :: rest =>
    let (c, used) := firstChar first rest
    c :: decodeChars (rest.drop used)
termination_by bytes.length
decreasing_by simp only [List.length_drop, List.length_cons]; omega

/-- The text of a byte string. -/
def decode (bytes : Array UInt8) : String := String.ofList (decodeChars bytes.toList)

/-- The bytes of a text. -/
def encode (text : String) : Array UInt8 := text.toUTF8.data

end Smalltalk.Text
