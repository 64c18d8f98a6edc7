import Smalltalk.Memory.Basic

/-!
# Method headers

The first pointer of a compiled method is an integer that packs its frame and primitive:

    bits 28-29  high part of the primitive number
    bits 24-27  number of arguments
    bits 18-23  number of temporaries, arguments included
    bit  17     whether it needs a large frame
    bits 9-16   number of literals
    bits 0-8    low part of the primitive number
-/

namespace Smalltalk

/-- The header of a compiled method. -/
structure MethodHeader where
  /-- The packed integer. -/
  word : Int
  deriving DecidableEq, Inhabited, Repr

namespace MethodHeader

/-- The bits of the header from `low` on, as many as `width` tells. -/
def bits (h : MethodHeader) (low width : Nat) : Nat := ((h.word >>> low) % (1 <<< width : Nat)).toNat

theorem bits_lt (h : MethodHeader) (low width : Nat) : h.bits low width < 1 <<< width := by
  have hpos : (0 : Int) < (1 <<< width : Nat) :=
    Int.natCast_pos.2 (Nat.one_shiftLeft width ▸ Nat.two_pow_pos width)
  have hlt := Int.emod_lt_of_pos (h.word >>> low) hpos
  have hnonneg := Int.emod_nonneg (h.word >>> low) (Int.ne_of_gt hpos)
  unfold bits
  omega

/-- How many literals follow the header. -/
def literalCount (h : MethodHeader) : Nat := h.bits 9 8

theorem literalCount_lt (h : MethodHeader) : h.literalCount < 256 := h.bits_lt 9 8

/-- How many arguments the method takes. -/
def argCount (h : MethodHeader) : Nat := h.bits 24 4

/-- How many temporaries a frame has, arguments included. -/
def tempCount (h : MethodHeader) : Nat := h.bits 18 6

theorem tempCount_lt (h : MethodHeader) : h.tempCount < 64 := h.bits_lt 18 6

/-- Whether the method needs a large frame. -/
def largeFrame (h : MethodHeader) : Bool := h.bits 17 1 == 1

/-- The number of the primitive to try first; zero stands for none. -/
def primitive (h : MethodHeader) : Nat := h.bits 0 9 + h.bits 28 2 * 512

/-- Packs a header. Each part keeps as many low bits as it has room for. -/
def encode (argCount tempCount literalCount : Nat) (largeFrame : Bool) (primitive : Nat) :
    MethodHeader where
  word := (primitive % 512 + literalCount % 256 * 0x200 + (if largeFrame then 0x20000 else 0) +
    tempCount % 64 * 0x40000 + argCount % 16 * 0x1000000 + primitive / 512 % 4 * 0x10000000 : Nat)

/-- The header of the method a value refers to. -/
def of (m : Memory) (method : Value) : Except Fault MethodHeader :=
  match m.get? method with
  | none => .error (.invalidReference method)
  | some o =>
    match o.pointers[0]? with
    | some (Value.small word) => .ok ⟨word⟩
    | _ => .error (.malformed .methodHeader method)

end MethodHeader

end Smalltalk
