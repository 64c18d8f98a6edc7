/-!
# File contents

The bytes of a file are runs of bytes at their positions, the latest first. A position before the
end that no run covers holds zero, so writing far behind the end costs no more than what is written.
`byte_write` says what a write changes: the bytes that were written, and nothing else.
-/

namespace Smalltalk.Device

/-- Bytes from a position on. -/
structure Run where
  start : Nat
  bytes : Array UInt8
  deriving DecidableEq, Inhabited, Repr

namespace Run

/-- The bytes with `part` in place of what stood at `offset`, or at the end. -/
def splice (bytes : Array UInt8) (offset : Nat) (part : Array UInt8) : Array UInt8 :=
  bytes.extract 0 offset ++ part ++ bytes.extract (offset + part.size) bytes.size

theorem getElem?_splice {bytes : Array UInt8} {offset : Nat} (part : Array UInt8) (k : Nat)
    (h : offset ≤ bytes.size) :
    (splice bytes offset part)[k]? =
      if k < offset then bytes[k]? else part[k - offset]?.or bytes[k]? := by
  have hmin : min offset bytes.size = offset := by omega
  unfold splice
  split
  · rw [Array.append_assoc, Array.getElem?_append_left (by simp; omega)]
    grind
  · by_cases hk : k - offset < part.size
    · rw [Array.getElem?_append_left (by simp; omega),
        Array.getElem?_append_right (by simp; omega)]
      simp [hmin, hk]
    · rw [Array.getElem?_append_right (by simp; omega), Array.getElem?_extract]
      grind

/-- The position after the last byte. -/
def stop (r : Run) : Nat := r.start + r.bytes.size

/-- The byte at a position, if the run covers it. -/
def byte? (r : Run) (position : Nat) : Option UInt8 :=
  if r.start ≤ position then r.bytes[position - r.start]? else none

/-- The run with `part` written at a position in it or at its end. -/
def overwrite (r : Run) (position : Nat) (part : Array UInt8) : Run :=
  { r with bytes := splice r.bytes (position - r.start) part }

/-- The bytes that were written are as written, and the others as they were. -/
theorem byte?_overwrite {r : Run} {position : Nat} (part : Array UInt8) (i : Nat)
    (h : r.start ≤ position) (h' : position ≤ r.stop) :
    (r.overwrite position part).byte? i = ((⟨position, part⟩ : Run).byte? i).or (r.byte? i) := by
  obtain ⟨offset, rfl⟩ := Nat.le.dest h
  simp only [stop, Nat.add_le_add_iff_left] at h'
  by_cases hi : r.start ≤ i
  · obtain ⟨k, rfl⟩ := Nat.le.dest hi
    simp only [overwrite, byte?, Nat.add_sub_cancel_left, getElem?_splice part k h']
    grind
  · simp [overwrite, byte?, hi]
    omega

end Run

/-- The bytes of a file. -/
structure Contents where
  runs : List Run
  deriving DecidableEq, Inhabited, Repr

namespace Contents

/-- The contents that are just those bytes. -/
def ofBytes (bytes : Array UInt8) : Contents := ⟨[⟨0, bytes⟩]⟩

/-- The number of bytes. -/
def size (c : Contents) : Nat := c.runs.foldl (fun n r => max n r.stop) 0

/-- The byte at a position. -/
def byte (c : Contents) (position : Nat) : UInt8 := (c.runs.findSome? (·.byte? position)).getD 0

/-- The bytes from `start` to before `stop`, as far as there are any. -/
def extract (c : Contents) (start stop : Nat) : Array UInt8 :=
  (Array.range (min stop c.size - start)).map fun i => c.byte (start + i)

/-- All bytes. -/
def toArray (c : Contents) : Array UInt8 := c.extract 0 c.size

/-- The contents with `part` written at a position. Writing in the latest run or at its end changes
that run, so a file that is written from front to back stays one run. -/
def write (c : Contents) (position : Nat) (part : Array UInt8) : Contents :=
  match c.runs with
  | [] => ⟨[⟨position, part⟩]⟩
  | r :: rest =>
    if r.start ≤ position ∧ position ≤ r.stop then
      ⟨r.overwrite position part :: rest⟩
    else
      ⟨⟨position, part⟩ :: r :: rest⟩

theorem byte_write (c : Contents) (position : Nat) (part : Array UInt8) (i : Nat) :
    (c.write position part).byte i = ((⟨position, part⟩ : Run).byte? i).getD (c.byte i) := by
  unfold write
  split
  · next h => simp [byte, h, List.findSome?]; grind
  · next r rest h =>
    split
    · next hr =>
      simp only [byte, h, List.findSome?_cons, Run.byte?_overwrite part i hr.1 hr.2]
      grind
    · simp only [byte, h, List.findSome?_cons]
      grind

end Contents

end Smalltalk.Device
