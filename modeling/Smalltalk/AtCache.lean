import Smalltalk.Value

/-!
# At-cache

The bounds and layout of arrays that were recently accessed by a plain `at:` or `at:put:`, so that
the next such access needs no send. There is one table for each kind of access, with a place for
each value of the low five bits of the identity hash.
-/

namespace Smalltalk

/-- A kind of indexed access. -/
inductive Access where
  | at
  | atPut
  deriving DecidableEq, Inhabited, Repr

/-- What is remembered about an array. -/
structure AtEntry where
  array : Value
  /-- How many indexed elements it has. -/
  size : Nat
  /-- How many pointer fields stand before the first. -/
  offset : Nat
  /-- Whether bytes are read and written as characters. -/
  asCharacters : Bool
  deriving DecidableEq, Inhabited, Repr

/-- The arrays that are remembered. -/
structure AtCache where
  reads : Array (Option AtEntry)
  writes : Array (Option AtEntry)
  deriving DecidableEq, Inhabited, Repr

namespace AtCache

/-- The number of places of a table. -/
def capacity : Nat := 32

/-- The cache that remembers nothing. -/
def empty : AtCache where
  reads := Array.replicate capacity none
  writes := Array.replicate capacity none

/-- The place of an identity hash. -/
def place (hash : UInt16) : Nat := hash.toNat % capacity

/-- What is remembered about an array for a kind of access. -/
def find (c : AtCache) (access : Access) (array : Value) (hash : UInt16) : Option AtEntry :=
  let table := match access with
    | .at => c.reads
    | .atPut => c.writes
  (table[place hash]?).join.filter fun e => e.array == array

/-- Remembers an array for a kind of access. -/
def install (c : AtCache) (access : Access) (hash : UInt16) (e : AtEntry) : AtCache :=
  match access with
  | .at => { c with reads := c.reads.setIfInBounds (place hash) (some e) }
  | .atPut => { c with writes := c.writes.setIfInBounds (place hash) (some e) }

end AtCache

end Smalltalk
