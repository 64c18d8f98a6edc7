import Smalltalk.Lookup.Dictionary

/-!
# Method cache

Answers of method lookup are remembered in 1024 places. A pair of a selector and a class has four
places, given by the two hashes; a new answer takes the first empty one, or replaces the one whose
turn it is.
-/

namespace Smalltalk

/-- A remembered answer of method lookup. -/
structure CacheEntry where
  /-- The selector that was looked up. -/
  selector : Value
  /-- The class the lookup started at. -/
  cls : Value
  /-- The method that was found. -/
  method : Value
  /-- The primitive number in its header. -/
  primitive : Nat
  deriving DecidableEq, Inhabited, Repr

/-- The remembered answers. -/
structure MethodCache where
  /-- The places. -/
  entries : Array (Option CacheEntry)
  /-- Which of the four places is replaced next. -/
  turn : Nat
  /-- How many lookups were answered from the cache. -/
  hits : Nat
  /-- How many were not. -/
  misses : Nat
  deriving DecidableEq, Inhabited, Repr

namespace MethodCache

/-- The number of places. -/
def capacity : Nat := 1024

/-- The number of places a pair may take. -/
def probeCount : Nat := 4

/-- The cache that remembers nothing. -/
def empty : MethodCache where
  entries := Array.replicate capacity none
  turn := 0
  hits := 0
  misses := 0

/-- The places of a pair, in the order they are tried. -/
def probes (selectorHash classHash : UInt16) : List Nat :=
  (List.range probeCount).map fun i =>
    ((selectorHash ^^^ classHash).toNat + i * selectorHash.toNat) % capacity

/-- The entry at a place. -/
def entry (c : MethodCache) (place : Nat) : Option CacheEntry := (c.entries[place]?).join

/-- What is remembered for a selector and a class. -/
def find (c : MethodCache) (selector : Value) (selectorHash : UInt16) (cls : Value)
    (classHash : UInt16) : Option CacheEntry :=
  ((probes selectorHash classHash).filterMap c.entry).find? fun e =>
    e.selector == selector && e.cls == cls

/-- What is remembered for a selector and a class, counting a hit or a miss. -/
def probe (c : MethodCache) (selector : Value) (selectorHash : UInt16) (cls : Value)
    (classHash : UInt16) : Option CacheEntry × MethodCache :=
  match c.find selector selectorHash cls classHash with
  | some e => (some e, { c with hits := c.hits + 1 })
  | none => (none, { c with misses := c.misses + 1 })

/-- The place a new answer takes: the first empty one, or the one whose turn it is. -/
def placeFor (c : MethodCache) (turn : Nat) (places : List Nat) : Option Nat :=
  match places.find? fun place => (c.entry place).isNone with
  | some place => some place
  | none => places[turn]?

/-- Remembers an answer. -/
def install (c : MethodCache) (e : CacheEntry) (selectorHash classHash : UInt16) : MethodCache :=
  let turn := (c.turn + 1) % probeCount
  match c.placeFor turn (probes selectorHash classHash) with
  | some place => { c with turn, entries := c.entries.setIfInBounds place (some e) }
  | none => { c with turn }

/-- Forgets everything. -/
def clear (c : MethodCache) : MethodCache := { c with entries := Array.replicate capacity none }

/-- Forgets the entries that satisfy `p`. -/
def forget (c : MethodCache) (p : CacheEntry → Bool) : MethodCache :=
  { c with entries := c.entries.map fun e => e.filter fun e => !p e }

/-- Forgets all answers for a selector. -/
def flushSelector (c : MethodCache) (selector : Value) : MethodCache :=
  c.forget fun e => e.selector == selector

/-- Forgets all answers that are a method. -/
def flushMethod (c : MethodCache) (method : Value) : MethodCache :=
  c.forget fun e => e.method == method

end MethodCache

/-- The method for a selector together with its primitive, without any cache. -/
def lookupEntry (m : Memory) (cls selector nil : Value) : Except Fault (Option CacheEntry) := do
  match ← findMethod m cls selector nil with
  | none => return none
  | some method =>
    let header ← MethodHeader.of m method
    return some { selector, cls, method, primitive := header.primitive }

/-- The method for a selector, from the cache if it is there; an answer that had to be looked up
is remembered. -/
def cachedLookup (m : Memory) (cls selector nil : Value) :
    EStateM Fault MethodCache (Option CacheEntry) := fun c =>
  let selectorHash := Dictionary.selectorHash m selector
  match m.get? cls with
  | none => .error (.invalidReference cls) c
  | some o =>
    match c.probe selector selectorHash cls o.hash with
    | (some e, c) => .ok (some e) c
    | (none, c) =>
      match lookupEntry m cls selector nil with
      | .error e => .error e c
      | .ok none => .ok none c
      | .ok (some e) => .ok (some e) (c.install e selectorHash o.hash)

end Smalltalk
