import Smalltalk.Context.Layout
import Smalltalk.Memory.Basic

/-!
# Context pool

Method contexts that have returned are kept for reuse on two chains, one for each frame size,
linked through the sender field. A context taken from the pool is wiped.
-/

namespace Smalltalk

/-- The contexts that wait to be reused. -/
structure ContextPool where
  /-- The first small context. -/
  small : Option Value
  /-- The first large context. -/
  large : Option Value
  /-- How many contexts were registered. -/
  allocated : Nat
  /-- How many contexts were put into the pool. -/
  recycled : Nat
  deriving DecidableEq, Inhabited, Repr

namespace ContextPool

/-- The pool without contexts. -/
def empty : ContextPool where
  small := none
  large := none
  allocated := 0
  recycled := 0

/-- Forgets all waiting contexts. -/
def clear (p : ContextPool) : ContextPool := { p with small := none, large := none }

/-- The first contexts of the two chains. -/
def roots (p : ContextPool) : List Value := p.small.toList ++ p.large.toList

/-- The first context of a chain. -/
def head (p : ContextPool) (large : Bool) : Option Value := if large then p.large else p.small

/-- Lets a chain start at another context. -/
def setHead (p : ContextPool) (large : Bool) (context : Option Value) : ContextPool :=
  if large then { p with large := context } else { p with small := context }

/-- Takes a context of the wanted size off its chain and fills it with nil. -/
def take (p : ContextPool) (m : Memory) (large : Bool) (nil : Value) :
    Except Fault (Option (Value × ContextPool × Memory)) :=
  match p.head large with
  | none => .ok none
  | some context =>
    match m.get? context with
    | none => .error (.invalidReference context)
    | some o =>
      let next := (o.pointers[Context.sender]?).getD nil
      let p := p.setHead large (if next = nil then none else some next)
      let wiped := { o with pointers := Array.replicate o.pointers.size nil }
      .ok (some (context, p, m.replace context wiped))

/-- The chain for contexts with `count` fields. -/
def chainFor? (count : Nat) : Option Bool :=
  if count = Context.smallSize then some false
  else if count = Context.largeSize then some true
  else none

/-- The chain that a context of class `cls` goes to, if it is one of the two sizes. -/
def chainOf? (m : Memory) (context cls : Value) : Option Bool := do
  let o ← m.get? context
  guard (o.cls = cls)
  chainFor? o.pointers.size

/-- Puts a context of class `cls` and of one of the two sizes at the front of its chain. Answers
whether it was such a context. -/
def recycle (p : ContextPool) (m : Memory) (context cls nil : Value) :
    Bool × ContextPool × Memory :=
  match chainOf? m context cls with
  | none => (false, p, m)
  | some large =>
    let m := m.setField context Context.sender ((p.head large).getD nil)
    let p := p.setHead large (some context)
    (true, { p with recycled := p.recycled + 1 }, m)

/-- A waiting context of the wanted size, or else a new one, with nil in all fields. -/
def allocate (large : Bool) (cls nil : Value) : EStateM Fault (ContextPool × Memory) Value :=
  fun (p, m) =>
    match p.take m large nil with
    | .error e => .error e (p, m)
    | .ok (some (context, p, m)) => .ok context (p, m)
    | .ok none =>
      let frame := Array.replicate (Context.size large) nil
      match Memory.register (.ofPointers cls .indexable frame) m with
      | .ok context m => .ok context ({ p with allocated := p.allocated + 1 }, m)
      | .error e m => .error e (p, m)

end ContextPool

end Smalltalk
