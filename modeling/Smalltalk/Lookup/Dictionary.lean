import Smalltalk.MethodHeader

/-!
# Method lookup

A class has a superclass, a method dictionary and a format word. A method dictionary holds its
selectors by open addressing: a selector is found by probing from the position its hash gives, in
cyclic order, until a free (nil) position ends the search. The methods stand in an array of their
own, at the positions of their selectors. Lookup walks up the superclass chain.
-/

namespace Smalltalk

/-- The superclass field of a class. -/
def Class.superclass : Nat := 0

/-- The method dictionary field of a class. -/
def Class.dictionary : Nat := 1

/-- The format word field of a class. -/
def Class.format : Nat := 2

/-- The value field of an association. -/
def Association.value : Nat := 1

namespace Dictionary

/-- The field with the array of methods. -/
def methods : Nat := 1

/-- The first field with a selector. -/
def keyStart : Nat := 2

/-- The positions to probe in a dictionary of `capacity` keys, from `start` on in cyclic order. -/
def probes (start capacity : Nat) : List Nat :=
  List.range' start (capacity - start) ++ List.range start

/-- The position among `probes` that holds `selector`; a free position ends the search. -/
def search (key : Nat → Value) (selector nil : Value) : List Nat → Option Nat
  | [] => none
  | i :: rest =>
    if key i = nil then none
    else if key i = selector then some i
    else search key selector nil rest

/-- The position to probe first for a hash. -/
def startFor (hash capacity : Nat) : Nat := (capacity - 1) &&& hash

/-- The hash by which a selector is looked up; zero for a value that is no object. -/
def selectorHash (m : Memory) (selector : Value) : UInt16 :=
  ((m.get? selector).map Object.hash).getD 0

/-- The method a dictionary has for a selector. A value that is no dictionary has none. -/
def find (m : Memory) (dictionary selector nil : Value) : Except Fault (Option Value) :=
  match m.get? dictionary with
  | none => .ok none
  | some o =>
    let capacity := o.pointers.size - keyStart
    let key i := (o.pointers[i + keyStart]?).getD nil
    let start := startFor (selectorHash m selector).toNat capacity
    match search key selector nil (probes start capacity) with
    | none => .ok none
    | some i => do
      let array ← m.field .lookupStructure dictionary methods
      some <$> m.field .lookupStructure array i

end Dictionary

/-- The method for a selector in the class `cls` or its superclasses, following at most `hops`
superclass links. -/
def findMethodWithin (m : Memory) (selector nil : Value) : Nat → Value → Except Fault (Option Value)
  | hops, cls =>
    if cls = nil then
      .ok none
    else
      match hops with
      | 0 => .error (.endlessChain cls)
      | hops + 1 => do
        let dictionary ← m.field .lookupStructure cls Class.dictionary
        match ← Dictionary.find m dictionary selector nil with
        | some method => return some method
        | none =>
          let superclass ← m.field .lookupStructure cls Class.superclass
          findMethodWithin m selector nil hops superclass

/-- The method that instances of `cls` have for a selector. A chain of more links than there are
slots passes some class twice and never ends. -/
def findMethod (m : Memory) (cls selector nil : Value) : Except Fault (Option Value) :=
  findMethodWithin m selector nil (m.slots.size + 1) cls

end Smalltalk
