import Smalltalk.Proofs.Arrays
import Smalltalk.Proofs.Endings
import Smalltalk.Proofs.Tolerance

/-!
# Copying a range of elements

Elements are copied by way of an array of their own: the range is read off the source as a whole and then
written over the destination as a whole. So the copy is a simultaneous assignment, also when the two
ranges are of one object and overlap, and nothing is written before both ranges are known to be there.

Pointers, words and bytes are copied by different code, but each kind of object keeps its elements in one
array behind the entries that are not elements, and all that is copied is entries of that array.
-/

namespace Smalltalk

open Outcome

/-! ### Arrays -/

namespace Primitive

variable {α : Type} {xs ys zs : Array α} {i start first count : Nat}

/-- The array `xs` with `count` entries of `ys` from `first` on over its own from `start` on. -/
def splice? (xs ys : Array α) (start first count : Nat) : Option (Array α) :=
  (slice? ys first count).bind (overwrite? xs start)

theorem size_of_slice? (h : slice? ys first count = some zs) : zs.size = count := by
  simp only [slice?, Option.ite_none_right_eq_some, Option.some.injEq] at h
  obtain ⟨hle, rfl⟩ := h
  rw [Array.size_extract]
  omega

/-- Both ranges have to be there. -/
theorem splice?_eq_none : splice? xs ys start first count = none ↔
    ¬ (start + count ≤ xs.size ∧ first + count ≤ ys.size) := by
  rw [splice?]
  cases hslice : slice? ys first count with
  | none =>
    have hnot : ¬ first + count ≤ ys.size := by
      simpa [slice?] using hslice
    simp [hnot]
  | some part =>
    have hle : first + count ≤ ys.size := by
      simp only [slice?, Option.ite_none_right_eq_some] at hslice
      exact hslice.1
    simp [overwrite?, size_of_slice? hslice, hle]

theorem size_of_splice? (h : splice? xs ys start first count = some zs) : zs.size = xs.size := by
  obtain ⟨part, -, hover⟩ := Option.bind_eq_some_iff.1 h
  exact size_of_overwrite? hover

/-- Entries in the range are from the other array, and all others are as they were. -/
theorem getElem?_of_splice? (h : splice? xs ys start first count = some zs) (i : Nat) :
    zs[i]? = if start ≤ i ∧ i < start + count then ys[first + (i - start)]? else xs[i]? := by
  obtain ⟨part, hslice, hover⟩ := Option.bind_eq_some_iff.1 h
  have hcount := size_of_slice? hslice
  simp only [slice?, Option.ite_none_right_eq_some, Option.some.injEq] at hslice
  simp only [overwrite?, Option.ite_none_right_eq_some, Option.some.injEq] at hover
  obtain ⟨hle, hpart⟩ := hslice
  obtain ⟨hfits, rfl⟩ := hover
  rw [hcount] at hfits ⊢
  have hfront : (xs.extract 0 start).size = start := by
    rw [Array.size_extract]
    omega
  have hmiddle : (xs.extract 0 start ++ part).size = start + count := by
    rw [Array.size_append, hfront, hcount]
  rw [Array.getElem?_append, hmiddle]
  by_cases hbehind : i < start + count
  · rw [if_pos hbehind, Array.getElem?_append, hfront]
    by_cases hbefore : i < start
    · rw [if_pos hbefore, if_neg (by omega), Array.getElem?_extract, if_pos (by omega), Nat.zero_add]
    · rw [if_neg hbefore, if_pos ⟨by omega, hbehind⟩, ← hpart, Array.getElem?_extract,
        if_pos (by omega)]
  · rw [if_neg hbehind, if_neg (by omega), Array.getElem?_extract]
    by_cases hin : i < xs.size
    · rw [if_pos (by omega), Nat.add_sub_cancel' (by omega)]
    · rw [if_neg (by omega), Array.getElem?_eq_none (by omega)]

/-- A range that is read and then written is copied as a whole or not at all. -/
theorem splice?_bind {β : Type} (f : Array α → Attempt β) :
    (do
      let part ← Attempt.ofOption (slice? ys first count)
      let zs ← Attempt.ofOption (overwrite? xs start part)
      f zs : Attempt β) = Attempt.ofOption (splice? xs ys start first count) >>= f := by
  rw [splice?]
  cases slice? ys first count with
  | none => rfl
  | some part => rfl

end Primitive

/-! ### Objects -/

/-- Kinds of elements. -/
inductive Grain where
  | pointers
  | words
  | bytes
  deriving DecidableEq

namespace Object

variable {α : Type} {o o' s : Object} {named named' start first count i j : Nat}

/-- The kind of elements that an object holds. Floats and compiled methods hold none that are copied. -/
def grain? (o : Object) : Option Grain :=
  if o.format.isPointers then some .pointers
  else match o.format, o.body with
    | .words, .words _ => some .words
    | .bytes, .bytes _ => some .bytes
    | _, _ => none

theorem grain?_eq_pointers : o.grain? = some .pointers ↔ o.format.isPointers = true := by
  unfold grain?
  cases o.format <;> cases o.body <;> simp [Format.isPointers, Format.code]

theorem grain?_eq_words :
    o.grain? = some .words ↔ o.format = .words ∧ ∃ ws, o.body = .words ws := by
  unfold grain?
  cases o.format <;> cases o.body <;> simp [Format.isPointers, Format.code]

theorem grain?_eq_bytes :
    o.grain? = some .bytes ↔ o.format = .bytes ∧ ∃ bs, o.body = .bytes bs := by
  unfold grain?
  cases o.format <;> cases o.body <;> simp [Format.isPointers, Format.code]

theorem words?_eq_some {ws : Array UInt32} : o.words? = some ws ↔ o.body = .words ws := by
  unfold words?
  cases o.body <;> simp

theorem bytes?_eq_some {bs : Array UInt8} : o.bytes? = some bs ↔ o.body = .bytes bs := by
  unfold bytes?
  cases o.body <;> simp

/-- The size of the indexed part, which may be missing. -/
def extent (o : Object) (named : Nat) : Nat := (o.indexed? named).getD 0

/-- The element at an index, which counts from one. -/
def item? (o : Object) (named i : Nat) : Option Element := o.elements named (o.extent named) false i

/-- Whether `count` indices from `start` on are in the indexed part. If there are none of them, they may
start one past its end. -/
def Spans (o : Object) (named : Nat) (start : Int) (count : Nat) : Prop :=
  1 ≤ start ∧ start - 1 + count ≤ o.extent named

/-- Where the elements of an object are: in an array behind its first `offset` entries. Another
array of that size can be `put` in its place. -/
structure Holds (o : Object) (named : Nat) (mk : α → Element) (xs : Array α) (offset : Nat)
    (put : Array α → Object → Object) : Prop where
  size : xs.size = o.extent named + offset
  element : ∀ slot, o.element? named false slot = xs[slot + offset]?.map mk
  remains : ∀ zs, zs.size = xs.size → o.Remains (put zs o)
  stored : ∀ zs, zs.size = xs.size →
    ∀ slot, (put zs o).element? named false slot = zs[slot + offset]?.map mk
  fields : ∀ zs, o.format.isPointers = true →
    put zs o = { o with pointers := (put zs o).pointers } ∧
    ((∀ j < offset, zs[j]? = xs[j]?) → ∀ j < named, (put zs o).pointers[j]? = o.pointers[j]?)
  raw : ∀ zs, o.format.isPointers = false → put zs o = { o with body := (put zs o).body }

theorem Remains.extent (h : o.Remains o') : o'.extent named = o.extent named := by
  rw [Object.extent, Object.extent, h.indexed?]

/-- Pointers that are elements come after the named fields, which are all the others. -/
theorem holds_pointers (hformat : o.format.isPointers = true)
    (hnamed : named ≤ o.pointers.size) (hall : o.indexed? named = none → named = o.pointers.size) :
    o.Holds named .pointer o.pointers named fun pointers o => { o with pointers } where
  size := by
    rw [extent]
    cases hindexed : o.indexed? named with
    | none =>
      rw [Option.getD_none, Nat.zero_add]
      exact (hall hindexed).symm
    | some size =>
      have hsize : size = o.pointers.size - named := by
        unfold indexed? at hindexed
        cases hf : o.format <;> simp_all [Format.isPointers, Format.code]
      rw [Option.getD_some]
      omega
  element slot := element?_pointers hformat
  remains zs hsize := .of_pointers hsize
  stored zs _ slot := element?_pointers (o := { o with pointers := zs }) hformat
  fields _ _ := ⟨rfl, id⟩
  raw _ hnot := absurd (hformat.symm.trans hnot) (by simp)

theorem holds_words {ws : Array UInt32} (hformat : o.format = .words) (hbody : o.body = .words ws) :
    o.Holds named .word ws 0 fun words o => { o with body := .words words } where
  size := by rw [extent, indexed?, hformat, hbody]; rfl
  element slot := by rw [element?_words hformat, words?, hbody]; rfl
  remains zs hsize := .of_body (by rw [hbody]; exact hsize)
  stored zs _ slot := element?_words (o := { o with body := .words zs }) hformat
  fields _ hp := absurd hp (by rw [hformat]; decide)
  raw _ _ := rfl

theorem holds_bytes {bs : Array UInt8} (hformat : o.format = .bytes) (hbody : o.body = .bytes bs) :
    o.Holds named .byte bs 0 fun bytes o => { o with body := .bytes bytes } where
  size := by rw [extent, indexed?, hformat, hbody]; rfl
  element slot := by rw [element?_bytes hformat, bytes?, hbody]; rfl
  remains zs hsize := .of_body (by rw [hbody]; exact hsize)
  stored zs _ slot := element?_bytes (o := { o with body := .bytes zs }) hformat
  fields _ hp := absurd hp (by rw [hformat]; decide)
  raw _ _ := rfl

/-- `o'` is `o` with `count` elements of `s` from the index `first` on, as `s` was before, in the place
of its own from the index `start` on. -/
structure Copied (o s : Object) (named named' start first count : Nat) (o' : Object) : Prop where
  remains : o.Remains o'
  copied : ∀ k < count, ∃ e, s.item? named' (first + k) = some e ∧
    o'.item? named (start + k) = some e
  others : ∀ i, i < start ∨ start + count ≤ i → o'.item? named i = o.item? named i
  fields : o.format.isPointers = true → o' = { o with pointers := o'.pointers } ∧
    ∀ j < named, o'.pointers[j]? = o.pointers[j]?
  raw : o.format.isPointers = false → o' = { o with body := o'.body }

section

variable {mk : α → Element} {xs ys zs : Array α} {offset offset' : Nat}
  {put put' : Array α → Object → Object}

/-- Both ranges are there if they are in the indexed parts. -/
theorem Holds.splice?_eq_none (ho : o.Holds named mk xs offset put)
    (hs : s.Holds named' mk ys offset' put') (hstart : 1 ≤ start) (hfirst : 1 ≤ first) :
    Primitive.splice? xs ys (start - 1 + offset) (first - 1 + offset') count = none ↔
      ¬ (o.Spans named start count ∧ s.Spans named' first count) := by
  have hsize := ho.size
  have hsize' := hs.size
  rw [Primitive.splice?_eq_none, Spans, Spans]
  refine not_congr ⟨fun ⟨hto, hfrom⟩ => ⟨⟨by omega, by omega⟩, by omega, by omega⟩, ?_⟩
  rintro ⟨⟨-, hto⟩, -, hfrom⟩
  exact ⟨by omega, by omega⟩

theorem Holds.item? (ho : o.Holds named mk xs offset put) (hi : 1 ≤ i) (hle : i ≤ o.extent named) :
    o.item? named i = xs[i - 1 + offset]?.map mk := by
  rw [Object.item?, elements, if_pos ⟨hi, hle⟩, ho.element]

theorem Holds.item?_put (ho : o.Holds named mk xs offset put) (hzs : zs.size = xs.size)
    (hi : 1 ≤ i) (hle : i ≤ o.extent named) :
    (put zs o).item? named i = zs[i - 1 + offset]?.map mk := by
  rw [Object.item?, elements, (ho.remains zs hzs).extent, if_pos ⟨hi, hle⟩, ho.stored zs hzs]

/-- Entries that are written over are elements that are copied. -/
theorem Holds.copied (ho : o.Holds named mk xs offset put) (hs : s.Holds named' mk ys offset' put')
    (hstart : 1 ≤ start) (hfirst : 1 ≤ first)
    (h : Primitive.splice? xs ys (start - 1 + offset) (first - 1 + offset') count = some zs) :
    o.Copied s named named' start first count (put zs o) := by
  have hzs := Primitive.size_of_splice? h
  have hentries := Primitive.getElem?_of_splice? h
  have hspans : o.Spans named start count ∧ s.Spans named' first count := by
    by_contra hnot
    rw [(ho.splice?_eq_none hs hstart hfirst).2 hnot] at h
    cases h
  obtain ⟨⟨-, hto⟩, -, hfrom⟩ := hspans
  have hbefore : ∀ j < offset, zs[j]? = xs[j]? := fun j hj => by rw [hentries, if_neg (by omega)]
  refine ⟨ho.remains zs hzs, fun k hk => ?_, fun i hi => ?_,
    fun hp => ⟨(ho.fields zs hp).1, (ho.fields zs hp).2 hbefore⟩, ho.raw zs⟩
  · have hlt : first + k - 1 + offset' < ys.size := by
      have hsize := hs.size
      omega
    refine ⟨mk ys[first + k - 1 + offset'], ?_, ?_⟩
    · rw [hs.item? (by omega) (by omega), Array.getElem?_eq_getElem hlt, Option.map_some]
    · have hplace : first - 1 + offset' + (start + k - 1 + offset - (start - 1 + offset)) =
          first + k - 1 + offset' := by omega
      rw [ho.item?_put hzs (by omega) (by omega), hentries, if_pos ⟨by omega, by omega⟩, hplace,
        Array.getElem?_eq_getElem hlt, Option.map_some]
  · by_cases hin : 1 ≤ i ∧ i ≤ o.extent named
    · rw [ho.item?_put hzs hin.1 hin.2, ho.item? hin.1 hin.2, hentries, if_neg (by omega)]
    · rw [Object.item?, Object.item?, elements, elements, (ho.remains zs hzs).extent, if_neg hin,
        if_neg hin]

end

end Object

/-! ### The primitive -/

section

variable {m m' : Machine} {dest source : Value} {o s : Object} {start stop first : Int}
  {named named' count destPos sourcePos : Nat}

/-- The machine after the primitive has made another object of the destination. -/
def Machine.rewritten (m : Machine) (dest : Value) (o : Object) : Machine :=
  { m with
    registers := { m.registers with sp := m.registers.sp - 4 }
    memory := m.memory.replace dest o }

namespace Attempt

theorem natural_of {k : Int} (h : 0 ≤ k) : natural k m = .ok k.toNat m := bind_of_ok (require_of h)

theorem natural_of_not {k : Int} (h : ¬ 0 ≤ k) : natural k m = .error .declined m :=
  bind_of_error (require_of_not h)

/-- What the primitive does when its operands are known. -/
def copyElements (dest source : Value) (o s : Object) (count destPos sourcePos : Nat) :
    Attempt Completion := do
  if o.format.isPointers && s.format.isPointers then
    let sourcePos := sourcePos + (← Action.fixedFields source)
    let destPos := destPos + (← Action.fixedFields dest)
    let part ← ofOption (Primitive.slice? s.pointers sourcePos count)
    let pointers ← ofOption (Primitive.overwrite? o.pointers destPos part)
    Action.modifyMemory fun m => m.modify dest fun o => { o with pointers }
  else if o.format = .words ∧ s.format = .words then
    let part ← ofOption (s.words?.bind (Primitive.slice? · sourcePos count))
    let words ← ofOption (o.words?.bind (Primitive.overwrite? · destPos part))
    Action.modifyMemory fun m => m.modify dest fun o => { o with body := .words words }
  else if o.format = .bytes ∧ s.format = .bytes then
    let part ← ofOption (s.bytes?.bind (Primitive.slice? · sourcePos count))
    let bytes ← ofOption (o.bytes?.bind (Primitive.overwrite? · destPos part))
    Action.modifyMemory fun m => m.modify dest fun o => { o with body := .bytes bytes }
  else
    decline
  answer 4 dest

theorem replaceElements_eq
    (stacked : m.Stacked [dest, .small start, .small stop, source, .small first])
    (ho : m.memory.get? dest = some o) (hs : m.memory.get? source = some s) :
    Primitive.replaceElements 4 m = (do
      let count ← natural (stop - start + 1)
      let destPos ← natural (start - 1)
      let sourcePos ← natural (first - 1)
      copyElements dest source o s count destPos sourcePos : Attempt Completion) m := by
  have hobject : (liftM (Action.object dest) : Attempt Object) m = .ok o m :=
    lift_ok.2 (Action.object_ok.2 ⟨ho, rfl⟩)
  have hsource : (liftM (Action.object source) : Attempt Object) m = .ok s m :=
    lift_ok.2 (Action.object_ok.2 ⟨hs, rfl⟩)
  have hdest : stackObject 4 m = .ok dest m := stackObject_eq stacked.receiver ho
  have hstart : stackInteger 3 m = .ok start m := stackInteger_small stacked.tail.receiver
  have hstop : stackInteger 2 m = .ok stop m := stackInteger_small stacked.tail.tail.receiver
  have hother : stackObject 1 m = .ok source m := stackObject_eq stacked.tail.tail.tail.receiver hs
  have hfirst : stackInteger 0 m = .ok first m :=
    stackInteger_small stacked.tail.tail.tail.tail.receiver
  unfold Primitive.replaceElements
  rw [bind_of_ok hdest, bind_of_ok hstart, bind_of_ok hstop, bind_of_ok hother, bind_of_ok hfirst]
  refine natural_stays.bind_congr fun count _ => natural_stays.bind_congr fun destPos _ => ?_
  refine natural_stays.bind_congr fun sourcePos _ => ?_
  rw [bind_of_ok hobject, bind_of_ok hsource]
  rfl

/-- The destination takes the place of the operands, where it stands already. -/
theorem answer_modified {f : Object → Object}
    (stacked : m.Stacked [dest, .small start, .small stop, source, .small first])
    (ho : m.memory.get? dest = some o) (hother : dest ≠ m.registers.context) :
    (do
      Action.modifyMemory fun memory => memory.modify dest f
      answer 4 dest : Attempt Completion) m = .ok .done (m.rewritten dest (f o)) := by
  have hdeep := stacked.deep
  have hframe : Context.frameStart = 6 := rfl
  simp only [List.length_cons, List.length_nil, hframe] at hdeep
  obtain ⟨-, hcell, -⟩ := Action.stackValue_ok.1 stacked.receiver
  have hmodified :
      (m.modified dest f).memory.cell m.registers.context (m.registers.sp - 4) = some dest := by
    rw [show (m.modified dest f).memory = m.memory.modify dest f from rfl, Memory.cell,
      Memory.get?_modify, if_neg hother.symm]
    exact hcell
  have hsame : Action.pushed (Action.popped (m.modified dest f) 5) dest =
      Action.popped (m.modified dest f) 4 :=
    (Action.push_ok.1 (Action.push_popped (m := m.modified dest f)
      (show 4 < m.registers.sp by omega) hmodified)).2
  have hreplace : m.memory.modify dest f = m.memory.replace dest (f o) := Memory.modify_congr ho rfl
  refine (bind_of_ok (a := ()) (lift_ok.2 (Action.modifyMemory_ok.2 rfl))).trans ?_
  refine (answer_of (m := m.modified dest f) (show 5 ≤ m.registers.sp by omega)
    ⟨dest, hmodified⟩).trans ?_
  rw [hsame, Action.popped, Machine.withRegisters, Machine.modified, hreplace, Machine.rewritten]

/-- What is not there declines, and what is there is written over. -/
theorem ofOption_modified {α : Type} {found : Option α} {put : α → Object → Object}
    (stacked : m.Stacked [dest, .small start, .small stop, source, .small first])
    (ho : m.memory.get? dest = some o) (hother : dest ≠ m.registers.context) :
    (do
      let zs ← ofOption found
      Action.modifyMemory fun memory => memory.modify dest (put zs)
      answer 4 dest : Attempt Completion) m =
        match found with
        | some zs => .ok .done (m.rewritten dest (put zs o))
        | none => .error .declined m := by
  cases found with
  | none => rfl
  | some zs => exact answer_modified stacked ho hother

end Attempt

namespace Machine

/-- What an attempt to copy comes to: it is declined before anything is changed, or the elements are
copied, depending on whether both ranges are in the indexed parts. -/
def Copies (m : Machine) (dest : Value) (o s : Object) (named named' start first count : Nat)
    (result : EStateM.Result Refusal Machine Completion) : Prop :=
  (o.Spans named start count ∧ s.Spans named' first count → ∃ o',
    o.Copied s named named' start first count o' ∧ result = .ok .done (m.rewritten dest o')) ∧
  (¬ (o.Spans named start count ∧ s.Spans named' first count) → result = .error .declined m)

/-- Named fields are fields, and all of them if there is no indexed part. -/
theorem named?_le (h : m.named? o = some named) : named ≤ o.pointers.size ∧
    (o.format.isPointers = true → o.indexed? named = none → named = o.pointers.size) := by
  unfold named? at h
  cases hformat : o.format with
  | fixedIndexable =>
    simp only [hformat] at h
    obtain ⟨word, -, rfl⟩ := Option.map_eq_some_iff.1 h
    simp [Object.namedFields, Object.indexed?, hformat]
  | weak =>
    simp only [hformat] at h
    obtain ⟨word, -, rfl⟩ := Option.map_eq_some_iff.1 h
    simp [Object.namedFields, Object.indexed?, hformat]
  | _ =>
    simp only [hformat] at h
    obtain rfl := Option.some.inj h
    simp [Object.namedFields, Object.indexed?, hformat]

theorem copies_of_holds {α : Type} {mk : α → Element} {xs ys : Array α} {offset offset' i j : Nat}
    {put put' : Array α → Object → Object}
    (stacked : m.Stacked [dest, .small start, .small stop, source, .small first])
    (ho : m.memory.get? dest = some o) (hother : dest ≠ m.registers.context)
    (holds : o.Holds named mk xs offset put) (holds' : s.Holds named' mk ys offset' put')
    (hi : 1 ≤ i) (hj : 1 ≤ j) (count : Nat) :
    m.Copies dest o s named named' i j count ((do
      let zs ← Attempt.ofOption (Primitive.splice? xs ys (i - 1 + offset) (j - 1 + offset') count)
      Action.modifyMemory fun memory => memory.modify dest (put zs)
      Attempt.answer 4 dest : Attempt Completion) m) := by
  have hnone : Primitive.splice? xs ys (i - 1 + offset) (j - 1 + offset') count = none ↔
      ¬ (o.Spans named i count ∧ s.Spans named' j count) := holds.splice?_eq_none holds' hi hj
  rw [Copies, Attempt.ofOption_modified stacked ho hother]
  cases hsplice : Primitive.splice? xs ys (i - 1 + offset) (j - 1 + offset') count with
  | none => exact ⟨fun hspans => absurd hspans (hnone.1 hsplice), fun _ => rfl⟩
  | some zs =>
    refine ⟨fun _ => ⟨put zs o, holds.copied holds' hi hj hsplice, rfl⟩, fun hnot => ?_⟩
    exact absurd (hnone.2 hnot) (by rw [hsplice]; simp)

end Machine

namespace Attempt

/-- Pointers are found behind the named fields. -/
theorem copyElements_pointers (ho : m.memory.get? dest = some o) (hs : m.memory.get? source = some s)
    (hnamed : m.named? o = some named) (hnamed' : m.named? s = some named')
    (hp : o.format.isPointers = true) (hp' : s.format.isPointers = true) :
    copyElements dest source o s count destPos sourcePos m = (do
      let pointers ← ofOption (Primitive.splice? o.pointers s.pointers (destPos + named)
        (sourcePos + named') count)
      Action.modifyMemory fun memory => memory.modify dest fun o => { o with pointers }
      answer 4 dest : Attempt Completion) m := by
  have hfields : (liftM (Action.fixedFields dest) : Attempt Nat) m = .ok named m :=
    lift_ok.2 (Action.fixedFields_of ho hnamed)
  have hfields' : (liftM (Action.fixedFields source) : Attempt Nat) m = .ok named' m :=
    lift_ok.2 (Action.fixedFields_of hs hnamed')
  unfold copyElements
  simp only [hp, hp', Bool.and_self, if_true]
  rw [bind_of_ok hfields', bind_of_ok hfields, ← Primitive.splice?_bind]

theorem copyElements_words {ws ws' : Array UInt32} (hf : o.format = .words) (hf' : s.format = .words)
    (hw : o.words? = some ws) (hw' : s.words? = some ws') :
    copyElements dest source o s count destPos sourcePos m = (do
      let words ← ofOption (Primitive.splice? ws ws' destPos sourcePos count)
      Action.modifyMemory fun memory => memory.modify dest fun o => { o with body := .words words }
      answer 4 dest : Attempt Completion) m := by
  have hp : ¬(o.format.isPointers && s.format.isPointers) = true := by
    simp [hf, Format.isPointers, Format.code]
  unfold copyElements
  simp only [if_neg hp, if_pos (And.intro hf hf'), hw, hw', Option.bind_some]
  rw [← Primitive.splice?_bind]

theorem copyElements_bytes {bs bs' : Array UInt8} (hf : o.format = .bytes) (hf' : s.format = .bytes)
    (hb : o.bytes? = some bs) (hb' : s.bytes? = some bs') :
    copyElements dest source o s count destPos sourcePos m = (do
      let bytes ← ofOption (Primitive.splice? bs bs' destPos sourcePos count)
      Action.modifyMemory fun memory => memory.modify dest fun o => { o with body := .bytes bytes }
      answer 4 dest : Attempt Completion) m := by
  have hp : ¬(o.format.isPointers && s.format.isPointers) = true := by
    simp [hf, Format.isPointers, Format.code]
  have hwords : ¬(o.format = .words ∧ s.format = .words) := by rw [hf]; simp
  unfold copyElements
  simp only [if_neg hp, if_neg hwords, if_pos (And.intro hf hf'), hb, hb', Option.bind_some]
  rw [← Primitive.splice?_bind]

/-- Both arrays have to be there. -/
theorem ofOption_missing {α β γ δ : Type} {xs : Option α} {ys : Option β} {f : β → Option γ}
    {g : γ → α → Option δ} {k : δ → Attempt Completion} (h : ys = none ∨ xs = none) :
    (do
      let part ← ofOption (ys.bind f)
      let zs ← ofOption (xs.bind (g part))
      k zs : Attempt Completion) m = .error .declined m := by
  rcases h with rfl | rfl
  · rfl
  · cases ys.bind f with
    | none => rfl
    | some part => rfl

/-- Objects that do not hold the same kind of elements are not touched. -/
theorem copyElements_declined (h : ¬ ∃ grain, o.grain? = some grain ∧ s.grain? = some grain) :
    copyElements dest source o s count destPos sourcePos m = .error .declined m := by
  have hp : ¬(o.format.isPointers && s.format.isPointers) = true := by
    rw [Bool.and_eq_true, ← Object.grain?_eq_pointers, ← Object.grain?_eq_pointers]
    exact fun hp => h ⟨_, hp⟩
  unfold copyElements
  simp only [if_neg hp]
  split_ifs with hwords hbytes
  · refine ofOption_missing ?_
    by_contra hboth
    obtain ⟨hs, ho⟩ := not_or.1 hboth
    obtain ⟨ws', hs⟩ := Option.ne_none_iff_exists'.1 hs
    obtain ⟨ws, ho⟩ := Option.ne_none_iff_exists'.1 ho
    exact h ⟨.words, Object.grain?_eq_words.2 ⟨hwords.1, ws, Object.words?_eq_some.1 ho⟩,
      Object.grain?_eq_words.2 ⟨hwords.2, ws', Object.words?_eq_some.1 hs⟩⟩
  · refine ofOption_missing ?_
    by_contra hboth
    obtain ⟨hs, ho⟩ := not_or.1 hboth
    obtain ⟨bs', hs⟩ := Option.ne_none_iff_exists'.1 hs
    obtain ⟨bs, ho⟩ := Option.ne_none_iff_exists'.1 ho
    exact h ⟨.bytes, Object.grain?_eq_bytes.2 ⟨hbytes.1, bs, Object.bytes?_eq_some.1 ho⟩,
      Object.grain?_eq_bytes.2 ⟨hbytes.2, bs', Object.bytes?_eq_some.1 hs⟩⟩
  · rfl

/-- Objects that hold the same kind are copied by way of the arrays that hold it. -/
theorem copyElements_copies {i j : Nat}
    (stacked : m.Stacked [dest, .small start, .small stop, source, .small first])
    (ho : m.memory.get? dest = some o) (hs : m.memory.get? source = some s)
    (hother : dest ≠ m.registers.context)
    (hnamed : m.named? o = some named) (hnamed' : m.named? s = some named')
    (hgrain : ∃ grain, o.grain? = some grain ∧ s.grain? = some grain) (hi : 1 ≤ i) (hj : 1 ≤ j) :
    m.Copies dest o s named named' i j count
      (copyElements dest source o s count (i - 1) (j - 1) m) := by
  obtain ⟨grain, hg, hg'⟩ := hgrain
  cases grain with
  | pointers =>
    have hp := Object.grain?_eq_pointers.1 hg
    have hp' := Object.grain?_eq_pointers.1 hg'
    obtain ⟨hle, hall⟩ := Machine.named?_le hnamed
    obtain ⟨hle', hall'⟩ := Machine.named?_le hnamed'
    rw [copyElements_pointers ho hs hnamed hnamed' hp hp']
    exact Machine.copies_of_holds stacked ho hother (Object.holds_pointers hp hle (hall hp))
      (Object.holds_pointers hp' hle' (hall' hp')) hi hj count
  | words =>
    obtain ⟨hf, ws, hw⟩ := Object.grain?_eq_words.1 hg
    obtain ⟨hf', ws', hw'⟩ := Object.grain?_eq_words.1 hg'
    rw [copyElements_words hf hf' (Object.words?_eq_some.2 hw) (Object.words?_eq_some.2 hw')]
    have holds : o.Holds named .word ws 0 _ := Object.holds_words hf hw
    have holds' : s.Holds named' .word ws' 0 _ := Object.holds_words hf' hw'
    have hcopies := Machine.copies_of_holds stacked ho hother holds holds' hi hj count
    simpa only [Nat.add_zero] using hcopies
  | bytes =>
    obtain ⟨hf, bs, hb⟩ := Object.grain?_eq_bytes.1 hg
    obtain ⟨hf', bs', hb'⟩ := Object.grain?_eq_bytes.1 hg'
    rw [copyElements_bytes hf hf' (Object.bytes?_eq_some.2 hb) (Object.bytes?_eq_some.2 hb')]
    have holds : o.Holds named .byte bs 0 _ := Object.holds_bytes hf hb
    have holds' : s.Holds named' .byte bs' 0 _ := Object.holds_bytes hf' hb'
    have hcopies := Machine.copies_of_holds stacked ho hother holds holds' hi hj count
    simpa only [Nat.add_zero] using hcopies

end Attempt

/-- When a range of elements can be copied: both objects hold the same kind of elements, the count is not
negative, and both ranges are in the indexed parts. -/
structure Object.Admits (o s : Object) (named named' : Nat) (start stop first : Int) : Prop where
  grain : ∃ grain, o.grain? = some grain ∧ s.grain? = some grain
  count : 0 ≤ stop - start + 1
  dest : o.Spans named start (stop - start + 1).toNat
  source : s.Spans named' first (stop - start + 1).toNat

/-- The primitive is declined before anything is changed, or the destination gets the elements that the
source had before. -/
theorem Attempt.replaceElements_outcome
    (stacked : m.Stacked [dest, .small start, .small stop, source, .small first])
    (ho : m.memory.get? dest = some o) (hs : m.memory.get? source = some s)
    (hother : dest ≠ m.registers.context)
    (hnamed : m.named? o = some named) (hnamed' : m.named? s = some named') :
    (o.Admits s named named' start stop first → ∃ o',
      o.Copied s named named' start.toNat first.toNat (stop - start + 1).toNat o' ∧
      Primitive.replaceElements 4 m = .ok .done (m.rewritten dest o')) ∧
    (¬ o.Admits s named named' start stop first →
      Primitive.replaceElements 4 m = .error .declined m) := by
  rw [replaceElements_eq stacked ho hs]
  by_cases hcount : 0 ≤ stop - start + 1
  case neg =>
    exact ⟨fun h => absurd h.count hcount, fun _ => bind_of_error (natural_of_not hcount)⟩
  by_cases hstart : 0 ≤ start - 1
  case neg =>
    refine ⟨fun h => absurd h.dest.1 (by omega), fun _ => ?_⟩
    rw [bind_of_ok (natural_of hcount), bind_of_error (natural_of_not hstart)]
  by_cases hfirst : 0 ≤ first - 1
  case neg =>
    refine ⟨fun h => absurd h.source.1 (by omega), fun _ => ?_⟩
    rw [bind_of_ok (natural_of hcount), bind_of_ok (natural_of hstart),
      bind_of_error (natural_of_not hfirst)]
  rw [bind_of_ok (natural_of hcount), bind_of_ok (natural_of hstart), bind_of_ok (natural_of hfirst)]
  by_cases hgrain : ∃ grain, o.grain? = some grain ∧ s.grain? = some grain
  case neg => exact ⟨fun h => absurd h.grain hgrain, fun _ => copyElements_declined hgrain⟩
  have hpos : (start.toNat : Int) = start := Int.toNat_of_nonneg (by omega)
  have hpos' : (first.toNat : Int) = first := Int.toNat_of_nonneg (by omega)
  have hoffset : (start - 1).toNat = start.toNat - 1 := by omega
  have hoffset' : (first - 1).toNat = first.toNat - 1 := by omega
  have hcopies : m.Copies dest o s named named' start.toNat first.toNat (stop - start + 1).toNat
      (copyElements dest source o s (stop - start + 1).toNat (start.toNat - 1) (first.toNat - 1) m) :=
    copyElements_copies stacked ho hs hother hnamed hnamed' hgrain (by omega) (by omega)
  rw [Machine.Copies, hpos, hpos', ← hoffset, ← hoffset'] at hcopies
  obtain ⟨hinside, houtside⟩ := hcopies
  exact ⟨fun h => hinside ⟨h.dest, h.source⟩,
    fun hnot => houtside fun hspans => hnot ⟨hgrain, hcount, hspans.1, hspans.2⟩⟩

namespace Machine

theorem get?_rewritten (ho : m.memory.get? dest = some o) (o' : Object) (v : Value) :
    (m.rewritten dest o').memory.get? v = if v = dest then some o' else m.memory.get? v := by
  rw [rewritten, Memory.replace, Memory.get?_modify, ho, Option.map_some]

/-- Copying is a simultaneous assignment. It is done if and only if both objects hold the same kind of
elements, the count is not negative and both ranges are in the indexed parts. The destination then has
the elements that the source had before, also if the two are one object, the operands are off the stack,
and nothing else is changed. If it is not done, the failure is counted, and that is all. -/
theorem copy_simultaneous
    (stacked : m.Stacked [dest, .small start, .small stop, source, .small first])
    (ho : m.memory.get? dest = some o) (hs : m.memory.get? source = some s)
    (hother : dest ≠ m.registers.context)
    (hword : ∃ word, m.memory.cell o.cls Class.format = some (.small word))
    (hword' : ∃ word, m.memory.cell s.cls Class.format = some (.small word)) :
    ∃ named named', m.named? o = some named ∧ m.named? s = some named' ∧
      (o.Admits s named named' start stop first → ∃ o',
        o.Copied s named named' start.toNat first.toNat (stop - start + 1).toNat o' ∧
        Action.tryPrimitive 105 4 m = .ok .handled (m.rewritten dest o') ∧
        ∀ v, (m.rewritten dest o').memory.get? v = if v = dest then some o' else m.memory.get? v) ∧
      (¬ o.Admits s named named' start stop first →
        Action.tryPrimitive 105 4 m = .ok .unhandled m.refused) := by
  obtain ⟨word, hword⟩ := hword
  obtain ⟨word', hword'⟩ := hword'
  obtain ⟨named, hnamed⟩ := named?_of_word hword
  obtain ⟨named', hnamed'⟩ := named?_of_word hword'
  obtain ⟨hdone, hdeclined, -⟩ := Primitive.tryPrimitive_of_exists (k := 105) (n := 4) (m := m)
    ⟨⟨105, "replaceFrom:to:with:startingAt:", Primitive.replaceElements⟩, by simp [Primitive.all],
      rfl, rfl⟩ (by decide)
  obtain ⟨hinside, houtside⟩ := Attempt.replaceElements_outcome stacked ho hs hother hnamed hnamed'
  refine ⟨named, named', hnamed, hnamed', fun h => ?_, fun hnot => hdeclined _ (houtside hnot)⟩
  obtain ⟨o', hcopied, hrun⟩ := hinside h
  exact ⟨o', hcopied, hdone _ hrun, get?_rewritten ho o'⟩

/-- An array of the numbers from one to five, with a named field before them. The active context is about
to copy the first three over the last three. -/
def slate : Machine :=
  let nil : Value := .ref 0 0
  let header : Value := .small (MethodHeader.encode 0 0 0 false 0).word
  let pointers cls format fields := Object.ofPointers cls format (List.toArray fields)
  let objects := [pointers nil .fixed [],
    pointers nil .fixed [nil, nil, .small (InstanceSpec.encode 1 Format.fixedIndexable.code)],
    pointers (.ref 1 0) .fixedIndexable [nil, .small 1, .small 2, .small 3, .small 4, .small 5],
    .ofMethod nil #[header] #[124],
    pointers nil .indexable [nil, .small 0, .small 0, .ref 3 0, nil, nil, .ref 2 0, .small 3, .small 5,
      .ref 2 0, .small 1]]
  let m := Machine.create (filled (.empty .standard) objects)
    { array := nil, nil, falseObject := nil, trueObject := nil } {} default
  { m with
    registers := { m.registers with
      context := .ref 4 0
      home := .ref 4 0
      method := .ref 3 0
      sp := 10 } }

theorem stacked_slate : slate.Stacked [.ref 2 0, .small 3, .small 5, .ref 2 0, .small 1] := by
  have hvalue (n : Nat) (v : Value) (hn : n ≤ 10)
      (hcell : slate.memory.cell (.ref 4 0) (10 - n) = some v) :
      Action.stackValue n slate = .ok v slate := Action.stackValue_ok.2 ⟨hn, hcell, rfl⟩
  have hfirst : slate.Stacked [.small 1] :=
    (Stacked.nil (by decide)).cons (hvalue 0 _ (by decide) (by decide +kernel)) (by decide)
  have hsource : slate.Stacked [.ref 2 0, .small 1] :=
    hfirst.cons (hvalue 1 _ (by decide) (by decide +kernel)) (by decide)
  have hstop : slate.Stacked [.small 5, .ref 2 0, .small 1] :=
    hsource.cons (hvalue 2 _ (by decide) (by decide +kernel)) (by decide)
  have hstart : slate.Stacked [.small 3, .small 5, .ref 2 0, .small 1] :=
    hstop.cons (hvalue 3 _ (by decide) (by decide +kernel)) (by decide)
  exact hstart.cons (hvalue 4 _ (by decide) (by decide +kernel)) (by decide)

/-- The first three elements are copied over the last three, with one element in both ranges. -/
theorem copy_simultaneous_slate : ∃ o o', slate.memory.get? (.ref 2 0) = some o ∧
    o.Admits o 1 1 3 5 1 ∧ o.Copied o 1 1 3 1 3 o' ∧
    Action.tryPrimitive 105 4 slate = .ok .handled (slate.rewritten (.ref 2 0) o') := by
  obtain ⟨o, ho, hshape⟩ := (Option.any_eq_true _ _).1
    (show (slate.memory.get? (.ref 2 0)).any (fun o => decide (o.grain? = some .pointers ∧
      o.extent 1 = 5 ∧ slate.named? o = some 1 ∧
      slate.memory.cell o.cls Class.format = some (.small (InstanceSpec.encode 1 3)))) = true by
      decide +kernel)
  obtain ⟨hgrain, hextent, hnamed, hword⟩ := of_decide_eq_true hshape
  obtain ⟨named, named', hn, hn', hcopies, -⟩ := copy_simultaneous stacked_slate ho ho (by decide)
    ⟨_, hword⟩ ⟨_, hword⟩
  obtain rfl := Option.some.inj (hnamed.symm.trans hn)
  obtain rfl := Option.some.inj (hnamed.symm.trans hn')
  have hadmits : o.Admits o 1 1 3 5 1 :=
    ⟨⟨_, hgrain, hgrain⟩, by decide, ⟨by decide, by rw [hextent]; decide⟩,
      ⟨by decide, by rw [hextent]; decide⟩⟩
  obtain ⟨o', hcopied, hrun, -⟩ := hcopies hadmits
  exact ⟨o, o', ho, hadmits, hcopied, hrun⟩

end Machine

end

end Smalltalk
