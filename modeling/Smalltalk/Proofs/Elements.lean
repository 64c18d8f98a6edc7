import Smalltalk.Proofs.Numerals
import Smalltalk.Proofs.Recollection

/-!
# Elements of indexed objects

An indexed object keeps pointers, words or bytes. Reading an element finds what is kept and then makes
a value of it; storing makes what is kept from a value and then puts it in its place. The place depends
on the format of the object, on the number of its named fields and, in a compiled method, on the
pointers before the bytecodes. So the object alone is a map from places to elements, and a store
changes one of them. The values come in before a store and after a read: natural numbers may have to be
boxed, and characters are looked up in a table.
-/

namespace Smalltalk

open Outcome

variable {m m' : Machine} {o : Object} {v x array : Value} {i j n named slot : Nat} {characters : Bool}

/-- What is kept of an element: a pointer, a word, a byte, or a byte that stands for a character. -/
inductive Element where
  | pointer (v : Value)
  | word (w : UInt32)
  | byte (b : UInt8)
  | character (b : UInt8)
  deriving DecidableEq

/-- A byte, which stands for a character if bytes are read as characters. -/
def Element.ofByte (characters : Bool) (b : UInt8) : Element :=
  if characters then .character b else .byte b

/-- Whether objects of a format keep elements of this kind. -/
def Format.keeps (f : Format) (characters : Bool) : Element → Bool
  | .pointer _ => f.isPointers
  | .word _ => f = .words
  | .byte _ => f = .method || (f = .bytes && !characters)
  | .character _ => f = .bytes && characters

namespace Object

/-! ### Elements of an object -/

/-- The byte at a place of the raw part. In a compiled method the places before it belong to the
pointers, four to each. -/
def bytePlace (o : Object) (slot : Nat) : Nat :=
  if o.format = .method then slot - 4 * o.pointers.size else slot

/-- An element, counting from zero, of an object whose indexed pointers follow `named` others. -/
def element? (o : Object) (named : Nat) (characters : Bool) (slot : Nat) : Option Element :=
  match o.format with
  | .words => (o.words?.bind (·[slot]?)).map .word
  | .bytes => (o.bytes?.bind (·[slot]?)).map (.ofByte characters)
  | .method =>
    if 4 * o.pointers.size ≤ slot then
      (o.bytes?.bind (·[slot - 4 * o.pointers.size]?)).map .byte
    else
      none
  | _ => o.pointers[slot + named]?.map .pointer

/-- The object with another element in a place. -/
def setElement (o : Object) (named slot : Nat) : Element → Object
  | .pointer x => o.setPointer (slot + named) x
  | .word w => o.setWord slot w
  | .byte b | .character b => o.setByte (o.bytePlace slot) b

theorem remains_setElement (o : Object) (named slot : Nat) (e : Element) :
    o.Remains (o.setElement named slot e) := by
  cases e with
  | pointer x => exact o.remains_setPointer _ x
  | word w => exact o.remains_setWord _ w
  | byte b => exact o.remains_setByte _ b
  | character b => exact o.remains_setByte _ b

theorem bytes?_setByte (b : UInt8) :
    (o.setByte i b).bytes? = o.bytes?.map (·.setIfInBounds i b) := by
  obtain ⟨cls, format, hash, pointers, body⟩ := o
  cases body <;> rfl

theorem words?_setWord (w : UInt32) :
    (o.setWord i w).words? = o.words?.map (·.setIfInBounds i w) := by
  obtain ⟨cls, format, hash, pointers, body⟩ := o
  cases body <;> rfl

theorem pointers_setByte (b : UInt8) : (o.setByte i b).pointers = o.pointers := by
  obtain ⟨cls, format, hash, pointers, body⟩ := o
  cases body <;> rfl

/-- A replaced entry of an array that may be there. -/
theorem bind_setIfInBounds {α : Type} {found : Option (Array α)} {a b : α}
    (h : found.bind (·[i]?) = some a) :
    (found.map (·.setIfInBounds i b)).bind (·[j]?) = if j = i then some b else found.bind (·[j]?) := by
  obtain ⟨xs, rfl, hi⟩ := Option.bind_eq_some_iff.1 h
  obtain ⟨hlt, -⟩ := Array.getElem?_eq_some_iff.1 hi
  simp only [Option.map_some, Option.bind_some, Array.getElem?_setIfInBounds, hlt, if_true]
  by_cases hij : i = j
  · rw [if_pos hij, if_pos hij.symm]
  · rw [if_neg hij, if_neg (Ne.symm hij)]

theorem element?_pointers (h : o.format.isPointers = true) :
    o.element? named characters slot = o.pointers[slot + named]?.map .pointer := by
  unfold element?
  cases hformat : o.format <;> simp_all [Format.isPointers, Format.code]

theorem element?_words (h : o.format = .words) :
    o.element? named characters slot = (o.words?.bind (·[slot]?)).map .word := by
  simp only [element?, h]

theorem element?_bytes (h : o.format = .bytes) : o.element? named characters slot =
    (o.bytes?.bind (·[slot]?)).map (.ofByte characters) := by
  simp only [element?, h]

theorem element?_method (h : o.format = .method) : o.element? named characters slot =
    if 4 * o.pointers.size ≤ slot then
      (o.bytes?.bind (·[slot - 4 * o.pointers.size]?)).map .byte
    else
      none := by
  simp only [element?, h]

theorem element?_setByte_bytes {e₀ : Element} {b : UInt8} (hformat : o.format = .bytes)
    (h : o.element? named characters slot = some e₀) :
    (o.setByte (o.bytePlace slot) b).element? named characters j =
      if j = slot then some (.ofByte characters b) else o.element? named characters j := by
  rw [element?_bytes hformat] at h
  obtain ⟨old, hold, -⟩ := Option.map_eq_some_iff.1 h
  have hplace : o.bytePlace slot = slot := if_neg (by rw [hformat]; decide)
  rw [hplace, element?_bytes ((o.remains_setByte slot b).format.trans hformat), element?_bytes hformat,
    bytes?_setByte, bind_setIfInBounds hold]
  by_cases hj : j = slot
  · rw [if_pos hj, if_pos hj]
    rfl
  · rw [if_neg hj, if_neg hj]

theorem element?_setByte_method {e₀ : Element} {b : UInt8} (hformat : o.format = .method)
    (h : o.element? named characters slot = some e₀) :
    (o.setByte (o.bytePlace slot) b).element? named characters j =
      if j = slot then some (.byte b) else o.element? named characters j := by
  rw [element?_method hformat] at h
  split_ifs at h with hslot
  obtain ⟨old, hold, -⟩ := Option.map_eq_some_iff.1 h
  have hplace : o.bytePlace slot = slot - 4 * o.pointers.size := if_pos hformat
  rw [hplace, element?_method ((o.remains_setByte _ b).format.trans hformat), element?_method hformat,
    pointers_setByte, bytes?_setByte, bind_setIfInBounds hold]
  by_cases hj : j = slot
  · rw [if_pos hj, if_pos (hj ▸ hslot), if_pos (by rw [hj])]
    rfl
  · rw [if_neg hj]
    -- a place before the bytecodes is not a place at all
    split_ifs with hle hsame
    · omega
    · rfl
    · rfl

/-- A stored element is found in its place, and all others are as they were. -/
theorem element?_setElement {e₀ e : Element} (h : o.element? named characters slot = some e₀)
    (he : o.format.keeps characters e = true) :
    (o.setElement named slot e).element? named characters j =
      if j = slot then some e else o.element? named characters j := by
  have hsame := o.remains_setElement named slot e
  cases e with
  | pointer x =>
    rw [element?_pointers he] at h
    obtain ⟨old, hold, -⟩ := Option.map_eq_some_iff.1 h
    have hset : (o.pointers.setIfInBounds (slot + named) x)[j + named]? =
        if j + named = slot + named then some x else o.pointers[j + named]? :=
      bind_setIfInBounds (show (some o.pointers).bind (·[slot + named]?) = some old from hold)
    simp only [Nat.add_right_cancel_iff] at hset
    rw [element?_pointers (hsame.format ▸ he), element?_pointers he]
    rw [setElement, setPointer, hset]
    split <;> rfl
  | word w =>
    have hwords : o.format = .words := of_decide_eq_true he
    rw [element?_words hwords] at h
    obtain ⟨old, hold, -⟩ := Option.map_eq_some_iff.1 h
    rw [element?_words (hsame.format.trans hwords), element?_words hwords, setElement, words?_setWord,
      bind_setIfInBounds hold]
    split <;> rfl
  | byte b =>
    simp only [Format.keeps, Bool.or_eq_true, Bool.and_eq_true, decide_eq_true_eq,
      Bool.not_eq_true'] at he
    rcases he with hmethod | ⟨hbytes, rfl⟩
    · exact element?_setByte_method hmethod h
    · exact element?_setByte_bytes hbytes h
  | character b =>
    simp only [Format.keeps, Bool.and_eq_true, decide_eq_true_eq] at he
    obtain ⟨hbytes, rfl⟩ := he
    exact element?_setByte_bytes hbytes h

end Object

/-- A change of an object depends on what it makes of that object only. -/
theorem Memory.modify_congr {memory : Memory} {f g : Object → Object} (h : memory.get? v = some o)
    (hfg : f o = g o) : memory.modify v f = memory.modify v g := by
  obtain ⟨index, generation, slot, rfl, hslot, -, ho⟩ := get?_eq_some.1 h
  have hslots : memory.slots.modify index.toNat (fun s => { s with object := s.object.map f }) =
      memory.slots.modify index.toNat fun s => { s with object := s.object.map g } := by
    refine Array.ext_getElem? fun j => ?_
    rw [Array.getElem?_modify, Array.getElem?_modify]
    split
    · rename_i hj
      rw [← hj, hslot, Option.map_some, Option.map_some, ho, Option.map_some, Option.map_some, hfg]
    · rfl
  simp only [modify, modifyAt, hslots]

/-! ### Elements and values -/

/-- The value is the Character with a code. -/
def Machine.HasCode (m : Machine) (v : Value) (code : Nat) : Prop :=
  ∃ o, m.memory.get? v = some o ∧ o.cls = m.specials.get m.memory Special.classCharacter ∧
    o.pointers[0]? = some (.small code)

/-- The value shows an element: a pointer itself, a word as a natural number, a byte as an integer or as
the Character with that code. -/
inductive Machine.Shows (m : Machine) : Element → Value → Prop
  | pointer (v : Value) : m.Shows (.pointer v) v
  | word {w : UInt32} {v : Value} (h : m.Denotes v w.toNat) : m.Shows (.word w) v
  | byte (b : UInt8) : m.Shows (.byte b) (.small b.toNat)
  | character {b : UInt8} {v : Value} (h : m.HasCode v b.toNat) : m.Shows (.character b) v

/-- The value that is made of an element. -/
def Element.value : Element → Action Value
  | .pointer v => pure v
  | .word w => Action.positive32 w.toNat
  | .byte b => pure (.small b.toNat)
  | .character b => Action.characterFor b.toNat

namespace Attempt

variable {entry : AtEntry} {e : Element}

/-- What an object of a format keeps when a value is stored into it. -/
def elementFor (f : Format) (characters : Bool) (x : Value) : Attempt Element := do
  match f with
  | .words => return .word (UInt32.ofNat (← positive32Value x))
  | .bytes => return .ofByte characters (← byteToPut x characters)
  | .method => return .byte (← byteToPut x characters)
  | _ => return .pointer x

theorem ofOption_map_bind {α β γ : Type} (found : Option α) (g : α → β) (f : β → Attempt γ) :
    (ofOption (found.map g) >>= f) = (ofOption found >>= fun a => f (g a)) := by
  cases found <;> rfl

theorem ofOption_require_bind {α β : Type} {p : Prop} [Decidable p] (found : Option α)
    (f : α → Attempt β) : (ofOption (if p then found else none) >>= f) =
      (do require p; ofOption found >>= f) := by
  by_cases hp : p
  · simp only [if_pos hp, require]
    exact (pure_bind () fun _ => ofOption found >>= f).symm
  · simp only [if_neg hp, require]
    rfl

theorem ofOption_pointer (found : Option Value) :
    (ofOption (found.map Element.pointer) >>= fun e => (liftM e.value : Attempt Value)) =
      ofOption found := by
  cases found <;> rfl

theorem value_ofByte (b : UInt8) : (liftM (Element.ofByte characters b).value : Attempt Value) =
    if characters then liftM (Action.characterFor b.toNat) else pure (.small b.toNat) := by
  cases characters <;> rfl

/-- Reading an element finds what is kept and makes a value of it. -/
theorem elementAt_eq (ho : m.memory.get? array = some o) :
    elementAt array slot entry (.plain characters) m = (do
      let e ← ofOption (o.element? entry.offset entry.asCharacters slot)
      liftM e.value : Attempt Value) m := by
  unfold elementAt Object.element?
  rw [bind_of_ok (lift_ok.2 (Action.object_ok.2 ⟨ho, rfl⟩))]
  cases o.format with
  | words =>
    simp only [ofOption_map_bind]
    rfl
  | bytes =>
    simp only [ofOption_map_bind, value_ofByte]
    rfl
  | method =>
    simp only [ofOption_require_bind, ofOption_map_bind]
    rfl
  | _ => exact congrFun (ofOption_pointer _).symm m

/-- After the same look, what is the same in the machine that was looked at goes on in the same way. -/
theorem Stays.bind_congr {α β : Type} {y : Attempt α} {f g : α → Attempt β} (hy : Stays Eq y)
    (h : ∀ a, y m = .ok a m → f a m = g a m) : (y >>= f) m = (y >>= g) m := by
  cases hrun : y m with
  | error e m' => rw [bind_of_error hrun, bind_of_error hrun]
  | ok a m' =>
    obtain rfl := hy.ok m a m' hrun
    rw [bind_of_ok hrun, bind_of_ok hrun, h a hrun]

/-- An index is in range if there is an entry. -/
theorem require_lt_bind {α β : Type} (xs : Array α) (i : Nat) (y : Attempt β) :
    (do require (i < xs.size); y) = (do let _ ← ofOption xs[i]?; y) := by
  by_cases hi : i < xs.size
  · rw [Array.getElem?_eq_getElem hi, require, if_pos hi]
    rfl
  · rw [Array.getElem?_eq_none (Nat.le_of_not_lt hi), require, if_neg hi]
    rfl

theorem putPointer_eq (ho : m.memory.get? array = some o) : putPointer array i x m = (do
    let _ ← ofOption o.pointers[i]?
    Action.modifyMemory fun memory => memory.modify array (·.setPointer i x) : Attempt Unit) m := by
  unfold putPointer
  rw [bind_of_ok (lift_ok.2 (Action.object_ok.2 ⟨ho, rfl⟩)), require_lt_bind]
  rfl

theorem putWord_eq {w : UInt32} (ho : m.memory.get? array = some o) : putWord array i w m = (do
    let _ ← ofOption (o.words?.bind (·[i]?))
    Action.modifyMemory fun memory => memory.modify array (·.setWord i w) : Attempt Unit) m := by
  unfold putWord
  rw [bind_of_ok (lift_ok.2 (Action.object_ok.2 ⟨ho, rfl⟩))]
  cases o.words? with
  | none => rfl
  | some words => exact congrFun (require_lt_bind ..) m

theorem putByte_eq {b : UInt8} (ho : m.memory.get? array = some o) : putByte array i b m = (do
    let _ ← ofOption (o.bytes?.bind (·[i]?))
    Action.modifyMemory fun memory => memory.modify array (·.setByte i b) : Attempt Unit) m := by
  unfold putByte
  rw [bind_of_ok (lift_ok.2 (Action.object_ok.2 ⟨ho, rfl⟩))]
  cases o.bytes? with
  | none => rfl
  | some bytes => exact congrFun (require_lt_bind ..) m

/-- A byte is put where the object has the element. -/
theorem putByte_element {b : UInt8} (ho : m.memory.get? array = some o) (hplace : o.bytePlace slot = i)
    (he : ∀ o : Object, o.setElement named slot e = o.setByte (o.bytePlace slot) b) :
    putByte array i b m = (do
      let _ ← ofOption (o.bytes?.bind (·[i]?))
      Action.modifyMemory fun memory =>
        memory.modify array (·.setElement named slot e) : Attempt Unit) m := by
  rw [putByte_eq ho]
  refine Stays.ofOption.bind_congr fun _ _ => ?_
  have hmemory : m.memory.modify array (·.setByte i b) =
      m.memory.modify array (·.setElement named slot e) :=
    Memory.modify_congr ho (by rw [he, hplace])
  exact congrArg (fun memory => EStateM.Result.ok () { m with memory }) hmemory

/-- Storing finds what is to be kept and the place for it, and puts it there. -/
theorem elementPut_eq (ho : m.memory.get? array = some o) :
    elementPut array slot x entry (.plain characters) m = (do
      let e ← elementFor o.format entry.asCharacters x
      let _ ← ofOption (o.element? entry.offset entry.asCharacters slot)
      Action.modifyMemory fun memory =>
        memory.modify array (·.setElement entry.offset slot e) : Attempt Unit) m := by
  unfold elementPut
  rw [bind_of_ok (lift_ok.2 (Action.object_ok.2 ⟨ho, rfl⟩))]
  cases hformat : o.format with
  | words =>
    simp only [elementFor, bind_assoc, pure_bind, Object.element?_words hformat, ofOption_map_bind]
    exact positive32Value_stays.bind_congr fun word _ => putWord_eq ho
  | bytes =>
    simp only [elementFor, bind_assoc, pure_bind, Object.element?_bytes hformat, ofOption_map_bind]
    refine byteToPut_stays.bind_congr fun byte _ => putByte_element ho ?_ fun o => ?_
    · exact if_neg (by rw [hformat]; decide)
    · cases entry.asCharacters <;> rfl
  | method =>
    simp only [elementFor, bind_assoc, pure_bind, Object.element?_method hformat,
      ofOption_require_bind, ofOption_map_bind]
    refine byteToPut_stays.bind_congr fun byte _ => Stays.require.bind_congr fun _ _ => ?_
    exact putByte_element ho (if_pos hformat) fun _ => rfl
  | _ =>
    simp only [elementFor, pure_bind, Object.element?_pointers (o := o) (by rw [hformat]; rfl),
      ofOption_map_bind]
    exact putPointer_eq ho

/-- A code is a byte if it is in range. -/
theorem code_ok {k : Int} {b : UInt8} (h : (do require (0 ≤ k ∧ k < 256); return UInt8.ofNat k.toNat :
    Attempt UInt8) m = .ok b m') : k = b.toNat := by
  obtain ⟨_, m₁, hrange, hend⟩ := bind_ok.1 h
  have hin := require_ok hrange
  obtain ⟨rfl, -⟩ := pure_ok.1 hend
  rw [UInt8.toNat_ofNat']
  omega

/-- A byte to store is an integer or the code of a Character. -/
theorem byteToPut_ok {b : UInt8} (h : byteToPut x characters m = .ok b m') :
    m.Shows (.ofByte characters b) x := by
  unfold byteToPut at h
  cases characters with
  | false =>
    cases x with
    | small k =>
      obtain rfl := code_ok h
      exact .byte b
    | ref index generation => exact (throw_ok.1 h).elim
  | true =>
    rw [if_pos rfl] at h
    obtain ⟨character, m₁, hcharacter, h⟩ := bind_ok.1 h
    obtain ⟨rfl, rfl⟩ := EStateM.Result.ok.inj (Action.isInstanceOf_eq.symm.trans (lift_ok.1 hcharacter))
    obtain ⟨_, m₂, hrequire, h⟩ := bind_ok.1 h
    obtain ⟨o, ho, hcls⟩ := (Option.any_eq_true _ _).1 (require_ok hrequire)
    obtain rfl := (Stays.require (R := Eq)).ok _ _ _ hrequire
    obtain ⟨field, m₃, hfield, h⟩ := bind_ok.1 h
    obtain ⟨hcell, rfl⟩ := Action.fetch_ok.1 (lift_ok.1 hfield)
    obtain ⟨code, m₄, hcode, h⟩ := bind_ok.1 h
    obtain rfl := (Stays.ofOption (R := Eq)).ok _ _ _ hcode
    cases field with
    | small k =>
      obtain ⟨rfl, -⟩ := pure_ok.1 hcode
      obtain rfl := code_ok h
      obtain ⟨o', ho', hzero⟩ := Memory.cell_eq_some.1 hcell
      obtain rfl := Option.some.inj (ho.symm.trans ho')
      exact .character ⟨o, ho, beq_iff_eq.1 hcls, hzero⟩
    | ref index generation => exact (throw_ok.1 hcode).elim

/-- What is kept of a value is of the kind that the format keeps, and shows as the value. -/
theorem elementFor_ok {f : Format} (hmethod : characters = true → f ≠ .method)
    (h : elementFor f characters x m = .ok e m') :
    m = m' ∧ f.keeps characters e = true ∧ m.Shows e x := by
  cases f with
  | words =>
    obtain ⟨word, m₁, hword, hend⟩ := bind_ok.1 h
    rcases positive32Value_outcome (m := m) (v := x) with ⟨k, hk, hread⟩ | ⟨-, hread⟩
    · rw [hread] at hword
      obtain ⟨rfl, rfl⟩ := EStateM.Result.ok.inj hword
      obtain ⟨rfl, rfl⟩ := pure_ok.1 hend
      refine ⟨rfl, rfl, .word ?_⟩
      rw [UInt32.toNat_ofNat', Nat.mod_eq_of_lt hk.lt]
      exact hk
    · rw [hread] at hword
      cases hword
  | bytes =>
    obtain ⟨byte, m₁, hbyte, hend⟩ := bind_ok.1 h
    obtain rfl := (byteToPut_stays (R := Eq)).ok _ _ _ hbyte
    obtain ⟨rfl, rfl⟩ := pure_ok.1 hend
    exact ⟨rfl, by cases characters <;> rfl, byteToPut_ok hbyte⟩
  | method =>
    obtain ⟨byte, m₁, hbyte, hend⟩ := bind_ok.1 h
    obtain rfl := (byteToPut_stays (R := Eq)).ok _ _ _ hbyte
    obtain ⟨rfl, rfl⟩ := pure_ok.1 hend
    cases characters with
    | true => exact absurd rfl (hmethod rfl)
    | false => exact ⟨rfl, rfl, byteToPut_ok hbyte⟩
  | _ =>
    obtain ⟨rfl, rfl⟩ := pure_ok.1 h
    exact ⟨rfl, rfl, .pointer x⟩

theorem elementFor_pointers {f : Format} (h : f.isPointers = true) :
    elementFor f characters x = pure (.pointer x) := by
  unfold elementFor
  cases f <;> first | rfl | exact absurd h (by decide)

theorem elementFor_stays {f : Format} : Stays Eq (elementFor f characters x) := by
  unfold elementFor
  split
  · exact positive32Value_stays.bind fun _ => .pure
  · exact byteToPut_stays.bind fun _ => .pure
  · exact byteToPut_stays.bind fun _ => .pure
  · exact .pure

/-- A store that ends has replaced an element that was there. -/
theorem elementPut_ok {u : Unit} (ho : m.memory.get? array = some o)
    (h : elementPut array slot x entry (.plain characters) m = .ok u m') :
    ∃ e₀ e, o.element? entry.offset entry.asCharacters slot = some e₀ ∧
      elementFor o.format entry.asCharacters x m = .ok e m ∧
      m' = m.modified array fun o => o.setElement entry.offset slot e := by
  rw [elementPut_eq ho] at h
  obtain ⟨e, m₁, he, h⟩ := bind_ok.1 h
  obtain rfl := elementFor_stays.ok _ _ _ he
  obtain ⟨e₀, m₂, hold, hend⟩ := bind_ok.1 h
  cases hfound : o.element? entry.offset entry.asCharacters slot with
  | none =>
    rw [hfound] at hold
    exact (throw_ok.1 hold).elim
  | some old =>
    rw [hfound] at hold
    obtain ⟨rfl, rfl⟩ := pure_ok.1 hold
    exact ⟨_, e, rfl, he, (Action.modifyMemory_ok.1 (lift_ok.1 hend)).symm⟩

end Attempt

/-! ### Bounds -/

/-- Whether a value is an instance of the class at a place of the special objects array. -/
def Machine.isInstance (m : Machine) (v : Value) (i : Nat) : Bool :=
  (m.memory.get? v).any fun o => o.cls == m.specials.get m.memory i

/-- Whether a value is a method or block context. -/
def Machine.isContext (m : Machine) (v : Value) : Bool :=
  m.isInstance v Special.classMethodContext || m.isInstance v Special.classBlockContext

/-- The number of named fields of an object. The class tells it if the format does not, and has to have
a format word then. -/
def Machine.named? (m : Machine) (o : Object) : Option Nat :=
  match o.format with
  | .fixedIndexable | .weak => ((m.memory.cell o.cls Class.format).bind Value.asSmall?).map fun word =>
      o.namedFields (some (.decode word))
  | _ => some (o.namedFields none)

/-- The number of indexed elements of an object that is not a context, if it is indexed. -/
def Object.indexed? (o : Object) (named : Nat) : Option Nat :=
  match o.format with
  | .empty | .fixed => none
  | .indexable | .fixedIndexable | .weak => some (o.pointers.size - named)
  | .words | .bytes => some o.body.size
  | .method => some (o.body.size + 4 * o.pointers.size)

/-- The number of indexed elements of a value, if it is indexed, as far as that is known: a context has to
have stored its stack pointer, and a class that is asked for the named fields its format word. -/
def Machine.size? (m : Machine) (v : Value) : Option (Option Nat) :=
  if v.isSmall then
    some none
  else if m.isContext v then
    ((m.memory.cell v Context.stackPointer).bind Value.asSmall?).map fun k => some k.toNat
  else
    (m.memory.get? v).bind fun o => (m.named? o).map o.indexed?

/-- The pointer fields before the first element of an object. -/
def Object.offset (o : Object) (named : Nat) : Nat := if o.format.isPointers then named else 0

/-- The bounds for an access to an object with `named` named fields. -/
def Object.bounds (o : Object) (array : Value) (mode : AccessMode) (named : Nat) (size : Option Nat) :
    AtEntry :=
  if mode.withNamedFields then
    { array, size := size.getD 0 + named, offset := 0, asCharacters := mode.asCharacters }
  else
    { array, size := size.getD 0, offset := o.offset named, asCharacters := mode.asCharacters }

/-- Only pointers are counted past the named fields. -/
theorem Object.element?_offset :
    o.element? (o.offset named) characters slot = o.element? named characters slot := by
  by_cases hpointers : o.format.isPointers = true
  · rw [offset, if_pos hpointers]
  · unfold element?
    cases hformat : o.format <;> first | rfl | exact absurd (by rw [hformat]; rfl) hpointers

theorem Object.setElement_offset {e : Element} (he : o.format.keeps characters e = true) :
    o.setElement (o.offset named) slot e = o.setElement named slot e := by
  cases e with
  | pointer x => rw [offset, if_pos (show o.format.isPointers = true from he)]
  | _ => rfl

namespace Action

theorem isInstanceOf_isInstance : isInstanceOf v i m = .ok (m.isInstance v i) m := isInstanceOf_eq

theorem isContext_eq : isContext v m = .ok (m.isContext v) m := by
  unfold isContext Machine.isContext
  rw [bind_of_ok isInstanceOf_isInstance]
  cases m.isInstance v Special.classMethodContext with
  | true => rfl
  | false => exact isInstanceOf_eq

theorem instanceSpec_ok {cls : Value} {spec : InstanceSpec} : instanceSpec cls m = .ok spec m' ↔
    (∃ word, m.memory.cell cls Class.format = some (.small word) ∧ .decode word = spec) ∧ m = m' := by
  simp only [instanceSpec, bind_ok, fetchInt_ok, pure_ok]
  constructor
  · rintro ⟨word, _, ⟨hword, rfl⟩, hspec, rfl⟩
    exact ⟨⟨word, hword, hspec⟩, rfl⟩
  · rintro ⟨⟨word, hword, hspec⟩, rfl⟩
    exact ⟨word, m, ⟨hword, rfl⟩, hspec, rfl⟩

/-- The class is asked for the named fields if the format leaves them open. -/
theorem fixedFields_spec_ok : (do return o.namedFields (some (← instanceSpec o.cls)) : Action Nat) m =
      .ok n m' ↔ ((m.memory.cell o.cls Class.format).bind Value.asSmall?).map (fun word =>
        o.namedFields (some (.decode word))) = some n ∧ m = m' := by
  simp only [bind_ok, instanceSpec_ok, pure_ok, Option.map_eq_some_iff, Option.bind_eq_some_iff]
  constructor
  · rintro ⟨_, _, ⟨⟨word, hword, rfl⟩, rfl⟩, hn, rfl⟩
    exact ⟨⟨word, ⟨_, hword, rfl⟩, hn⟩, rfl⟩
  · rintro ⟨⟨word, ⟨v, hv, hword⟩, hn⟩, rfl⟩
    cases v with
    | small k =>
      obtain rfl := Option.some.inj hword
      exact ⟨_, m, ⟨⟨k, hv, rfl⟩, rfl⟩, hn, rfl⟩
    | ref index generation => exact absurd hword (by simp [Value.asSmall?])

theorem fixedFields_ok : fixedFields v m = .ok n m' ↔
    (∃ o, m.memory.get? v = some o ∧ m.named? o = some n) ∧ m = m' := by
  have named (o : Object) : (match o.format with
      | .fixedIndexable | .weak => do return o.namedFields (some (← instanceSpec o.cls))
      | _ => return o.namedFields none : Action Nat) m = .ok n m' ↔ m.named? o = some n ∧ m = m' := by
    unfold Machine.named?
    cases o.format with
    | fixedIndexable => exact fixedFields_spec_ok
    | weak => exact fixedFields_spec_ok
    | _ => simp only [pure_ok, Option.some.injEq]
  unfold fixedFields
  simp only [bind_ok, object_ok]
  constructor
  · rintro ⟨o, _, ⟨ho, rfl⟩, h⟩
    obtain ⟨hn, rfl⟩ := (named o).1 h
    exact ⟨⟨o, ho, hn⟩, rfl⟩
  · rintro ⟨⟨o, ho, hn⟩, rfl⟩
    exact ⟨o, m, ⟨ho, rfl⟩, (named o).2 ⟨hn, rfl⟩⟩

theorem fixedFields_of (ho : m.memory.get? v = some o) (hn : m.named? o = some n) :
    fixedFields v m = .ok n m := fixedFields_ok.2 ⟨⟨o, ho, hn⟩, rfl⟩

/-- The number of elements of an object that is not a context. -/
theorem indexableSize_of (ho : m.memory.get? v = some o) (hv : m.isContext v = false)
    (hn : m.named? o = some n) : indexableSize v m = .ok (o.indexed? n) m := by
  unfold indexableSize Object.indexed?
  rw [Memory.isSmall_of_isLive (Memory.isLive_of_get? ho), if_neg Bool.false_ne_true,
    bind_of_ok isContext_eq, hv, if_neg Bool.false_ne_true, bind_of_ok (object_ok.2 ⟨ho, rfl⟩)]
  cases o.format with
  | indexable => exact bind_of_ok (fixedFields_of ho hn)
  | fixedIndexable => exact bind_of_ok (fixedFields_of ho hn)
  | weak => exact bind_of_ok (fixedFields_of ho hn)
  | _ => rfl

/-- The number of elements of a context. -/
theorem indexableSize_of_context {sp : Int} (hv : m.isContext v = true)
    (hsp : m.memory.cell v Context.stackPointer = some (.small sp)) :
    indexableSize v m = .ok (some sp.toNat) m := by
  unfold indexableSize
  rw [Memory.isSmall_of_isLive (Memory.isLive_of_cell hsp), if_neg Bool.false_ne_true,
    bind_of_ok isContext_eq, hv, if_pos rfl, bind_of_ok (fetchInt_ok.2 ⟨hsp, rfl⟩)]
  rfl

theorem indexableSize_of_size? {size : Option Nat} (h : m.size? v = some size) :
    indexableSize v m = .ok size m := by
  unfold Machine.size? at h
  split_ifs at h with hsmall hcontext
  · obtain rfl := Option.some.inj h
    unfold indexableSize
    rw [if_pos hsmall]
    rfl
  · obtain ⟨k, hk, rfl⟩ := Option.map_eq_some_iff.1 h
    obtain ⟨w, hw, hk⟩ := Option.bind_eq_some_iff.1 hk
    cases w with
    | small j =>
      obtain rfl := Option.some.inj hk
      exact indexableSize_of_context hcontext hw
    | ref index generation => cases hk
  · obtain ⟨o, ho, h⟩ := Option.bind_eq_some_iff.1 h
    obtain ⟨n, hn, rfl⟩ := Option.map_eq_some_iff.1 h
    exact indexableSize_of ho (Bool.not_eq_true _ ▸ hcontext) hn

/-- The format leaves the named fields open. -/
theorem format_of_named? (h : m.named? o = none) : o.format = .fixedIndexable ∨ o.format = .weak := by
  unfold Machine.named? at h
  split at h
  · exact .inl ‹_›
  · exact .inr ‹_›
  · cases h

/-- The size that is found is the one there is. -/
theorem size?_of_indexableSize {size : Option Nat} (h : indexableSize v m = .ok size m') :
    m.size? v = some size := by
  cases hsize : m.size? v with
  | some size' =>
    obtain ⟨rfl, -⟩ := EStateM.Result.ok.inj ((indexableSize_of_size? hsize).symm.trans h)
    rfl
  | none =>
    exfalso
    unfold Machine.size? at hsize
    unfold indexableSize at h
    split_ifs at hsize h with hsmall hcontext
    · rw [bind_of_ok isContext_eq, if_pos hcontext] at h
      obtain ⟨k, m₁, hk, -⟩ := bind_ok.1 h
      rw [(fetchInt_ok.1 hk).1] at hsize
      cases hsize
    · rw [bind_of_ok isContext_eq, if_neg hcontext] at h
      obtain ⟨o, m₁, hobject, h⟩ := bind_ok.1 h
      obtain ⟨ho, rfl⟩ := object_ok.1 hobject
      rw [ho, Option.bind_some, Option.map_eq_none_iff] at hsize
      have hfixed : ∃ n m₂, fixedFields v m = .ok n m₂ := by
        rcases format_of_named? hsize with hformat | hformat
        · rw [hformat] at h
          obtain ⟨n, m₂, hn, -⟩ := bind_ok.1 h
          exact ⟨n, m₂, hn⟩
        · rw [hformat] at h
          obtain ⟨n, m₂, hn, -⟩ := bind_ok.1 h
          exact ⟨n, m₂, hn⟩
      obtain ⟨n, m₂, hn⟩ := hfixed
      obtain ⟨⟨o', ho', hnamed⟩, -⟩ := fixedFields_ok.1 hn
      obtain rfl := Option.some.inj (ho.symm.trans ho')
      rw [hsize] at hnamed
      cases hnamed

/-- A field of a special object is fetched. -/
theorem fetch_special {k : Nat} (h : m.memory.cell (m.specials.get m.memory k) i = some x) :
    (do fetch (← special k) i : Action Value) m = .ok x m :=
  (bind_of_ok (special_ok.2 ⟨rfl, rfl⟩)).trans (fetch_ok.2 ⟨h, rfl⟩)

/-- The bounds that are worked out are remembered at most. Those of a context are not even that. -/
theorem atEntry_of (access : Access) (mode : AccessMode) {size : Option Nat}
    (ho : m.memory.get? array = some o) (hn : m.named? o = some n) (hsize : m.size? array = some size)
    (hselector : ∃ selector, specialSelector (selectorIndex access) m = .ok selector m) :
    ∃ c, (m.isContext array = true → c = m.atCache) ∧
      atEntry access array mode m = .ok (o.bounds array mode n size) (m.recalling c) := by
  obtain ⟨selector, hselector⟩ := hselector
  have hcls : classOf array m = .ok o.cls m := classOf_ok.2 ⟨.inr ⟨o, ho, rfl⟩, rfl⟩
  have hget : (get : Action Machine) m = .ok m m := rfl
  unfold atEntry
  rw [bind_of_ok (fixedFields_of ho hn), bind_of_ok (indexableSize_of_size? hsize),
    bind_of_ok (object_ok.2 ⟨ho, rfl⟩), bind_of_ok hselector, bind_of_ok hcls, bind_of_ok hget]
  split
  · rw [bind_of_ok isContext_eq]
    cases m.isContext array with
    | true => exact ⟨m.atCache, fun _ => rfl, rfl⟩
    | false =>
      simp only [Bool.not_false, if_true]
      rw [bind_of_ok (object_ok.2 ⟨ho, rfl⟩)]
      exact ⟨_, fun h => absurd h (by decide), rfl⟩
  · exact ⟨m.atCache, fun _ => rfl, rfl⟩

end Action

/-! ### Accesses -/

/-- How a numbered primitive that is tried has ended. -/
theorem Action.tryPrimitive_ok {p : Primitive} {trial : Trial} (hp : p ∈ Primitive.all)
    (hquick : ¬(256 ≤ p.number ∧ p.number < 520)) (h : tryPrimitive p.number n m = .ok trial m') :
    (trial = .handled ∧ p.action n m = .ok .done m') ∨
    (∃ selector count cls, trial = .resend selector count cls ∧
      p.action n m = .ok (.resend selector count cls) m') ∨
    (trial = .unhandled ∧ ∃ m₁, p.action n m = .error .declined m₁ ∧ m' = m₁.refused) := by
  obtain ⟨hdone, hdeclined, hfault⟩ := tryPrimitive_of_mem (n := n) (m := m) hp hquick
  cases hrun : p.action n m with
  | ok completion m₁ =>
    cases completion with
    | done =>
      obtain ⟨rfl, rfl⟩ := EStateM.Result.ok.inj ((hdone m₁ hrun).symm.trans h)
      exact .inl ⟨rfl, rfl⟩
    | resend selector count cls =>
      unfold tryPrimitive at h
      rw [if_neg hquick, Primitive.find?_of_mem hp] at h
      have hended : (p.action n).run? m = .ok (some (.resend selector count cls)) m₁ := by
        rw [Attempt.run?, hrun]
      dsimp only at h
      rw [bind_of_ok hended] at h
      obtain ⟨rfl, rfl⟩ := pure_ok.1 h
      exact .inr (.inl ⟨selector, count, cls, rfl, rfl⟩)
  | error e m₁ =>
    cases e with
    | declined =>
      obtain ⟨rfl, rfl⟩ := EStateM.Result.ok.inj ((hdeclined m₁ hrun).symm.trans h)
      exact .inr (.inr ⟨rfl, m₁, rfl, rfl⟩)
    | fault fault =>
      rw [hfault fault m₁ hrun] at h
      cases h

namespace Attempt

theorem bind_eq_of_eq {α β : Type} {y z : Attempt α} {f : α → Attempt β} (h : y m = z m) :
    (y >>= f) m = (z >>= f) m := by
  change EStateM.bind y f m = EStateM.bind z f m
  rw [EStateM.bind, EStateM.bind, h]

/-- An element is read by the bounds of the array, if the index is a number. -/
theorem indexedAt_slow (harray : Action.stackValue 1 m = .ok array m) (ho : m.memory.get? array = some o)
    (hindex : Action.stackValue 0 m = .ok v m)
    (hfloat : m.isInstance array Special.classFloat = false) :
    indexedAt false (.plain characters) m = (do
      let index ← positive32Value v
      let entry ← Action.atEntry .at array (.plain characters)
      require (1 ≤ index ∧ index ≤ entry.size)
      elementAt array (index - 1) entry (.plain characters) : Attempt Value) m := by
  have hplain : (liftM (Action.isInstanceOf array Special.classFloat) : Attempt Bool) m = .ok false m :=
    lift_ok.2 (hfloat ▸ Action.isInstanceOf_isInstance)
  unfold indexedAt
  rw [bind_of_ok (stackObject_eq harray ho)]
  have hnumber : stackPositive32 0 m = positive32Value v m := bind_of_ok (lift_ok.2 hindex)
  rw [bind_eq_of_eq hnumber]
  refine positive32Value_stays.bind_congr fun index _ => ?_
  rw [bind_of_ok hplain]
  rfl

theorem indexedAtPut_slow (harray : Action.stackValue 2 m = .ok array m)
    (ho : m.memory.get? array = some o) (hindex : Action.stackValue 1 m = .ok v m)
    (hx : Action.stackValue 0 m = .ok x m) :
    indexedAtPut false (.plain characters) m = (do
      let index ← positive32Value v
      let entry ← Action.atEntry .atPut array (.plain characters)
      require (1 ≤ index ∧ index ≤ entry.size)
      elementPut array (index - 1) x entry (.plain characters)
      return x : Attempt Value) m := by
  have hnumber : stackPositive32 1 m = positive32Value v m := bind_of_ok (lift_ok.2 hindex)
  unfold indexedAtPut
  rw [bind_of_ok (stackObject_eq harray ho), bind_eq_of_eq hnumber]
  refine positive32Value_stays.bind_congr fun index _ => ?_
  exact bind_of_ok (show stackValue 0 m = .ok x m from lift_ok.2 hx)

/-- An answer takes the place of the receiver. -/
theorem answer_of (deep : n + 1 ≤ m.registers.sp)
    (h : ∃ w, m.memory.cell m.registers.context (m.registers.sp - n) = some w) :
    answer n x m = .ok .done (Action.pushed (Action.popped m (n + 1)) x) := by
  have hplace : m.registers.sp - (n + 1) + 1 = m.registers.sp - n := by omega
  have hpush : Action.popThenPush (n + 1) x m = .ok () (Action.pushed (Action.popped m (n + 1)) x) :=
    Action.popThenPush_ok.2 ⟨deep, by rw [hplace]; exact h, rfl⟩
  exact bind_of_ok (lift_ok.2 hpush)

end Attempt

end Smalltalk
