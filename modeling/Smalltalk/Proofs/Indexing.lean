import Smalltalk.Proofs.Allocation
import Smalltalk.Proofs.Entering
import Smalltalk.Proofs.Restacking
import Smalltalk.Proofs.Sizes

/-!
# Access by index

An indexed object is a map from the indices up to its size to what it keeps there. What is read is what
the map has, and an index outside is refused. An access does not only go by the object: it also asks the
special objects array for some classes and for its selector, and the class of the object for the number
of named fields. Where one of these is not found, no access succeeds.
-/

namespace Smalltalk

open Outcome

variable {m m' m₁ : Machine} {o : Object} {array v x : Value} {e : Element}
  {named size i j n slot : Nat} {characters : Bool}

/-! ### Objects as maps -/

namespace Object

/-- The elements of an object by their indices, which count from one. -/
def elements (o : Object) (named size : Nat) (characters : Bool) (i : Nat) : Option Element :=
  if 1 ≤ i ∧ i ≤ size then o.element? named characters (i - 1) else none

theorem elements_eq_some : o.elements named size characters i = some e ↔
    (1 ≤ i ∧ i ≤ size) ∧ o.element? named characters (i - 1) = some e := by
  unfold elements
  split_ifs with hrange
  · simp only [hrange, true_and]
  · simp only [hrange, false_and]

/-- A stored element is an update of the map. -/
theorem elements_setElement {e₀ : Element} (h : o.elements named size characters i = some e₀)
    (he : o.format.keeps characters e = true) :
    (o.setElement named (i - 1) e).elements named size characters =
      Function.update (o.elements named size characters) i (some e) := by
  obtain ⟨hrange, hold⟩ := elements_eq_some.1 h
  funext j
  rw [Function.update_apply, elements, element?_setElement hold he, elements]
  by_cases hj : j = i
  · rw [if_pos hj, if_pos (hj ▸ hrange), if_pos (by rw [hj])]
  · rw [if_neg hj]
    split_ifs with hin hplace
    · omega
    · rfl
    · rfl

/-- Only bytes that are read as characters stand for Characters. -/
theorem characters_of_element? {b : UInt8}
    (h : o.element? named characters slot = some (.character b)) : characters = true := by
  unfold element? at h
  split at h
  · obtain ⟨w, -, hw⟩ := Option.map_eq_some_iff.1 h
    cases hw
  · obtain ⟨b', -, hb⟩ := Option.map_eq_some_iff.1 h
    cases characters with
    | true => rfl
    | false => cases hb
  · split_ifs at h
    obtain ⟨b', -, hb⟩ := Option.map_eq_some_iff.1 h
    cases hb
  · obtain ⟨v, -, hv⟩ := Option.map_eq_some_iff.1 h
    cases hv

theorem pointers_setWord (w : UInt32) : (o.setWord i w).pointers = o.pointers := by
  obtain ⟨cls, format, hash, pointers, body⟩ := o
  cases body <;> rfl

/-- An element is no named field. -/
theorem pointers_setElement (hj : j < named) :
    (o.setElement named slot e).pointers[j]? = o.pointers[j]? := by
  cases e with
  | pointer x => exact Array.getElem?_setIfInBounds_ne (by omega)
  | word w => rw [setElement, pointers_setWord]
  | byte b => rw [setElement, pointers_setByte]
  | character b => rw [setElement, pointers_setByte]

/-- Words and bytes are no fields. -/
theorem pointers_setElement_raw (hformat : o.format.isPointers = false)
    (he : o.format.keeps characters e = true) : (o.setElement named slot e).pointers = o.pointers := by
  cases e with
  | pointer x =>
    rw [Format.keeps, hformat] at he
    cases he
  | word w => rw [setElement, pointers_setWord]
  | byte b => rw [setElement, pointers_setByte]
  | character b => rw [setElement, pointers_setByte]

end Object

/-! ### Values of elements -/

/-- An object may have been added. What was there is as it was. -/
structure Machine.Adds (m m' : Machine) : Prop where
  registers : m'.registers = m.registers
  specials : m'.specials = m.specials
  kept : ∀ w, m.memory.isLive w = true → m'.memory.get? w = m.memory.get? w

theorem Machine.Adds.refl (m : Machine) : m.Adds m := ⟨rfl, rfl, fun _ _ => rfl⟩

/-- Where there is room an object is added under a reference that did not resolve. -/
theorem Action.exists_allocate (room : m.memory.Roomy) (o : Object) : ∃ x m' hash,
    allocate o m = .ok x m' ∧ m.Adds m' ∧ m'.memory.get? x = some { o with hash } := by
  have hrun : allocate o m = onMemory (Memory.register o) m := by
    rw [allocate_eq]
    simp only [room.space, Bool.false_eq_true, if_false]
  rw [hrun, register_of_room room.space]
  have hplaceable : (m.memory.setHashSeed (Memory.nextSeed m.memory.hashSeed)).Placeable :=
    room.placeable
  refine ⟨_, _, Memory.seedHash (Memory.nextSeed m.memory.hashSeed), rfl,
    ⟨rfl, rfl, fun w hw => ?_⟩, ?_⟩
  · refine (Memory.get?_place hplaceable w).trans (if_neg ?_)
    rintro rfl
    exact absurd (Memory.place_fresh hplaceable) (ne_false_of_eq_true hw)
  · exact (Memory.get?_place hplaceable _).trans (if_pos rfl)

/-- Where there is room, every number of 32 bits has an integer object. -/
theorem Action.exists_positive32 (room : m.memory.Roomy)
    (live : m.memory.isLive m.specials.array = true) (hn : n < 2 ^ 32) :
    ∃ x m', positive32 n m = .ok x m' ∧ m.Adds m' ∧ m'.Denotes x n := by
  by_cases hsmall : n < 2 ^ 30
  · exact ⟨_, m, positive32_immediate hsmall, .refl m, .immediate hn⟩
  · rw [positive32_large (Nat.not_lt.1 hsmall)]
    obtain ⟨x, m', hash, hrun, hadds, ho⟩ := exists_allocate room
      (.ofBytes (m.specials.get m.memory Special.classLargePositiveInteger) (littleEndian n))
    have hcls : m'.specials.get m'.memory Special.classLargePositiveInteger =
        m.specials.get m.memory Special.classLargePositiveInteger := by
      rw [SpecialObjects.get, SpecialObjects.get, hadds.specials, hadds.kept _ live]
    have hdenotes := Machine.Denotes.large ho hcls.symm rfl (Nat.le_refl 4)
    rw [byteValue_littleEndian hn] at hdenotes
    exact ⟨x, m', hrun, hadds, hdenotes⟩

/-! ### Looking -/

section

variable {ε α β : Type} {y : EStateM ε Machine α} {f : α → EStateM ε Machine β}

/-- A computation after which the machine is the same, even if it fails. -/
def Peeks (y : EStateM ε Machine α) : Prop :=
  ∀ m, (∃ a, y m = .ok a m) ∨ ∃ failure, y m = .error failure m

namespace Peeks

theorem pure {a : α} : Peeks (pure a : EStateM ε Machine α) := fun _ => .inl ⟨a, rfl⟩

theorem throw {failure : ε} : Peeks (throw failure : EStateM ε Machine α) := fun _ =>
  .inr ⟨failure, rfl⟩

theorem get : Peeks (get : EStateM ε Machine Machine) := fun m => .inl ⟨m, rfl⟩

theorem bind (hy : Peeks y) (hf : ∀ a, Peeks (f a)) : Peeks (y >>= f) := by
  intro m
  rcases hy m with ⟨a, ha⟩ | ⟨failure, hfailure⟩
  · rw [bind_of_ok ha]
    exact hf a m
  · exact .inr ⟨failure, bind_of_error hfailure⟩

/-- What does not succeed fails, and in the same machine. -/
theorem fails (hy : Peeks y) (hne : ∀ a, y m ≠ .ok a m) : ∃ failure, y m = .error failure m :=
  (hy m).resolve_left fun ⟨a, ha⟩ => hne a ha

end Peeks

end

namespace Action

theorem peeks_ofExcept {α : Type} {r : Except Fault α} : Peeks (ofExcept r) := by
  cases r with
  | ok a => exact .pure
  | error fault => exact .throw

theorem peeks_fetch : Peeks (fetch v i) := .bind .get fun _ => peeks_ofExcept

theorem peeks_special : Peeks (special i) := .bind .get fun _ => .bind .get fun _ => .pure

theorem peeks_specialSelector : Peeks (specialSelector i) := .bind peeks_special fun _ => peeks_fetch

theorem peeks_instanceSpec : Peeks (instanceSpec v) := by
  refine .bind (.bind peeks_fetch fun x => ?_) fun _ => .pure
  cases x with
  | small k => exact .pure
  | ref index generation => exact .throw

theorem peeks_fixedFields : Peeks (fixedFields v) := by
  refine .bind (.bind .get fun _ => peeks_ofExcept) fun o => ?_
  cases o.format with
  | fixedIndexable => exact .bind peeks_instanceSpec fun _ => .pure
  | weak => exact .bind peeks_instanceSpec fun _ => .pure
  | _ => exact .pure

end Action

namespace Attempt

theorem peeks_lift {α : Type} {y : Action α} (hy : Peeks y) : Peeks (liftM y : Attempt α) := by
  intro m
  rcases hy m with ⟨a, ha⟩ | ⟨fault, hfault⟩
  · exact .inl ⟨a, lift_ok.2 ha⟩
  · exact .inr ⟨_, lift_fault hfault⟩

theorem peeks_require {p : Prop} [Decidable p] : Peeks (require p) := by
  intro m
  by_cases hp : p
  · exact .inl ⟨(), require_of hp⟩
  · exact .inr ⟨_, require_of_not hp⟩

theorem peeks_ofOption {α : Type} {found : Option α} : Peeks (ofOption found) := by
  cases found with
  | none => exact fun _ => .inr ⟨.declined, rfl⟩
  | some a => exact .pure

theorem peeks_positive32Value : Peeks (positive32Value v) := by
  intro m
  rcases positive32Value_outcome (m := m) (v := v) with ⟨k, -, hread⟩ | ⟨-, hnot⟩
  · exact .inl ⟨k, hread⟩
  · exact .inr ⟨_, hnot⟩

theorem peeks_byteToPut : Peeks (byteToPut x characters) := by
  have hcharacter : Peeks (Action.isInstanceOf x Special.classCharacter) := fun _ =>
    .inl ⟨_, Action.isInstanceOf_isInstance⟩
  unfold byteToPut
  cases characters with
  | true =>
    exact .bind (peeks_lift hcharacter) fun _ => .bind peeks_require fun _ =>
      .bind (peeks_lift Action.peeks_fetch) fun _ => .bind peeks_ofOption fun _ =>
      .bind peeks_require fun _ => .pure
  | false => exact .bind peeks_ofOption fun _ => .bind peeks_require fun _ => .pure

theorem peeks_elementFor {f : Format} : Peeks (elementFor f characters x) := by
  unfold elementFor
  split
  · exact peeks_positive32Value.bind fun _ => .pure
  · exact peeks_byteToPut.bind fun _ => .pure
  · exact peeks_byteToPut.bind fun _ => .pure
  · exact .pure

end Attempt

/-! ### The primitives -/

namespace Primitive

/-- The primitive that reads an element, of a string as a Character. -/
def atNumber (characters : Bool) : Nat := if characters then 63 else 60

/-- The primitive that stores an element, of a string from a Character. -/
def atPutNumber (characters : Bool) : Nat := if characters then 64 else 61

theorem exists_at (characters : Bool) :
    ∃ p ∈ all, p.number = atNumber characters ∧ p.action = readElement (.plain characters) := by
  cases characters with
  | false => exact ⟨⟨60, "basicAt:", basicAt⟩, by simp [all], rfl, rfl⟩
  | true => exact ⟨⟨63, "String at:", stringAt⟩, by simp [all], rfl, rfl⟩

theorem exists_atPut (characters : Bool) :
    ∃ p ∈ all, p.number = atPutNumber characters ∧ p.action = writeElement (.plain characters) := by
  cases characters with
  | false => exact ⟨⟨61, "basicAt:put:", basicAtPut⟩, by simp [all], rfl, rfl⟩
  | true => exact ⟨⟨64, "String at:put:", stringAtPut⟩, by simp [all], rfl, rfl⟩

/-- How a numbered primitive with an action is tried. -/
theorem tryPrimitive_of_exists {k : Nat} {action : PrimitiveAction}
    (h : ∃ p ∈ all, p.number = k ∧ p.action = action) (hquick : ¬(256 ≤ k ∧ k < 520)) :
    (∀ m', action n m = .ok .done m' → Action.tryPrimitive k n m = .ok .handled m') ∧
    (∀ m', action n m = .error .declined m' →
      Action.tryPrimitive k n m = .ok .unhandled m'.refused) ∧
    ∀ fault m', action n m = .error (.fault fault) m' →
      Action.tryPrimitive k n m = .error fault m' := by
  obtain ⟨p, hp, rfl, rfl⟩ := h
  exact Action.tryPrimitive_of_mem hp hquick

end Primitive

/-- A trial that does not succeed, and recalls an entry at most. -/
def Machine.Rejects (m : Machine) (y : Action Action.Trial) : Prop :=
  ∃ c, y m = .ok .unhandled (m.recalling c).refused ∨ ∃ fault, y m = .error fault (m.recalling c)

theorem Primitive.rejects {k : Nat} {action : PrimitiveAction} {failure : Refusal} {c : AtCache}
    (h : ∃ p ∈ all, p.number = k ∧ p.action = action) (hquick : ¬(256 ≤ k ∧ k < 520))
    (hrun : action n m = .error failure (m.recalling c)) : m.Rejects (Action.tryPrimitive k n) := by
  obtain ⟨-, hdeclined, hfault⟩ := tryPrimitive_of_exists (n := n) (m := m) h hquick
  cases failure with
  | declined => exact ⟨c, .inl (hdeclined _ hrun)⟩
  | fault fault => exact ⟨c, .inr ⟨fault, hfault fault _ hrun⟩⟩

namespace Machine.Rejects

variable {y : Action Action.Trial} {trial : Action.Trial} {fault : Fault}

theorem of_ok (h : m.Rejects y) (hm : y m = .ok trial m') :
    trial = .unhandled ∧ m'.memory = m.memory := by
  obtain ⟨c, hrun | ⟨_, hrun⟩⟩ := h
  · obtain ⟨rfl, rfl⟩ := EStateM.Result.ok.inj (hrun.symm.trans hm)
    exact ⟨rfl, rfl⟩
  · cases hrun.symm.trans hm

theorem of_error (h : m.Rejects y) (hm : y m = .error fault m') : m'.memory = m.memory := by
  obtain ⟨c, hrun | ⟨_, hrun⟩⟩ := h
  · cases hrun.symm.trans hm
  · obtain ⟨-, rfl⟩ := EStateM.Result.error.inj (hrun.symm.trans hm)
    rfl

theorem not_handled (h : m.Rejects y) : y m ≠ .ok .handled m' := by
  intro hm
  cases (h.of_ok hm).1

end Machine.Rejects

/-! ### The surroundings of an access -/

/-- The special objects array is there and is not the active context, and there is room for an integer
object. If bytes are read as characters there is a Character for each in the table. -/
structure Machine.Equipped (m : Machine) (characters : Bool) : Prop where
  room : m.memory.Roomy
  specials : m.memory.isLive m.specials.array = true
  array : m.specials.array ≠ m.registers.context
  table : characters = true → m.specials.get m.memory Special.characterTable ≠ m.registers.context
  characters : characters = true → ∀ b : UInt8, ∃ c,
    m.memory.cell (m.specials.get m.memory Special.characterTable) b.toNat = some c ∧
      m.HasCode c b.toNat

/-- The entry among the special objects that has the selector of an access, if it is there. -/
def Machine.selector? (m : Machine) (access : Access) : Option Value :=
  m.memory.cell (m.specials.get m.memory Special.specialSelectors) (Action.selectorIndex access)

/-- An object other than the active context that is neither a context nor a Float and has a format with
elements. They are bytes if they are read as characters. -/
structure Machine.IsIndexed (m : Machine) (characters : Bool) (array : Value) (o : Object) : Prop where
  equipped : m.Equipped characters
  object : m.memory.get? array = some o
  other : array ≠ m.registers.context
  plain : m.isContext array = false
  number : m.isInstance array Special.classFloat = false
  shape : o.format ≠ .empty ∧ o.format ≠ .fixed
  bytes : characters = true → o.format = .bytes

/-- An object is taken for what it is, neither a context nor a Float, and the class tells the number of
named fields where the format leaves them open. The selector for reading is found too. -/
structure Machine.Recognizes (m : Machine) (array : Value) (o : Object) (named : Nat) : Prop where
  plain : m.isContext array = false
  number : m.isInstance array Special.classFloat = false
  fields : m.named? o = some named
  selector : ∃ selector, m.selector? .at = some selector

/-- An object other than the active context that is taken for one with so many elements. -/
structure Machine.IsArray (m : Machine) (characters : Bool) (array : Value) (o : Object)
    (named size : Nat) : Prop extends m.Recognizes array o named where
  equipped : m.Equipped characters
  object : m.memory.get? array = some o
  other : array ≠ m.registers.context
  indexed : o.indexed? named = some size
  bytes : characters = true → o.format = .bytes

/-- What an access looks up first is not found: the number of named fields, or the selector. -/
def Machine.Unmeasured (m : Machine) (o : Object) (access : Access) : Prop :=
  m.named? o = none ∨ m.selector? access = none

theorem Machine.Recognizes.restack (h : m.Recognizes array o named) (r : m.Restacks m')
    (hspecials : m.specials.array ≠ m.registers.context) : m'.Recognizes array o named where
  plain := (r.isContext hspecials).trans h.plain
  number := (r.isInstance hspecials).trans h.number
  fields := r.named?.trans h.fields
  selector := by
    rw [Machine.selector?, r.special hspecials]
    exact r.exists_cell h.selector

namespace Machine.Equipped

theorem restack (h : m.Equipped characters) (r : m.Restacks m') : m'.Equipped characters := by
  have hspecial (i : Nat) := r.special (i := i) h.array
  refine ⟨r.room h.room, ?_, ?_, fun hc => ?_, fun hc b => ?_⟩
  · rw [Memory.isLive, r.specials, r.others _ h.array]
    exact h.specials
  · rw [r.specials, r.context]
    exact h.array
  · rw [hspecial, r.context]
    exact h.table hc
  · obtain ⟨c, hcell, hcode⟩ := h.characters hc b
    refine ⟨c, ?_, r.hasCode h.array hcode⟩
    rw [hspecial, Memory.cell, r.others _ (h.table hc)]
    exact hcell

/-- Every element has a value that shows it. -/
theorem exists_value (h : m.Equipped characters) (he : ∀ b, e = .character b → characters = true) :
    ∃ x m', e.value m = .ok x m' ∧ m.Adds m' ∧ m'.Shows e x := by
  cases e with
  | pointer v => exact ⟨v, m, rfl, .refl m, .pointer v⟩
  | word w =>
    obtain ⟨x, m', hrun, hadds, hx⟩ := Action.exists_positive32 h.room h.specials w.toNat_lt
    exact ⟨x, m', hrun, hadds, .word hx⟩
  | byte b => exact ⟨_, m, rfl, .refl m, .byte b⟩
  | character b =>
    obtain ⟨c, hcell, hcode⟩ := h.characters (he b rfl) b
    exact ⟨c, m, Action.fetch_special hcell, .refl m, .character hcode⟩

end Machine.Equipped

/-- The operands are still there when an object has been added. -/
theorem Machine.Stacked.adds {operands : List Value} (h : m.Stacked (v :: operands)) (hadds : m.Adds m') :
    m'.Stacked (v :: operands) :=
  h.congr hadds.registers (hadds.kept _ (Action.isLive_of_stackValues h.stack))

namespace Machine.IsArray

open Attempt

theorem restack (h : m.IsArray characters array o named size) (r : m.Restacks m') :
    m'.IsArray characters array o named size where
  toRecognizes := h.toRecognizes.restack r h.equipped.array
  equipped := h.equipped.restack r
  object := (r.others _ h.other).trans h.object
  other := r.context ▸ h.other
  indexed := h.indexed
  bytes := h.bytes

theorem size? (h : m.IsArray characters array o named size) : m.size? array = some (some size) := by
  rw [Machine.size?, Memory.isSmall_of_isLive (Memory.isLive_of_get? h.object),
    if_neg Bool.false_ne_true, h.plain, if_neg Bool.false_ne_true, h.object, Option.bind_some, h.fields,
    Option.map_some, h.indexed]

/-- The bounds that an access works out. -/
theorem atEntry {access : Access} (h : m.IsArray characters array o named size)
    (hselector : ∃ selector, m.selector? access = some selector) : ∃ c,
    Action.atEntry access array (.plain characters) m =
      .ok ⟨array, size, o.offset named, characters⟩ (m.recalling c) := by
  obtain ⟨selector, hcell⟩ := hselector
  obtain ⟨c, -, hentry⟩ := Action.atEntry_of access (.plain characters) h.object h.fields h.size?
    ⟨selector, Action.fetch_special hcell⟩
  exact ⟨c, hentry⟩

/-! ### Reading -/

theorem indexedAt_eq (h : m.IsArray characters array o named size) (stacked : m.Stacked [array, v])
    (hv : m.Denotes v i) : ∃ c, indexedAt false (.plain characters) m = (do
      let e ← ofOption (o.elements named size characters i)
      liftM e.value : Attempt Value) (m.recalling c) := by
  obtain ⟨c, hentry⟩ := h.atEntry h.selector
  refine ⟨c, ?_⟩
  rw [indexedAt_slow stacked.receiver h.object stacked.tail.receiver h.number,
    bind_of_ok (positive32Value_of hv), bind_of_ok (lift_ok.2 hentry), Object.elements,
    ofOption_require_bind]
  refine Stays.require.bind_congr fun _ _ => ?_
  rw [elementAt_eq (m := m.recalling c) h.object, Object.element?_offset]

/-- What is there is read. -/
theorem read (h : m.IsArray characters array o named size) (stacked : m.Stacked [array, v])
    (hv : m.Denotes v i) (he : o.elements named size characters i = some e) :
    ∃ x m', Action.tryPrimitive (Primitive.atNumber characters) 1 m = .ok .handled m' ∧
      Action.top m' = .ok x m' ∧ m'.Shows e x := by
  obtain ⟨c, hread⟩ := h.indexedAt_eq stacked hv
  have hequipped := h.equipped.restack (.recalling m c)
  obtain ⟨x, m₁, hvalue, hadds, hx⟩ := hequipped.exists_value (e := e) fun b hb =>
    Object.characters_of_element? (hb ▸ (Object.elements_eq_some.1 he).2)
  have hindexed : indexedAt false (.plain characters) m = .ok x m₁ := by
    rw [hread, he]
    exact lift_ok.2 hvalue
  have hstacked : (m.recalling c).Stacked [array, v] := stacked.congr rfl rfl
  obtain ⟨m', hpush, hrestacks, htop⟩ := (hstacked.adds hadds).answer x
  obtain ⟨hdone, -⟩ := Primitive.tryPrimitive_of_exists (n := 1) (m := m)
    (Primitive.exists_at characters) (by cases characters <;> decide)
  refine ⟨x, m', hdone m' ?_, htop, hrestacks.shows ?_ hx⟩
  · exact (bind_of_ok hindexed).trans (bind_of_ok (lift_ok.2 hpush))
  · rw [hadds.specials, hadds.registers]
    exact h.equipped.array

/-- A value that names no element is refused. -/
theorem refuse (h : m.IsArray characters array o named size) (stacked : m.Stacked [array, v])
    (hnone : ∀ i, m.Denotes v i → o.elements named size characters i = none) :
    ∃ m', Action.tryPrimitive (Primitive.atNumber characters) 1 m = .ok .unhandled m' := by
  have hdeclined : ∃ m₁, indexedAt false (.plain characters) m = .error .declined m₁ := by
    rcases positive32Value_outcome (m := m) (v := v) with ⟨i, hv, -⟩ | ⟨-, hnot⟩
    · obtain ⟨c, hread⟩ := h.indexedAt_eq stacked hv
      exact ⟨_, hread.trans (by rw [hnone i hv]; rfl)⟩
    · refine ⟨m, ?_⟩
      rw [indexedAt_slow stacked.receiver h.object stacked.tail.receiver h.number, bind_of_error hnot]
  obtain ⟨m₁, hdeclined⟩ := hdeclined
  obtain ⟨-, hunhandled, -⟩ := Primitive.tryPrimitive_of_exists (n := 1) (m := m)
    (Primitive.exists_at characters) (by cases characters <;> decide)
  exact ⟨_, hunhandled m₁ (bind_of_error hdeclined)⟩

/-- The size is counted, if it is a number of 32 bits. -/
theorem count (h : m.IsArray characters array o named size) (stacked : m.Stacked [array]) :
    (size < 2 ^ 32 → ∃ x m', Action.tryPrimitive 62 0 m = .ok .handled m' ∧
      Action.top m' = .ok x m' ∧ m'.Denotes x size) ∧
    (2 ^ 32 ≤ size → ∃ m', Action.tryPrimitive 62 0 m = .ok .unhandled m') := by
  obtain ⟨-, hcell, -⟩ := Action.stackValue_ok.1 stacked.receiver
  have htop : Action.top m = .ok array m := Action.top_ok.2 ⟨hcell, rfl⟩
  constructor
  · intro hlt
    obtain ⟨x, m₁, hrun, hadds, hx⟩ := Action.exists_positive32 h.equipped.room h.equipped.specials hlt
    obtain ⟨m', hpush, hrestacks, htop'⟩ := (stacked.adds hadds).answer x
    refine ⟨x, m', ?_, htop', hrestacks.denotes ?_ hx⟩
    · rw [Action.tryPrimitive_size htop h.size? hlt]
      exact bind_of_ok ((bind_of_ok hrun).trans hpush)
    · rw [hadds.specials, hadds.registers]
      exact h.equipped.array
  · intro hle
    obtain ⟨-, hdeclined, -⟩ := Action.tryPrimitive_of_mem (p := ⟨62, "size", Primitive.size⟩) (n := 0)
      (m := m) (by simp [Primitive.all]) (by decide)
    have hcounted : (liftM (Action.indexableSize array) : Attempt (Option Nat)) m = .ok (some size) m :=
      lift_ok.2 (Action.indexableSize_of_size? h.size?)
    have hsize : ofOption (some size) m = .ok size m := rfl
    have htoo : newPositive32 size m = .error .declined m :=
      bind_of_error (require_of_not (Nat.not_lt.2 hle))
    refine ⟨_, hdeclined m ?_⟩
    refine (bind_of_ok (lift_ok.2 htop)).trans ((bind_of_ok hcounted).trans ?_)
    exact (bind_of_ok hsize).trans (bind_of_error htoo)

end Machine.IsArray

/-! ### What is not found -/

namespace Machine.Unmeasured

variable {access : Access}

theorem restack (h : m.Unmeasured o access) (r : m.Restacks m')
    (hspecials : m.specials.array ≠ m.registers.context) : m'.Unmeasured o access := by
  rw [Unmeasured, r.named?, selector?, r.special hspecials]
  exact h.imp_right r.cell_eq_none

/-- Where the selector for reading is not found, the one for storing is not, which comes later. -/
theorem atPut (h : m.Unmeasured o .at) : m.Unmeasured o .atPut := by
  refine h.imp_right fun hat => ?_
  by_contra hput
  obtain ⟨selector, hselector⟩ := exists_cell_of_le (i := Action.selectorIndex .at)
    (Option.ne_none_iff_exists'.1 hput) (by decide)
  cases hat.symm.trans hselector

/-- The bounds cannot be worked out then. -/
theorem atEntry (h : m.Unmeasured o access) (ho : m.memory.get? array = some o)
    (plain : m.isContext array = false) (mode : AccessMode) :
    ∃ fault, Action.atEntry access array mode m = .error fault m := by
  cases hn : m.named? o with
  | none =>
    obtain ⟨fault, hfault⟩ := (Action.peeks_fixedFields (v := array)).fails (m := m) fun n hrun => by
      obtain ⟨⟨o', ho', hn'⟩, -⟩ := Action.fixedFields_ok.1 hrun
      obtain rfl := Option.some.inj (ho.symm.trans ho')
      cases hn.symm.trans hn'
    exact ⟨fault, bind_of_error hfault⟩
  | some n =>
    have hnone : m.selector? access = none := h.resolve_left (by simp [hn])
    obtain ⟨fault, hfault⟩ := (Action.peeks_specialSelector (i := Action.selectorIndex access)).fails
      (m := m) fun selector hrun => by
        obtain ⟨_, _, hspecial, hfetch⟩ := bind_ok.1 hrun
        obtain ⟨rfl, rfl⟩ := Action.special_ok.1 hspecial
        cases hnone.symm.trans (Action.fetch_ok.1 hfetch).1
    unfold Action.atEntry
    rw [bind_of_ok (Action.fixedFields_of ho hn), bind_of_ok (Action.indexableSize_of ho plain hn),
      bind_of_ok (Action.object_ok.2 ⟨ho, rfl⟩)]
    exact ⟨fault, bind_of_error hfault⟩

/-- An access fails for that, if it does not fail for the index. -/
theorem fails {α : Type} {mode : AccessMode} {f : Nat → AtEntry → Attempt α} (h : m.Unmeasured o access)
    (ho : m.memory.get? array = some o) (plain : m.isContext array = false) :
    ∃ failure, (do
      let index ← Attempt.positive32Value v
      let entry ← Action.atEntry access array mode
      f index entry : Attempt α) m = .error failure m := by
  rcases Attempt.positive32Value_outcome (m := m) (v := v) with ⟨i, -, hread⟩ | ⟨-, hnot⟩
  · obtain ⟨fault, hfault⟩ := h.atEntry ho plain mode
    exact ⟨_, (bind_of_ok hread).trans (bind_of_error (Attempt.lift_fault hfault))⟩
  · exact ⟨_, bind_of_error hnot⟩

end Machine.Unmeasured

namespace Machine.IsIndexed

open Attempt

theorem restack (h : m.IsIndexed characters array o) (r : m.Restacks m') :
    m'.IsIndexed characters array o where
  equipped := h.equipped.restack r
  object := (r.others _ h.other).trans h.object
  other := r.context ▸ h.other
  plain := (r.isContext h.equipped.array).trans h.plain
  number := (r.isInstance h.equipped.array).trans h.number
  shape := h.shape
  bytes := h.bytes

/-- An object has so many elements, unless that cannot be found out. -/
theorem isArray_or (h : m.IsIndexed characters array o) :
    (∃ named size, m.IsArray characters array o named size) ∨ m.Unmeasured o .at := by
  by_cases hu : m.Unmeasured o .at
  · exact .inr hu
  · obtain ⟨hnamed, hselector⟩ := not_or.1 hu
    obtain ⟨named, hnamed⟩ := Option.ne_none_iff_exists'.1 hnamed
    have hindexed : ∃ size, o.indexed? named = some size := by
      obtain ⟨hempty, hfixed⟩ := h.shape
      unfold Object.indexed?
      cases hformat : o.format with
      | empty => exact absurd hformat hempty
      | fixed => exact absurd hformat hfixed
      | _ => exact ⟨_, rfl⟩
    obtain ⟨size, hsize⟩ := hindexed
    exact .inl ⟨named, size, ⟨h.plain, h.number, hnamed, Option.ne_none_iff_exists'.1 hselector⟩,
      h.equipped, h.object, h.other, hsize, h.bytes⟩

/-- Nothing is read if the number of elements cannot be found out. -/
theorem rejects_at (h : m.IsIndexed characters array o) (hu : m.Unmeasured o .at)
    (stacked : m.Stacked [array, v]) :
    m.Rejects (Action.tryPrimitive (Primitive.atNumber characters) 1) := by
  have hfails : ∃ failure, indexedAt false (.plain characters) m = .error failure m := by
    rw [indexedAt_slow stacked.receiver h.object stacked.tail.receiver h.number]
    exact hu.fails h.object h.plain
  obtain ⟨failure, hfails⟩ := hfails
  exact Primitive.rejects (c := m.atCache) (Primitive.exists_at characters)
    (by cases characters <;> decide) (bind_of_error hfails)

/-- Nothing is stored then. -/
theorem rejects_atPut (h : m.IsIndexed characters array o) (hu : m.Unmeasured o .atPut)
    (stacked : m.Stacked [array, v, x]) :
    m.Rejects (Action.tryPrimitive (Primitive.atPutNumber characters) 2) := by
  have hfails : ∃ failure, indexedAtPut false (.plain characters) m = .error failure m := by
    rw [indexedAtPut_slow stacked.receiver h.object stacked.tail.receiver stacked.tail.tail.receiver]
    exact hu.fails h.object h.plain
  obtain ⟨failure, hfails⟩ := hfails
  exact Primitive.rejects (c := m.atCache) (Primitive.exists_atPut characters)
    (by cases characters <;> decide) (bind_of_error hfails)

end Machine.IsIndexed

end Smalltalk
