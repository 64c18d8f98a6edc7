import Mathlib.Data.List.Nodup
import Mathlib.Data.List.Zip
import Mathlib.Logic.Function.Basic
import Smalltalk.Primitive.Object
import Smalltalk.Proofs.Upkeep

/-!
# Objects that exchange their identities

A renaming is built pair by pair, and a pair whose old value has been renamed already is refused. So a
renaming that is accepted is one simultaneous substitution: each old value has one new value, whatever
the new values are renamed to themselves. It is applied once to every class, pointer field and pin, and
to nothing else. If the values of two lists are exchanged the pairs come in both directions, which is
possible exactly when no value occurs twice; then the substitution is its own inverse, and so is what
it does to a memory.
-/

namespace Smalltalk

namespace Renaming

variable {source target : List Value} {twoWay : Bool} {names names' : Renaming} {v w : Value}
  {pairs more : List (Value × Value)}

/-! ### What a renaming is to do -/

/-- The values that get a new name. -/
def olds (source target : List Value) (twoWay : Bool) : List Value :=
  if twoWay then source ++ target else source

/-- The lists can be paired: each value that gets a new name is a reference and gets one only. -/
structure Pairable (source target : List Value) (twoWay : Bool) : Prop where
  length : source.length = target.length
  references : ∀ v ∈ olds source target twoWay, v.isReference = true
  distinct : (olds source target twoWay).Nodup

/-- `f` makes each entry of `source` its partner in `target`, and back if `twoWay`, and leaves all
other values alone. -/
structure Pairs (source target : List Value) (twoWay : Bool) (f : Value → Value) : Prop where
  forward : ∀ p ∈ source.zip target, f p.1 = p.2
  back : twoWay = true → ∀ p ∈ source.zip target, f p.2 = p.1
  other : ∀ v, v ∉ olds source target twoWay → f v = v

/-! ### How it is built -/

/-- The pairs that are entered, in this order. -/
def entries (source target : List Value) (twoWay : Bool) : List (Value × Value) :=
  source.zip target ++ if twoWay then target.zip source else []

theorem extend_append (names : Renaming) (pairs more : List (Value × Value)) :
    names.extend (pairs ++ more) = names.extend pairs >>= fun names => names.extend more := by
  induction pairs generalizing names with
  | nil => rfl
  | cons pair pairs ih =>
    obtain ⟨old, new⟩ := pair
    simp only [List.cons_append, extend]
    split
    · rfl
    · split
      · rfl
      · exact ih _

theorem ofLists_eq (source target : List Value) (twoWay : Bool) :
    ofLists source target twoWay = if source.length ≠ target.length then .error .lengthMismatch
      else extend [] (entries source target twoWay) := by
  unfold ofLists
  split
  · rfl
  · rw [entries, extend_append]
    cases twoWay with
    | true => rfl
    | false => exact congrArg (extend [] (source.zip target) >>= ·) (funext fun _ => rfl)

/-- A renaming is extended by a list if the old values in it are distinct references without a new
name; and then the list is entered, the last pair first. -/
theorem extend_ok : names.extend pairs = .ok names' ↔
    names' = pairs.reverse ++ names ∧ (∀ p ∈ pairs, p.1.isReference = true) ∧
      (pairs.map Prod.fst).Nodup ∧ ∀ p ∈ pairs, names.lookup p.1 = none := by
  induction pairs generalizing names with
  | nil =>
    simp only [extend, Except.ok.injEq, List.reverse_nil, List.nil_append, List.not_mem_nil, false_imp_iff,
      implies_true, List.map_nil, List.nodup_nil, and_true]
    exact eq_comm
  | cons pair pairs ih =>
    obtain ⟨old, new⟩ := pair
    have hlookup (v : Value) : List.lookup v ((old, new) :: names) = none ↔
        v ≠ old ∧ names.lookup v = none := by
      by_cases hv : v = old
      · simp [hv]
      · simp [List.lookup_cons, beq_false_of_ne hv, hv]
    simp only [extend]
    split
    · rename_i hreference
      simp only [reduceCtorEq, false_iff]
      rintro ⟨-, href, -⟩
      simp [href (old, new) List.mem_cons_self] at hreference
    · rename_i hreference
      split
      · rename_i hold
        simp only [reduceCtorEq, false_iff]
        rintro ⟨-, -, -, hnone⟩
        simp [hnone (old, new) List.mem_cons_self] at hold
      · rename_i hold
        rw [ih]
        simp only [hlookup, List.reverse_cons, List.append_assoc, List.singleton_append,
          List.forall_mem_cons, List.map_cons, List.nodup_cons, List.mem_map, not_exists, not_and]
        simp only [Bool.not_eq_true', Bool.not_eq_false, Option.not_isSome_iff_eq_none] at hreference hold
        constructor
        · rintro ⟨rfl, href, hnodup, hnone⟩
          exact ⟨rfl, ⟨hreference, href⟩, ⟨fun p hp => (hnone p hp).1, hnodup⟩, hold,
            fun p hp => (hnone p hp).2⟩
        · rintro ⟨rfl, ⟨-, href⟩, ⟨hne, hnodup⟩, -, hnone⟩
          exact ⟨rfl, href, hnodup, fun p hp => ⟨hne p hp, hnone p hp⟩⟩

theorem map_fst_entries (h : source.length = target.length) :
    (entries source target twoWay).map Prod.fst = olds source target twoWay := by
  cases twoWay with
  | true =>
    simp only [entries, olds, if_true, List.map_append]
    rw [List.map_fst_zip (Nat.le_of_eq h), List.map_fst_zip (Nat.le_of_eq h.symm)]
  | false =>
    simp only [entries, olds, Bool.false_eq_true, if_false, List.append_nil]
    rw [List.map_fst_zip (Nat.le_of_eq h)]

/-- Lists are accepted exactly if they can be paired. -/
theorem ofLists_ok : ofLists source target twoWay = .ok names ↔
    Pairable source target twoWay ∧ names = (entries source target twoWay).reverse := by
  rw [ofLists_eq]
  split
  · rename_i hlength
    simp only [reduceCtorEq, false_iff]
    exact fun h => hlength h.1.length
  · rename_i hlength
    have hlength := not_not.1 hlength
    have hreferences : (∀ p ∈ entries source target twoWay, p.1.isReference = true) ↔
        ∀ v ∈ olds source target twoWay, v.isReference = true := by
      rw [← map_fst_entries hlength]
      simp
    rw [extend_ok, hreferences, map_fst_entries hlength, List.append_nil]
    constructor
    · rintro ⟨rfl, href, hnodup, -⟩
      exact ⟨⟨hlength, href, hnodup⟩, rfl⟩
    · rintro ⟨⟨-, href, hnodup⟩, rfl⟩
      exact ⟨rfl, href, hnodup, fun _ _ => rfl⟩

/-! ### What it does to a value -/

/-- Where each old value stands in one pair, that pair tells its new value. -/
theorem apply_of_mem (distinct : (names.map Prod.fst).Nodup) (h : (v, w) ∈ names) :
    names.apply v = w := by
  obtain ⟨before, after, rfl⟩ := List.append_of_mem h
  rw [List.map_append, List.map_cons, List.nodup_append] at distinct
  have hnone : List.lookup v before = none := by
    rw [List.lookup_eq_none_iff]
    intro p hp
    have hne := distinct.2.2 p.1 (List.mem_map_of_mem hp) v List.mem_cons_self
    simpa using Ne.symm hne
  rw [apply, List.lookup_append, hnone]
  simp

theorem apply_of_not_mem (h : v ∉ names.map Prod.fst) : names.apply v = v := by
  have hnone : names.lookup v = none := by
    rw [List.lookup_eq_none_iff]
    intro p hp
    have hne : p.1 ≠ v := fun e => h (e ▸ List.mem_map_of_mem hp)
    simpa using Ne.symm hne
  rw [apply, hnone, Option.getD_none]

theorem apply_entries (h : Pairable source target twoWay) :
    Pairs source target twoWay (apply (entries source target twoWay).reverse) := by
  have hfst : ((entries source target twoWay).reverse.map Prod.fst) =
      (olds source target twoWay).reverse := by
    rw [List.map_reverse, map_fst_entries h.length]
  have hdistinct : ((entries source target twoWay).reverse.map Prod.fst).Nodup := by
    rw [hfst]
    exact List.nodup_reverse.2 h.distinct
  refine ⟨fun p hp => ?_, fun htwo p hp => ?_, fun v hv => ?_⟩
  · refine apply_of_mem hdistinct ?_
    rw [List.mem_reverse, entries]
    exact List.mem_append_left _ hp
  · refine apply_of_mem hdistinct ?_
    rw [List.mem_reverse, entries, if_pos htwo, ← List.zip_swap source target]
    exact List.mem_append_right _ (List.mem_map_of_mem hp)
  · refine apply_of_not_mem ?_
    rw [hfst, List.mem_reverse]
    exact hv

namespace Pairs

variable {f : Value → Value}

/-- Each entry of one list has a partner in the other. -/
theorem exists_partner (length : source.length = target.length) (h : v ∈ source ++ target) :
    (∃ w, (v, w) ∈ source.zip target) ∨ ∃ w, (w, v) ∈ source.zip target := by
  rcases List.mem_append.1 h with h | h
  · rw [← List.map_fst_zip (Nat.le_of_eq length)] at h
    obtain ⟨p, hp, rfl⟩ := List.mem_map.1 h
    exact .inl ⟨p.2, hp⟩
  · rw [← List.map_snd_zip (Nat.le_of_eq length.symm)] at h
    obtain ⟨p, hp, rfl⟩ := List.mem_map.1 h
    exact .inr ⟨p.1, hp⟩

/-- An exchange is undone by a second one. -/
theorem involutive (h : Pairs source target true f) (length : source.length = target.length) :
    Function.Involutive f := by
  intro v
  by_cases hv : v ∈ source ++ target
  · rcases exists_partner length hv with ⟨w, hw⟩ | ⟨w, hw⟩
    · rw [h.forward _ hw, h.back rfl _ hw]
    · rw [h.back rfl _ hw, h.forward _ hw]
  · have hother : f v = v := h.other v hv
    rw [hother, hother]

/-- One-way, nothing becomes an entry of `source` but what is an entry of `target`. -/
theorem mem_target (h : Pairs source target false f) (length : source.length = target.length)
    (hv : f v ∈ source) : f v ∈ target := by
  by_cases hsource : v ∈ source
  · rw [← List.map_fst_zip (Nat.le_of_eq length)] at hsource
    obtain ⟨p, hp, rfl⟩ := List.mem_map.1 hsource
    rw [h.forward p hp]
    exact (List.of_mem_zip hp).2
  · rw [h.other v hsource] at hv
    exact absurd hv hsource

end Pairs

end Renaming

namespace Memory

open Renaming

variable {source target : List Value} {twoWay : Bool} {names : Renaming} {f : Value → Value}
  {m m' : Memory} {x : Value}

/-! ### What it does to a memory -/

/-- `m'` is `m` with `f` applied once to every class, every pointer field and every pin. -/
structure Substituted (f : Value → Value) (m m' : Memory) : Prop where
  frame : m' = { m with slots := m'.slots, pins := m'.pins }
  slots : m'.slots = m.slots.map fun slot => { slot with object := slot.object.map fun o =>
    { o with cls := f o.cls, pointers := o.pointers.map f } }
  pins : m'.pins = m.pins.map f

/-- `x` is a class, a pointer field or a pin. -/
def Refers (m : Memory) (x : Value) : Prop :=
  (∃ slot ∈ m.slots, ∃ o, slot.object = some o ∧ x ∈ o.cls :: o.pointers.toList) ∨ x ∈ m.pins

theorem substituted_rename (m : Memory) (names : Renaming) :
    m.Substituted names.apply (m.rename names) := ⟨rfl, rfl, rfl⟩

/-- What a memory refers to afterwards is what it referred to, renamed. -/
theorem Substituted.refers (h : m.Substituted f m') (hx : m'.Refers x) : ∃ y, m.Refers y ∧ f y = x := by
  rcases hx with ⟨slot', hslot', o', ho', hx⟩ | hx
  · rw [h.slots] at hslot'
    obtain ⟨slot, hslot, rfl⟩ := Array.mem_map.1 hslot'
    obtain ⟨o, ho, rfl⟩ := Option.map_eq_some_iff.1 ho'
    simp only [Array.toList_map] at hx
    rw [← List.map_cons (f := f)] at hx
    obtain ⟨y, hy, rfl⟩ := List.mem_map.1 hx
    exact ⟨y, .inl ⟨slot, hslot, o, ho, hy⟩, rfl⟩
  · rw [h.pins] at hx
    obtain ⟨y, hy, rfl⟩ := Array.mem_map.1 hx
    exact ⟨y, .inr hy, rfl⟩

/-- A substitution that is its own inverse restores the memory. -/
theorem rename_rename (h : Function.Involutive names.apply) (m : Memory) :
    (m.rename names).rename names = m := by
  have htwice : names.apply ∘ names.apply = id := h.comp_self
  have hobject (o : Object) : names.applyObject (names.applyObject o) = o := by
    simp only [applyObject, Array.map_map, htwice, Array.map_id, h o.cls]
  have hslot (slot : Slot) : (slot.object.map names.applyObject).map names.applyObject =
      slot.object := by
    cases slot.object with
    | none => rfl
    | some o => exact congrArg some (hobject o)
  simp only [rename, Array.map_map, htwice, Array.map_id, Function.comp_def, hslot]
  simp

theorem become_ok : m.become source target twoWay = .ok (names, m') ↔
    Renaming.ofLists source target twoWay = .ok names ∧ m' = m.rename names := by
  unfold become
  cases Renaming.ofLists source target twoWay with
  | error refusal => simp [bind, Except.bind]
  | ok r =>
    simp only [bind, Except.bind, pure, Except.pure, Except.ok.injEq, Prod.mk.injEq]
    constructor
    · rintro ⟨rfl, rfl⟩
      exact ⟨rfl, rfl⟩
    · rintro ⟨rfl, rfl⟩
      exact ⟨rfl, rfl⟩

end Memory

namespace Machine

open Renaming

variable {source target : List Value} {twoWay : Bool} {names : Renaming}

/-- If the lists cannot be paired the machine stays as it was. -/
theorem become_of_not_pairable (h : ¬ Pairable source target twoWay) (s : Machine) :
    (∃ refusal, s.memory.become source target twoWay = .error refusal) ∧
      Action.become source target twoWay s = .ok false s := by
  cases hnames : Renaming.ofLists source target twoWay with
  | ok names => exact absurd (ofLists_ok.1 hnames).1 h
  | error refusal =>
    refine ⟨⟨refusal, ?_⟩, ?_⟩
    · simp only [Memory.become, hnames]
      rfl
    · simp only [Action.become, hnames]
      rfl

/-- Otherwise its memory is renamed, whether it finds its special objects afterwards or not. -/
theorem memory_become (h : Renaming.ofLists source target twoWay = .ok names) (s : Machine) :
    ∃ s', s'.memory = s.memory.rename names ∧
      (Action.become source target twoWay s = .ok true s' ∨
        ∃ fault, Action.become source target twoWay s = .error fault s') := by
  let renamed : Machine := { s with
    memory := s.memory.rename names
    registers := s.registers.rename names
    specials := { s.specials with array := names.apply s.specials.array } }
  have hrun : Action.become source target twoWay s = (do
      let specials ← Action.ofExcept (SpecialObjects.load renamed.memory renamed.specials.array)
      modify fun m =>
        { m with specials, lastPrimitiveSend := none, pool := m.pool.clear }.flushCaches
      return true : Action Bool) renamed := by
    simp only [Action.become, h]
    rfl
  rw [hrun]
  cases SpecialObjects.load renamed.memory renamed.specials.array with
  | ok specials => exact ⟨_, rfl, .inl rfl⟩
  | error fault => exact ⟨renamed, rfl, .inr ⟨fault, rfl⟩⟩

/-- Exchanging objects is one simultaneous substitution throughout the memory, or changes nothing at
all. There and back it is its own inverse, and possible exactly if no value occurs twice; one-way, what
has been renamed is referred to no more. -/
theorem become_substitutes (s : Machine) (source target : List Value) (twoWay : Bool) :
    (¬ Pairable source target twoWay ∧
      (∃ refusal, s.memory.become source target twoWay = .error refusal) ∧
      Action.become source target twoWay s = .ok false s) ∨
    (Pairable source target twoWay ∧ ∃ names memory,
      s.memory.become source target twoWay = .ok (names, memory) ∧
      (∃ s', s'.memory = memory ∧ (Action.become source target twoWay s = .ok true s' ∨
        ∃ fault, Action.become source target twoWay s = .error fault s')) ∧
      Pairs source target twoWay names.apply ∧ s.memory.Substituted names.apply memory ∧
      (twoWay = true → Function.Involutive names.apply ∧
        memory.become source target true = .ok (names, s.memory)) ∧
      (twoWay = false → ∀ x ∈ source, memory.Refers x → x ∈ target)) := by
  by_cases hpairable : Pairable source target twoWay
  · right
    have hnames := ofLists_ok.2 ⟨hpairable, rfl⟩
    have hpairs := apply_entries hpairable
    refine ⟨hpairable, _, _, Memory.become_ok.2 ⟨hnames, rfl⟩, memory_become hnames s, hpairs,
      s.memory.substituted_rename _, ?_, ?_⟩
    · rintro rfl
      have hinvolutive := hpairs.involutive hpairable.length
      exact ⟨hinvolutive, Memory.become_ok.2 ⟨hnames, (Memory.rename_rename hinvolutive _).symm⟩⟩
    · rintro rfl x hx hrefers
      obtain ⟨y, -, rfl⟩ := (s.memory.substituted_rename _).refers hrefers
      exact hpairs.mem_target hpairable.length hx
  · exact .inl ⟨hpairable, become_of_not_pairable hpairable s⟩

/-- A renaming is not applied to its own new values. -/
example : let value (n : Nat) : Value := .ref (UInt32.ofNat n) 0
    ((Renaming.ofLists [value 0, value 1] [value 1, value 2] false).toOption.map fun names =>
      [value 0, value 1, value 2].map names.apply) = some [value 1, value 2, value 2] := by
  decide

end Machine

end Smalltalk
