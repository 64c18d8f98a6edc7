import Smalltalk.Proofs.Indexing

/-!
# Arrays

An indexed object acts as an array: a store that succeeds changes the map of its elements in one place,
whatever the object keeps and however its elements are shown. A store that does not succeed changes no
object.

What accesses go by besides the object may be changed by a store. Only a store into the special objects
array or into a class that is its own class can do that, and it takes the ground from under the next
access.
-/

namespace Smalltalk

open Outcome

variable {m m' m₁ : Machine} {o : Object} {array v x : Value} {e : Element}
  {named size i j n slot : Nat} {characters : Bool}

/-! ### Storing -/

namespace Attempt

/-- A store that does not end has not begun. -/
theorem elementPut_error {entry : AtEntry} {failure : Refusal} (ho : m.memory.get? array = some o)
    (h : elementPut array slot x entry (.plain characters) m = .error failure m') : m' = m := by
  rw [elementPut_eq ho] at h
  have hpeeks : Peeks (elementFor o.format entry.asCharacters x) := peeks_elementFor
  rcases hpeeks m with ⟨e, he⟩ | ⟨failure', he⟩
  · rw [bind_of_ok he] at h
    cases hfound : o.element? entry.offset entry.asCharacters slot with
    | none =>
      rw [hfound] at h
      exact (EStateM.Result.error.inj h).2.symm
    | some e₀ =>
      rw [hfound] at h
      cases h
  · rw [bind_of_error he] at h
    exact (EStateM.Result.error.inj h).2.symm

/-- A store ends with one element replaced by one that shows as the value, or before any object is
changed. -/
theorem elementPut_outcome (ho : m.memory.get? array = some o)
    (hmethod : characters = true → o.format ≠ .method) :
    (∃ e₀ e, o.element? named characters slot = some e₀ ∧ o.format.keeps characters e = true ∧
      m.Shows e x ∧ elementPut array slot x ⟨array, size, o.offset named, characters⟩
        (.plain characters) m = .ok () (m.modified array fun o => o.setElement named slot e)) ∨
    ∃ failure, elementPut array slot x ⟨array, size, o.offset named, characters⟩ (.plain characters) m =
      .error failure m := by
  cases hrun : elementPut array slot x ⟨array, size, o.offset named, characters⟩
      (.plain characters) m with
  | ok u m₁ =>
    obtain ⟨e₀, e, hold, he, rfl⟩ := elementPut_ok ho hrun
    rw [Object.element?_offset] at hold
    obtain ⟨-, hkeeps, hshows⟩ := elementFor_ok hmethod he
    have hmemory : m.memory.modify array (fun o' => o'.setElement (o.offset named) slot e) =
        m.memory.modify array fun o' => o'.setElement named slot e :=
      Memory.modify_congr ho (Object.setElement_offset hkeeps)
    refine .inl ⟨e₀, e, hold, hkeeps, hshows, ?_⟩
    exact congrArg (fun memory => EStateM.Result.ok () { m with memory }) hmemory
  | error failure m₁ =>
    obtain rfl := elementPut_error ho hrun
    exact .inr ⟨failure, rfl⟩

end Attempt

section

variable {f : Object → Object} {w : Value} {k : Nat}

theorem Machine.hasCode_iff : m.HasCode w k ↔
    m.isInstance w Special.classCharacter = true ∧ m.memory.cell w 0 = some (.small k) := by
  constructor
  · rintro ⟨o, ho, hcls, hcode⟩
    exact ⟨(Option.any_eq_true _ _).2 ⟨o, ho, beq_iff_eq.2 hcls⟩, Memory.cell_eq_some.2 ⟨o, ho, hcode⟩⟩
  · rintro ⟨hcls, hcell⟩
    obtain ⟨o, ho, hcode⟩ := Memory.cell_eq_some.1 hcell
    obtain ⟨o', ho', hcls⟩ := (Option.any_eq_true _ _).1 hcls
    obtain rfl := Option.some.inj (ho.symm.trans ho')
    exact ⟨o, ho, beq_iff_eq.1 hcls, hcode⟩

theorem Machine.isInstance_modified (hf : ∀ o, (f o).cls = o.cls)
    (hspecial : m.specials.get (m.modified v f).memory k = m.specials.get m.memory k) :
    (m.modified v f).isInstance w k = m.isInstance w k := by
  have hget : (m.modified v f).memory.get? w = if w = v then (m.memory.get? v).map f else
      m.memory.get? w := Memory.get?_modify ..
  unfold isInstance
  rw [hget, show (m.modified v f).specials = m.specials from rfl, hspecial]
  split_ifs with hw
  · subst hw
    cases m.memory.get? w with
    | none => rfl
    | some o => simp only [Option.map_some, Option.any_some, hf]
  · rfl

theorem Object.Remains.indexed? {o' : Object} (h : o.Remains o') :
    o'.indexed? named = o.indexed? named := by
  simp only [Object.indexed?, h.format, h.pointers, h.body.size]

theorem Machine.named?_of_remains {o' : Object} (h : o.Remains o')
    (hformat : m'.memory.cell o.cls Class.format = m.memory.cell o.cls Class.format) :
    m'.named? o' = m.named? o := by
  simp only [Machine.named?, h.toFits.namedFields, h.format, h.cls, hformat]

theorem Memory.exists_cell_modify {memory : Memory} (hf : ∀ o, (f o).pointers.size = o.pointers.size)
    (h : ∃ x, memory.cell w j = some x) : ∃ x, (memory.modify v f).cell w j = some x := by
  obtain ⟨x, hx⟩ := h
  obtain ⟨o, ho, hfield⟩ := Memory.cell_eq_some.1 hx
  obtain ⟨hlt, -⟩ := Array.getElem?_eq_some_iff.1 hfield
  by_cases hw : w = v
  · subst hw
    refine ⟨_, Memory.cell_eq_some.2 ⟨f o, ?_, Array.getElem?_eq_getElem (hf o ▸ hlt)⟩⟩
    rw [get?_modify, if_pos rfl, ho, Option.map_some]
  · refine ⟨x, Memory.cell_eq_some.2 ⟨o, ?_, hfield⟩⟩
    rw [get?_modify, if_neg hw, ho]

theorem Memory.cell_modify_same {memory : Memory}
    (hf : w = v → ∀ o, memory.get? v = some o → (f o).pointers = o.pointers) :
    (memory.modify v f).cell w j = memory.cell w j := by
  rw [Memory.cell, Memory.get?_modify, Memory.cell]
  split_ifs with hw
  · subst hw
    cases ho : memory.get? w with
    | none => rfl
    | some o => exact congrArg (·[j]?) (hf rfl o ho)
  · rfl

end

namespace Machine.IsArray

open Attempt

theorem indexedAtPut_eq (h : m.IsArray characters array o named size) (stacked : m.Stacked [array, v, x])
    (hselector : ∃ selector, m.selector? .atPut = some selector) (hv : m.Denotes v i) :
    ∃ c, indexedAtPut false (.plain characters) m = (do
      require (1 ≤ i ∧ i ≤ size)
      elementPut array (i - 1) x ⟨array, size, o.offset named, characters⟩ (.plain characters)
      return x : Attempt Value) (m.recalling c) := by
  obtain ⟨c, hentry⟩ := h.atEntry hselector
  refine ⟨c, ?_⟩
  rw [indexedAtPut_slow stacked.receiver h.object stacked.tail.receiver stacked.tail.tail.receiver,
    bind_of_ok (positive32Value_of hv), bind_of_ok (lift_ok.2 hentry)]

/-- A store is made at an index in range, or no object is changed. -/
theorem indexedAtPut_outcome (h : m.IsArray characters array o named size)
    (stacked : m.Stacked [array, v, x])
    (hselector : ∃ selector, m.selector? .atPut = some selector) :
    (∃ i e₀ e c, m.Denotes v i ∧ o.elements named size characters i = some e₀ ∧
      o.format.keeps characters e = true ∧ m.Shows e x ∧ indexedAtPut false (.plain characters) m =
        .ok x ((m.recalling c).modified array fun o => o.setElement named (i - 1) e)) ∨
    ∃ failure c, indexedAtPut false (.plain characters) m = .error failure (m.recalling c) := by
  have hmethod (hc : characters = true) : o.format ≠ .method := by
    rw [h.bytes hc]
    decide
  rcases positive32Value_outcome (m := m) (v := v) with ⟨i, hv, -⟩ | ⟨-, hnot⟩
  · obtain ⟨c, hput⟩ := h.indexedAtPut_eq stacked hselector hv
    by_cases hrange : 1 ≤ i ∧ i ≤ size
    · rw [bind_of_ok (require_of hrange)] at hput
      rcases elementPut_outcome (m := m.recalling c) h.object hmethod with
        ⟨e₀, e, hold, he, hx, hrun⟩ | ⟨failure, hrun⟩
      · have hsame : (m.recalling c).Restacks m := .of_memory rfl rfl rfl
        exact .inl ⟨i, e₀, e, c, hv, Object.elements_eq_some.2 ⟨hrange, hold⟩, he,
          hsame.shows h.equipped.array hx, hput.trans (bind_of_ok hrun)⟩
      · exact .inr ⟨failure, c, hput.trans (bind_of_error hrun)⟩
    · exact .inr ⟨_, c, hput.trans (bind_of_error (require_of_not hrange))⟩
  · refine .inr ⟨.declined, m.atCache, ?_⟩
    rw [indexedAtPut_slow stacked.receiver h.object stacked.tail.receiver stacked.tail.tail.receiver,
      bind_of_error hnot]
    rfl

section

variable (h : m.IsArray characters array o named size) (he : o.format.keeps characters e = true)
include h he

/-- A store changes a field only if it stores pointers, and of the array itself. -/
theorem cell_stored {w : Value} (hw : w = array → o.format.isPointers = false) :
    (m.modified array fun o => o.setElement named slot e).memory.cell w j = m.memory.cell w j := by
  refine Memory.cell_modify_same fun hsame o' ho' => ?_
  obtain rfl := Option.some.inj (h.object.symm.trans ho')
  exact Object.pointers_setElement_raw (hw hsame) he

theorem special_stored (hw : m.specials.array = array → o.format.isPointers = false) :
    m.specials.get (m.modified array fun o => o.setElement named slot e).memory n =
      m.specials.get m.memory n :=
  congrArg (·.getD m.specials.nil) (cell_stored h he hw)

/-- A store into a string leaves all fields as they are, so that Characters are found as before. -/
theorem equipped_stored :
    (m.modified array fun o => o.setElement named slot e).Equipped characters := by
  have hraw (hc : characters = true) : o.format.isPointers = false := by
    rw [h.bytes hc]
    rfl
  have hspecial (hc : characters = true) (k : Nat) :
      m.specials.get (m.modified array fun o => o.setElement named slot e).memory k =
        m.specials.get m.memory k := special_stored h he fun _ => hraw hc
  refine ⟨h.equipped.room.modify, ?_, h.equipped.array, fun hc => ?_, fun hc b => ?_⟩
  · rw [Machine.modified, Memory.isLive_modify]
    exact h.equipped.specials
  · exact (hspecial hc _).symm ▸ h.equipped.table hc
  · obtain ⟨c, hcell, hcode⟩ := h.equipped.characters hc b
    obtain ⟨hcls, hfield⟩ := Machine.hasCode_iff.1 hcode
    have hcls' := Machine.isInstance_modified (w := c)
      (fun o => (o.remains_setElement named slot e).cls) (hspecial hc Special.classCharacter)
    refine ⟨c, ?_, Machine.hasCode_iff.2 ⟨hcls'.trans hcls, ?_⟩⟩
    · exact (congrArg (fun v => Memory.cell _ v b.toNat) (hspecial hc Special.characterTable)).trans
        ((cell_stored h he fun _ => hraw hc).trans hcell)
    · exact (cell_stored h he fun _ => hraw hc).trans hfield

/-- After a store into a place that accesses do not go by, the object is taken for what it was. -/
theorem recognizes_stored
    (hplace : o.format.isPointers = true → array ≠ m.specials.array ∧ array ≠ o.cls) :
    (m.modified array fun o => o.setElement named slot e).Recognizes array
      (o.setElement named slot e) named := by
  have hraw {w : Value} (hw : o.format.isPointers = true → array ≠ w) (hsame : w = array) :
      o.format.isPointers = false := Bool.not_eq_true _ ▸ fun hp => hw hp hsame.symm
  have hspecial (k : Nat) :
      m.specials.get (m.modified array fun o => o.setElement named slot e).memory k =
        m.specials.get m.memory k := special_stored h he (hraw fun hp => (hplace hp).1)
  have hinstance (k : Nat) := Machine.isInstance_modified (w := array)
    (fun o => (o.remains_setElement named slot e).cls) (hspecial k)
  refine ⟨?_, (hinstance _).trans h.number, ?_, ?_⟩
  · rw [isContext, hinstance, hinstance]
    exact h.plain
  · exact (Machine.named?_of_remains (o.remains_setElement ..)
      (cell_stored h he (hraw fun hp => (hplace hp).2))).trans h.fields
  · change ∃ selector, Memory.cell _ (m.specials.get _ Special.specialSelectors) _ = some selector
    rw [hspecial]
    exact Memory.exists_cell_modify (fun o => (o.remains_setElement named slot e).pointers) h.selector

end

end Machine.IsArray

/-! ### The laws of arrays -/

/-- Whatever stands on the stack, an object is read as a map from the indices up to its size. -/
structure Machine.ActsAs (m : Machine) (characters : Bool) (array : Value) (size : Nat)
    (elements : Nat → Option Element) : Prop where
  range : ∀ i e, elements i = some e → 1 ≤ i ∧ i ≤ size
  read : ∀ m' v i e, m.Restacks m' → m'.Stacked [array, v] → m'.Denotes v i → elements i = some e →
    ∃ x m'', Action.tryPrimitive (Primitive.atNumber characters) 1 m' = .ok .handled m'' ∧
      Action.top m'' = .ok x m'' ∧ m''.Shows e x
  refuse : ∀ m' v, m.Restacks m' → m'.Stacked [array, v] → (∀ i, m'.Denotes v i → elements i = none) →
    ∃ m'', Action.tryPrimitive (Primitive.atNumber characters) 1 m' = .ok .unhandled m''
  count : ∀ m', m.Restacks m' → m'.Stacked [array] →
    (size < 2 ^ 32 → ∃ x m'', Action.tryPrimitive 62 0 m' = .ok .handled m'' ∧
      Action.top m'' = .ok x m'' ∧ m''.Denotes x size) ∧
    (2 ^ 32 ≤ size → ∃ m'', Action.tryPrimitive 62 0 m' = .ok .unhandled m'')

/-- Whatever stands on the stack, no element of an object is read or stored. -/
structure Machine.Bars (m : Machine) (characters : Bool) (array : Value) : Prop where
  read : ∀ m' v m'', m.Restacks m' → m'.Stacked [array, v] →
    Action.tryPrimitive (Primitive.atNumber characters) 1 m' ≠ .ok .handled m''
  store : ∀ m' v x m'', m.Restacks m' → m'.Stacked [array, v, x] →
    Action.tryPrimitive (Primitive.atPutNumber characters) 2 m' ≠ .ok .handled m''

/-- What shows as a value was stored into an element, and the value answered in place of the operands.
Named fields, other objects and all of the active context but the field of the answer are as they were,
and the array acts as before in all other places as long as it is taken for what it is. This is at stake
only where a pointer was stored into the special objects array or into a class that is its own class. -/
structure Machine.Replaces (m : Machine) (characters : Bool) (array : Value) (o : Object)
    (named size i : Nat) (e : Element) (x : Value) (m₁ : Machine) : Prop where
  place : ∃ e₀, o.elements named size characters i = some e₀
  keeps : o.format.keeps characters e = true
  object : m₁.memory.get? array = some (o.setElement named (i - 1) e)
  fields : ∀ j < named, m₁.memory.cell array j = m.memory.cell array j
  others : ∀ w, w ≠ array → w ≠ m.registers.context → m₁.memory.get? w = m.memory.get? w
  registers : m₁.registers = { m.registers with sp := m.registers.sp - 2 }
  active : m₁.memory.get? m.registers.context =
    (m.memory.get? m.registers.context).map fun c => c.setPointer (m.registers.sp - 2) x
  acts : m₁.Recognizes array (o.setElement named (i - 1) e) named →
    m₁.ActsAs characters array size
      (Function.update (o.elements named size characters) i (some e))
  recognizes : (o.format.isPointers = true → array ≠ m.specials.array ∧ array ≠ o.cls) →
    m₁.Recognizes array (o.setElement named (i - 1) e) named

namespace Machine.IsArray

open Attempt

theorem actsAs (h : m.IsArray characters array o named size) :
    m.ActsAs characters array size (o.elements named size characters) where
  range _ _ he := (Object.elements_eq_some.1 he).1
  read _ _ _ _ r stacked hv he := (h.restack r).read stacked hv he
  refuse _ _ r stacked hnone := (h.restack r).refuse stacked hnone
  count _ r stacked := (h.restack r).count stacked

/-- What is left on the heap by a store and the answer to it. -/
theorem replaces {e₀ : Element} (h : m.IsArray characters array o named size)
    (hold : o.elements named size characters i = some e₀) (he : o.format.keeps characters e = true)
    (hpush : Action.popThenPush 3 x (m.modified array fun o => o.setElement named (i - 1) e) =
      .ok () m₁)
    (r : (m.modified array fun o => o.setElement named (i - 1) e).Restacks m₁) :
    m.Replaces characters array o named size i e x m₁ := by
  have hremains := o.remains_setElement named (i - 1) e
  have hget (w : Value) : (m.modified array fun o => o.setElement named (i - 1) e).memory.get? w =
      if w = array then some (o.setElement named (i - 1) e) else m.memory.get? w := by
    rw [Machine.modified, Memory.get?_modify, h.object, Option.map_some]
  have harray : m₁.memory.get? array = some (o.setElement named (i - 1) e) :=
    (r.others array h.other).trans ((hget array).trans (if_pos rfl))
  obtain ⟨hdeep, -, rfl⟩ := Action.popThenPush_ok.1 hpush
  have hplace : m.registers.sp - 3 + 1 = m.registers.sp - 2 := Nat.succ_sub hdeep |>.symm
  refine ⟨⟨e₀, hold⟩, he, harray, fun j hj => ?_, fun w hw hcontext => ?_, ?_, ?_,
    fun hrecognizes => ?_, fun hplace => ?_⟩
  · rw [Memory.cell, harray, Memory.cell, h.object]
    exact Object.pointers_setElement hj
  · exact (r.others w hcontext).trans ((hget w).trans (if_neg hw))
  · rw [← hplace]
    rfl
  · rw [← hplace, ← (hget m.registers.context).trans (if_neg h.other.symm)]
    exact (Action.get?_pushed _).trans (if_pos rfl)
  · rw [← Object.elements_setElement hold he]
    exact actsAs { hrecognizes with
      equipped := (equipped_stored h he).restack r
      object := harray
      other := r.context ▸ h.other
      indexed := hremains.indexed?.trans h.indexed
      bytes := fun hc => hremains.format.trans (h.bytes hc) }
  · have hstored : (m.modified array fun o => o.setElement named (i - 1) e).Recognizes array
        (o.setElement named (i - 1) e) named := recognizes_stored h he hplace
    have hspecials : (m.modified array fun o => o.setElement named (i - 1) e).specials.array ≠
        (m.modified array fun o => o.setElement named (i - 1) e).registers.context := h.equipped.array
    exact hstored.restack r hspecials

/-- A store is answered, or no object is changed. -/
theorem atPut_outcome (h : m.IsArray characters array o named size) (stacked : m.Stacked [array, v, x])
    (hselector : ∃ selector, m.selector? .atPut = some selector) :
    (∃ i e m₁, Action.tryPrimitive (Primitive.atPutNumber characters) 2 m = .ok .handled m₁ ∧
      m.Denotes v i ∧ m.Shows e x ∧ Action.top m₁ = .ok x m₁ ∧
      m.Replaces characters array o named size i e x m₁) ∨
    m.Rejects (Action.tryPrimitive (Primitive.atPutNumber characters) 2) := by
  have hquick : ¬(256 ≤ Primitive.atPutNumber characters ∧ Primitive.atPutNumber characters < 520) := by
    cases characters <;> decide
  rcases h.indexedAtPut_outcome stacked hselector with
    ⟨i, e₀, e, c, hv, hold, he, hx, hrun⟩ | ⟨failure, c, hrun⟩
  · have hstacked : ((m.recalling c).modified array fun o => o.setElement named (i - 1) e).Stacked
        [array, v, x] := stacked.congr rfl ((Memory.get?_modify ..).trans (if_neg h.other.symm))
    obtain ⟨m₁, hpush, r, htop⟩ := hstacked.answer x
    have hreplaces := (h.restack (.recalling m c)).replaces hold he hpush r
    obtain ⟨hdone, -⟩ := Primitive.tryPrimitive_of_exists (n := 2) (m := m)
      (Primitive.exists_atPut characters) hquick
    exact .inl ⟨i, e, m₁, hdone m₁ ((bind_of_ok hrun).trans (bind_of_ok (lift_ok.2 hpush))), hv, hx,
      htop, hreplaces.place, hreplaces.keeps, hreplaces.object, hreplaces.fields, hreplaces.others,
      hreplaces.registers, hreplaces.active, hreplaces.acts, hreplaces.recognizes⟩
  · exact .inr (Primitive.rejects (Primitive.exists_atPut characters) hquick (bind_of_error hrun))

end Machine.IsArray

namespace Machine.IsIndexed

/-- Whatever stands on the stack, nothing is read or stored if the number of elements cannot be found
out. -/
theorem bars (h : m.IsIndexed characters array o) (hu : m.Unmeasured o .at) :
    m.Bars characters array where
  read _ _ _ r stacked := ((h.restack r).rejects_at (hu.restack r h.equipped.array) stacked).not_handled
  store _ _ _ _ r stacked :=
    ((h.restack r).rejects_atPut (hu.restack r h.equipped.array).atPut stacked).not_handled

/-- A store is answered by an object that acts as an array, or no object is changed. -/
theorem atPut_outcome (h : m.IsIndexed characters array o) (stacked : m.Stacked [array, v, x]) :
    (∃ named size i e m₁, m.IsArray characters array o named size ∧
      Action.tryPrimitive (Primitive.atPutNumber characters) 2 m = .ok .handled m₁ ∧
      m.Denotes v i ∧ m.Shows e x ∧ Action.top m₁ = .ok x m₁ ∧
      m.Replaces characters array o named size i e x m₁) ∨
    m.Rejects (Action.tryPrimitive (Primitive.atPutNumber characters) 2) := by
  by_cases hu : m.Unmeasured o .atPut
  · exact .inr (h.rejects_atPut hu stacked)
  · have hselector := Option.ne_none_iff_exists'.1 (not_or.1 hu).2
    obtain ⟨named, size, harray⟩ := h.isArray_or.resolve_right fun hat => hu hat.atPut
    exact (harray.atPut_outcome stacked hselector).imp_left fun ⟨i, e, m₁, hstore⟩ =>
      ⟨named, size, i, e, m₁, harray, hstore⟩

/-- The laws of arrays. An indexed object acts as a map from indices, unless the number of its elements
cannot be found out, when it bars every access. When a store succeeds, one element is replaced by what
shows as the value, which is answered; else no object is changed. -/
theorem atPut_laws (h : m.IsIndexed characters array o) (stacked : m.Stacked [array, v, x]) :
    ((∃ named size, m.named? o = some named ∧ o.indexed? named = some size ∧
      m.ActsAs characters array size (o.elements named size characters)) ∨
      m.Unmeasured o .at ∧ m.Bars characters array) ∧
    (∀ m₁, Action.tryPrimitive (Primitive.atPutNumber characters) 2 m = .ok .handled m₁ →
      ∃ named size i e, m.named? o = some named ∧ o.indexed? named = some size ∧ m.Denotes v i ∧
        m.Shows e x ∧ Action.top m₁ = .ok x m₁ ∧ m.Replaces characters array o named size i e x m₁) ∧
    (∀ trial m₁, Action.tryPrimitive (Primitive.atPutNumber characters) 2 m = .ok trial m₁ →
      trial ≠ .handled → trial = .unhandled ∧ m₁.memory = m.memory) ∧
    ∀ fault m₁, Action.tryPrimitive (Primitive.atPutNumber characters) 2 m = .error fault m₁ →
      m₁.memory = m.memory := by
  refine ⟨h.isArray_or.imp (fun ⟨named, size, harray⟩ =>
    ⟨named, size, harray.fields, harray.indexed, harray.actsAs⟩) fun hu => ⟨hu, h.bars hu⟩, ?_⟩
  rcases h.atPut_outcome stacked with
    ⟨named, size, i, e, m', harray, hrun, hv, hx, htop, hreplaces⟩ | hrejects
  · rw [hrun]
    refine ⟨fun m₁ hm₁ => ?_, fun trial m₁ hm₁ hnot => ?_, fun fault m₁ hm₁ => by cases hm₁⟩
    · obtain rfl := (EStateM.Result.ok.inj hm₁).2
      exact ⟨named, size, i, e, harray.fields, harray.indexed, hv, hx, htop, hreplaces⟩
    · exact absurd (EStateM.Result.ok.inj hm₁).1.symm hnot
  · exact ⟨fun m₁ hm₁ => absurd hm₁ hrejects.not_handled, fun trial m₁ hm₁ _ => hrejects.of_ok hm₁,
      fun fault m₁ hm₁ => hrejects.of_error hm₁⟩

/-- A special objects array, two words and a large positive integer. The active context is about to
store zero over the selectors among the special objects, or the large integer into the second word. -/
def easel (sp : Nat) : Machine :=
  let nil : Value := .ref 0 0
  let header : Value := .small (MethodHeader.encode 0 0 0 false 0).word
  let pointers cls fields := Object.ofPointers cls .indexable (List.toArray fields)
  let objects := [pointers nil [],
    pointers (.ref 2 0) (List.replicate 13 nil ++ [.ref 4 0] ++ List.replicate 9 nil ++ [.ref 3 0]),
    pointers nil [], pointers nil (List.replicate 36 nil), pointers nil [],
    .ofMethod nil #[header] #[124],
    pointers nil [nil, .small 0, .small 0, .ref 5 0, nil, nil, .ref 1 0, .small 24, .small 0, .ref 7 0,
      .small 2, .ref 8 0],
    .ofWords (.ref 2 0) #[1, 2], .ofBytes (.ref 4 0) #[0, 0, 0, 128]]
  let m := Machine.create (filled (.empty .standard) objects)
    { array := .ref 1 0, nil, falseObject := nil, trueObject := nil } {} default
  { m with
    registers := { m.registers with
      context := .ref 6 0
      home := .ref 6 0
      method := .ref 5 0
      sp } }

theorem isIndexed_easel (sp : Nat) (array : Value) (size : Nat) {f : Format}
    (hshape : ((easel 0).memory.get? array).any (fun o => decide (o.format = f ∧ o.cls = .ref 2 0 ∧
      (easel 0).named? o = some 0 ∧ o.indexed? 0 = some size)) = true)
    (hother : array ≠ .ref 6 0) :
    ∃ o, o.format = f ∧ o.cls = .ref 2 0 ∧ (easel sp).named? o = some 0 ∧ o.indexed? 0 = some size ∧
      (easel sp).IsIndexed false array o := by
  obtain ⟨o, ho, hshape⟩ := (Option.any_eq_true _ _).1 hshape
  obtain ⟨hf, hcls, hnamed, hindexed⟩ := of_decide_eq_true hshape
  have hinstance (i : Nat) (hi : (easel 0).specials.get (easel 0).memory i ≠ .ref 2 0) :
      (easel sp).isInstance array i = false := by
    rw [isInstance, show (easel sp).memory.get? array = some o from ho, Option.any_some, hcls]
    exact beq_eq_false_iff_ne.2 (Ne.symm hi)
  have room : (easel 0).memory.Roomy := by
    have hfree : (easel 0).memory.free = [] := by decide +kernel
    have hsize : (easel 0).memory.slots.size < 0x100000000 := by decide +kernel
    refine ⟨by decide +kernel, ?_⟩
    rw [Memory.Placeable, hfree]
    exact hsize
  have live : (easel 0).memory.isLive (easel 0).specials.array = true := by decide +kernel
  have shape : o.format ≠ .empty ∧ o.format ≠ .fixed := by
    constructor
    all_goals
      intro hformat
      rw [Object.indexed?, hformat] at hindexed
      cases hindexed
  refine ⟨o, hf, hcls, hnamed, hindexed, ⟨room, live, ?_, nofun, nofun⟩, ho, hother, ?_,
    hinstance _ (by decide +kernel), shape, nofun⟩
  · exact show Value.ref 1 0 ≠ Value.ref 6 0 by decide
  · rw [isContext, hinstance _ (by decide +kernel), hinstance _ (by decide +kernel)]
    rfl

theorem stacked_easel {sp : Nat} (hsp : 8 ≤ sp)
    (hcells : (easel 0).memory.cell (.ref 6 0) (sp - 2) = some array ∧
      (easel 0).memory.cell (.ref 6 0) (sp - 1) = some v ∧
      (easel 0).memory.cell (.ref 6 0) sp = some x) :
    (easel sp).Stacked [array, v, x] := by
  have hframe : Context.frameStart = 6 := rfl
  have hdepth : (easel sp).registers.sp = sp := rfl
  obtain ⟨harray, hv, hx⟩ := hcells
  have htwo : Action.stackValue 2 (easel sp) = .ok array (easel sp) :=
    Action.stackValue_ok.2 ⟨by omega, harray, rfl⟩
  have hone : Action.stackValue 1 (easel sp) = .ok v (easel sp) :=
    Action.stackValue_ok.2 ⟨by omega, hv, rfl⟩
  have hzero : Action.stackValue 0 (easel sp) = .ok x (easel sp) :=
    Action.stackValue_ok.2 ⟨by omega, hx, rfl⟩
  have hlast : (easel sp).Stacked [x] :=
    (Machine.Stacked.nil (by omega)).cons hzero (show 6 + 0 ≤ sp by omega)
  exact (hlast.cons hone (show 6 + 1 ≤ sp by omega)).cons htwo (show 6 + 2 ≤ sp by omega)

/-- The large integer is stored into the second word, and is read from it then. -/
theorem atPut_laws_easel : ∃ o, (easel 11).IsIndexed false (.ref 7 0) o ∧
    (easel 11).Stacked [.ref 7 0, .small 2, .ref 8 0] ∧
    ∃ m₁, Action.tryPrimitive 61 2 (easel 11) = .ok .handled m₁ ∧
      m₁.ActsAs false (.ref 7 0) 2
        (Function.update (o.elements 0 2 false) 2 (some (.word 0x80000000))) := by
  obtain ⟨o, hf, hcls, hnamed, hindexed, h⟩ := isIndexed_easel 11 (.ref 7 0) 2 (f := .words)
    (by decide +kernel) (by decide)
  have stacked : (easel 11).Stacked [.ref 7 0, .small 2, .ref 8 0] :=
    stacked_easel (by decide) (by decide +kernel)
  have hrun : Action.leads (Action.tryPrimitive 61 2) (easel 11) (fun trial _ =>
      decide (trial = .handled)) = true := by decide +kernel
  obtain ⟨trial, m₁, hrun, htrial⟩ := Action.exists_of_leads hrun
  obtain rfl : trial = .handled := of_decide_eq_true htrial
  obtain ⟨-, hhandled, -⟩ := h.atPut_laws stacked
  obtain ⟨named, size, i, e, hnamed', hindexed', hi, hx, -, r⟩ := hhandled m₁ hrun
  obtain rfl := Option.some.inj (hnamed.symm.trans hnamed')
  obtain rfl := Option.some.inj (hindexed.symm.trans hindexed')
  obtain rfl : 2 = i := (Machine.Denotes.immediate (k := 2) (by decide)).unique hi
  obtain ⟨big, hbig, hbytes⟩ := (Option.any_eq_true _ _).1
    (show ((easel 11).memory.get? (.ref 8 0)).any (fun big => decide (big.cls =
      (easel 11).specials.get (easel 11).memory Special.classLargePositiveInteger ∧
      big.bytes? = some #[0, 0, 0, 128])) = true by decide +kernel)
  obtain ⟨hbigCls, hbytes⟩ := of_decide_eq_true hbytes
  have hdenotes : (easel 11).Denotes (.ref 8 0) 0x80000000 := .large hbig hbigCls hbytes (by decide)
  refine ⟨o, h, stacked, m₁, hrun, ?_⟩
  have hword : e = .word 0x80000000 := by
    have hkeeps := r.keeps
    rw [hf] at hkeeps
    cases hx with
    | word hw => exact congrArg Element.word (UInt32.toNat_inj.1 (hw.unique hdenotes))
    | pointer => cases hkeeps
    | character => cases hkeeps
  exact hword ▸ r.acts (r.recognizes fun _ => ⟨by decide, by rw [hcls]; decide⟩)

/-- Zero is stored where the special objects array has the selectors. No element can be read then. -/
theorem not_actsAs_easel : ∃ o, (easel 8).IsIndexed false (.ref 1 0) o ∧
    (easel 8).named? o = some 0 ∧ o.indexed? 0 = some 24 ∧
    (easel 8).Stacked [.ref 1 0, .small 24, .small 0] ∧
    ∃ m₁ m₂ m₃, Action.tryPrimitive 61 2 (easel 8) = .ok .handled m₁ ∧ m₁.Restacks m₂ ∧
      m₂.Stacked [.ref 1 0, .small 24] ∧
      Action.tryPrimitive 60 1 m₂ = .error (.invalidReference (.small 0)) m₃ ∧
      ¬ m₁.ActsAs false (.ref 1 0) 24
        (Function.update (o.elements 0 24 false) 24 (some (.pointer (.small 0)))) := by
  obtain ⟨o, -, -, hnamed, hindexed, h⟩ := isIndexed_easel 8 (.ref 1 0) 24 (f := .indexable)
    (by decide +kernel) (by decide)
  have stacked : (easel 8).Stacked [.ref 1 0, .small 24, .small 0] :=
    stacked_easel (by decide) (by decide +kernel)
  let asked (m₁ : Machine) : Machine := Action.pushed (Action.pushed m₁ (.ref 1 0)) (.small 24)
  have hrun : Action.leads (Action.tryPrimitive 61 2) (easel 8) (fun trial m₁ =>
      decide (trial = .handled ∧ m₁.registers.sp = 6 ∧
        (asked m₁).memory.cell (asked m₁).registers.context 7 = some (.ref 1 0) ∧
        (asked m₁).memory.cell (asked m₁).registers.context 8 = some (.small 24)) &&
      match Action.tryPrimitive 60 1 (asked m₁) with
      | .error e _ => decide (e = .invalidReference (.small 0))
      | .ok .. => false) = true := by decide +kernel
  obtain ⟨trial, m₁, hrun, htest⟩ := Action.exists_of_leads hrun
  obtain ⟨hstate, hfault⟩ := Bool.and_eq_true_iff.1 htest
  obtain ⟨rfl, hsp, hbelow, htop⟩ := of_decide_eq_true hstate
  have hframe : Context.frameStart = 6 := rfl
  have hdeep : (Action.pushed m₁ (.ref 1 0)).registers.sp = m₁.registers.sp + 1 := rfl
  have hdepth : (asked m₁).registers.sp = m₁.registers.sp + 2 := rfl
  have hasked : m₁.Restacks (asked m₁) :=
    (Machine.Restacks.pushed (by omega)).trans (Machine.Restacks.pushed (by omega))
  have hindex : Action.stackValue 0 (asked m₁) = .ok (.small 24) (asked m₁) :=
    Action.stackValue_ok.2 ⟨by omega, by rw [hdepth, hsp]; exact htop, rfl⟩
  have harray : Action.stackValue 1 (asked m₁) = .ok (.ref 1 0) (asked m₁) :=
    Action.stackValue_ok.2 ⟨by omega, by rw [hdepth, hsp]; exact hbelow, rfl⟩
  have hstacked : (asked m₁).Stacked [.ref 1 0, .small 24] :=
    ((Machine.Stacked.nil (by omega)).cons hindex (show 6 + 0 ≤ m₁.registers.sp + 2 by omega)).cons
      harray (show 6 + 1 ≤ m₁.registers.sp + 2 by omega)
  split at hfault
  · rename_i e m₃ herror
    obtain rfl := of_decide_eq_true hfault
    refine ⟨o, h, hnamed, hindexed, stacked, m₁, asked m₁, m₃, hrun, hasked, hstacked, herror,
      fun hacts => ?_⟩
    obtain ⟨x, m', hread, -⟩ := hacts.read _ _ 24 _ hasked hstacked
      (.immediate (by decide)) (Function.update_self ..)
    cases herror.symm.trans hread
  · cases hfault

end Machine.IsIndexed

end Smalltalk
