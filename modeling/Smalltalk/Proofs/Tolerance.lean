import Smalltalk.Proofs.Provision
import Smalltalk.Proofs.Sizes

/-!
# Accesses that do not end interpretation

A primitive that does not suit its operands is to be declined, so that the method behind it can run. The
primitives for indexed access keep to that: whatever the receiver holds, they answer, or are declined, or
find no room for an object. They ask the class of the receiver for its format word, which has to be
there. And there is one exception: the number of elements of a context is its stored stack pointer, which
is read as a field that cannot be missing. A new instance of a context class has nil there, and asking
such a context for its elements ends interpretation.
-/

namespace Smalltalk

open Outcome

variable {α β : Type} {m m₁ m₂ m' : Machine} {v w x array source : Value} {o : Object}
  {i n number slot : Nat}
  {characters : Bool}

/-! ### Ending mildly -/

namespace Attempt

/-- The attempt is answered with `Q`, or declined, or finds no room for an object. -/
def Mild (y : Attempt α) (m : Machine) (Q : α → Machine → Prop) : Prop :=
  (∃ a m', y m = .ok a m' ∧ Q a m') ∨ (∃ m', y m = .error .declined m') ∨
    ∃ e m', y m = .error (.fault e) m' ∧ e.Exhausted m'

namespace Mild

variable {y z : Attempt α} {f : α → Attempt β} {Q R : α → Machine → Prop} {T : β → Machine → Prop} {a : α}

theorem of_ok (h : y m = .ok a m') (hQ : Q a m') : Mild y m Q := .inl ⟨a, m', h, hQ⟩

theorem pure (hQ : Q a m) : Mild (pure a) m Q := .of_ok rfl hQ

theorem decline : Mild (decline : Attempt α) m Q := .inr (.inl ⟨m, rfl⟩)

theorem congr (h : y m = z m) (hz : Mild z m Q) : Mild y m Q := by
  rw [Mild, h]
  exact hz

theorem mono (h : Mild y m R) (hQ : ∀ a m', R a m' → Q a m') : Mild y m Q :=
  h.imp_left fun ⟨a, m', hrun, hR⟩ => ⟨a, m', hrun, hQ a m' hR⟩

theorem bind (hy : Mild y m R) (hf : ∀ a m₁, R a m₁ → Mild (f a) m₁ T) : Mild (y >>= f) m T := by
  rcases hy with ⟨a, m₁, hrun, hR⟩ | ⟨m₁, hrun⟩ | ⟨e, m₁, hrun, he⟩
  · exact .congr (z := fun _ => f a m₁) (bind_of_ok hrun) (hf a m₁ hR)
  · exact .inr (.inl ⟨m₁, bind_of_error hrun⟩)
  · exact .inr (.inr ⟨e, m₁, bind_of_error hrun, he⟩)

/-- What only looks is mild. -/
theorem look (hy : Looks m y) (hf : ∀ a, y m = .ok a m → Mild (f a) m T) : Mild (y >>= f) m T := by
  rcases hy with ⟨a, hrun⟩ | hrun
  · exact .congr (z := fun _ => f a m) (bind_of_ok hrun) (hf a hrun)
  · exact .inr (.inl ⟨m, bind_of_error hrun⟩)

/-- An action has no way to decline. -/
theorem of_lift {y : Action α} (h : Mild (liftM y) m Q) :
    (∃ a m', y m = .ok a m' ∧ Q a m') ∨ ∃ e m', y m = .error e m' ∧ e.Exhausted m' := by
  rcases h with ⟨a, m', hrun, hQ⟩ | ⟨m', hrun⟩ | ⟨e, m', hrun, he⟩
  · exact .inl ⟨a, m', lift_ok.1 hrun, hQ⟩
  · exact absurd hrun lift_declined
  · cases hy : y m with
    | ok a m₁ =>
      rw [lift_ok.2 hy] at hrun
      cases hrun
    | error f m₁ =>
      obtain ⟨hf, rfl⟩ := EStateM.Result.error.inj ((lift_fault hy).symm.trans hrun)
      obtain rfl := Refusal.fault.inj hf
      exact .inr ⟨f, m₁, rfl, he⟩

/-- A part that is known to be answered. -/
theorem after (hy : y m = .ok a m₁) (hf : Mild (f a) m₁ T) : Mild (y >>= f) m T :=
  .congr (z := fun _ => f a m₁) (bind_of_ok hy) hf

end Mild

end Attempt

/-! ### The stack stays -/

/-- The active context is the same and has all the fields that it had. -/
structure Machine.Footing (m m' : Machine) : Prop where
  registers : m'.registers = m.registers
  fields : ∀ i, (∃ x, m.memory.cell m.registers.context i = some x) →
    ∃ x, m'.memory.cell m.registers.context i = some x

namespace Machine.Footing

theorem refl (m : Machine) : m.Footing m := ⟨rfl, fun _ => id⟩

theorem trans (h : m.Footing m₁) (h' : m₁.Footing m') : m.Footing m' :=
  ⟨h'.registers.trans h.registers, fun i hi => h.registers ▸ h'.fields i (h.registers ▸ h.fields i hi)⟩

theorem of_recalling {c : AtCache} (h : (m.recalling c).Footing m') : m.Footing m' :=
  ⟨h.registers, h.fields⟩

/-- A change of an object that keeps its fields. -/
theorem modified {f : Object → Object} (ho : m.memory.get? v = some o)
    (hf : (f o).pointers.size = o.pointers.size) : m.Footing (m.modified v f) := by
  refine ⟨rfl, fun i ⟨x, hx⟩ => ?_⟩
  obtain ⟨context, hcontext, hfield⟩ := Memory.cell_eq_some.1 hx
  obtain ⟨hlt, -⟩ := Array.getElem?_eq_some_iff.1 hfield
  by_cases hv : m.registers.context = v
  · rw [hv, ho] at hcontext
    obtain rfl := Option.some.inj hcontext
    refine ⟨_, Memory.cell_eq_some.2 ⟨f o, ?_, Array.getElem?_eq_getElem (hf.symm ▸ hlt)⟩⟩
    rw [Machine.modified, Memory.get?_modify, if_pos hv, ho, Option.map_some]
  · refine ⟨x, Memory.cell_eq_some.2 ⟨context, ?_, hfield⟩⟩
    rw [Machine.modified, Memory.get?_modify, if_neg hv, hcontext]

end Machine.Footing

namespace Attempt

/-- A new object does not take the place of the active context, which is kept while room is made. -/
theorem mild_allocate (stocked : m.memory.Stocked) (live : m.memory.isLive m.registers.context = true) :
    Mild (liftM (Action.allocate o)) m fun _ m' => m.Footing m' := by
  cases hrun : Action.allocate o m with
  | error e m' =>
    have full : Raises Fault.Exhausted (Action.allocate o) := inferInstance
    exact .inr (.inr ⟨e, m', lift_fault hrun, full.error hrun⟩)
  | ok v m' =>
    refine .of_ok (lift_ok.2 hrun) ⟨Action.allocate_registers hrun, fun i ⟨x, hx⟩ => ⟨x, ?_⟩⟩
    obtain ⟨m₁, hash, t, -, rfl⟩ := Action.allocate_ok hrun
    have hkept := t.kept _ (.root (by simp [Machine.anchors]) live)
    have hcell : m₁.memory.cell m.registers.context i = some x := by rw [Memory.cell, hkept]; exact hx
    rcases (t.stocked stocked).get?_place { o with hash } m.registers.context with e | ⟨-, hnone, -⟩
    · rw [Action.placed, Memory.cell, e]
      exact hcell
    · rw [Memory.cell, hnone] at hcell
      cases hcell

theorem mild_positive32 (stocked : m.memory.Stocked) (live : m.memory.isLive m.registers.context = true) :
    Mild (liftM (Action.positive32 n)) m fun _ m' => m.Footing m' := by
  rcases Nat.lt_or_ge n (2 ^ 30) with hn | hn
  · exact .of_ok (lift_ok.2 (Action.positive32_immediate hn)) (.refl m)
  refine .congr (z := liftM (Action.allocate (m.largeInteger n))) ?_ (mild_allocate stocked live)
  change ofAction (Action.positive32 n) m = ofAction (Action.allocate _) m
  rw [ofAction, ofAction, Action.positive32_large hn]

end Attempt

/-! ### Furnishings -/

/-- What the accesses need whatever the receiver is: the selectors of the accesses are known, and there
is something in the table of characters for each byte. -/
structure Machine.Furnished (m : Machine) : Prop where
  stocked : m.memory.Stocked
  selectors : ∀ access, ∃ selector, m.memory.cell
    (m.specials.get m.memory Special.specialSelectors) (Action.selectorIndex access) = some selector
  characters : ∀ code < 256, ∃ v,
    m.memory.cell (m.specials.get m.memory Special.characterTable) code = some v

/-- A receiver stands on the stack below `n` arguments, the last of which has a code if it is a
Character. -/
structure Machine.Presents (m : Machine) (n : Nat) (v : Value) : Prop where
  stack : ∃ arguments, Action.stackValues (n + 1) m = .ok (v :: arguments) m
  deep : n + 1 ≤ m.registers.sp
  code : ∀ x, Action.top m = .ok x m → m.isInstance x Special.classCharacter = true →
    ∃ w, m.memory.cell x 0 = some w

/-- An integer, or an object of a class with a format word. -/
def Machine.Shaped (m : Machine) (v : Value) : Prop :=
  v.isSmall = true ∨ ∃ o word, m.memory.get? v = some o ∧
    m.memory.cell o.cls Class.format = some (.small word)

/-- If the value is a context, it has stored its stack pointer. -/
def Machine.Stowed (m : Machine) (v : Value) : Prop :=
  m.isContext v = true → ∃ k, m.memory.cell v Context.stackPointer = some (.small k)

namespace Machine

theorem exists_stackValue {values : List Value} (h : Action.stackValues n m = .ok values m) (hi : i < n) :
    ∃ x, Action.stackValue i m = .ok x m := by
  induction n generalizing values with
  | zero => omega
  | succ n ih =>
    obtain ⟨x, rest, -, hx, hrest⟩ := Action.stackValues_succ h
    rcases Nat.lt_succ_iff_lt_or_eq.1 hi with hlt | rfl
    · exact ih hrest hlt
    · exact ⟨x, hx⟩

theorem Furnished.selector (h : m.Furnished) (access : Access) :
    ∃ selector, Action.specialSelector (Action.selectorIndex access) m = .ok selector m :=
  let ⟨selector, hselector⟩ := h.selectors access
  ⟨selector, Action.fetch_ok.2 ⟨hselector, rfl⟩⟩

/-- The at-cache is no matter. -/
theorem Furnished.recalling (h : m.Furnished) (c : AtCache) : (m.recalling c).Furnished :=
  ⟨h.stocked, h.selectors, h.characters⟩

namespace Presents

theorem receiver (h : m.Presents n v) : Action.stackValue n m = .ok v m := by
  obtain ⟨arguments, hstack⟩ := h.stack
  obtain ⟨_, _, e, hv, -⟩ := Action.stackValues_succ hstack
  obtain ⟨rfl, -⟩ := List.cons.inj e
  exact hv

theorem argument (h : m.Presents n v) (hi : i ≤ n) : ∃ x, Action.stackValue i m = .ok x m :=
  let ⟨_, hstack⟩ := h.stack
  exists_stackValue hstack (Nat.lt_succ_of_le hi)

/-- An answer takes the place of the receiver. -/
theorem popThenPush (h : m.Presents n v) (hfooting : m.Footing m') :
    Action.popThenPush (n + 1) x m' = .ok () (Action.pushed (Action.popped m' (n + 1)) x) := by
  obtain ⟨-, hcell, -⟩ := Action.stackValue_ok.1 h.receiver
  have deep : n + 1 ≤ m.registers.sp := h.deep
  have hplace : m.registers.sp - (n + 1) + 1 = m.registers.sp - n := by omega
  refine Action.popThenPush_ok.2 ⟨hfooting.registers ▸ deep, ?_, rfl⟩
  rw [hfooting.registers, hplace]
  exact hfooting.fields _ ⟨v, hcell⟩

theorem live (h : m.Presents n v) : m.memory.isLive m.registers.context = true :=
  Memory.isLive_of_cell (Action.stackValue_ok.1 h.receiver).2.1

end Presents

theorem Shaped.live (h : m.Shaped v) (href : v.isReference = true) :
    ∃ o word, m.memory.get? v = some o ∧ m.memory.cell o.cls Class.format = some (.small word) := by
  refine h.resolve_left fun hsmall => ?_
  cases v with
  | small k => cases href
  | ref index generation => cases hsmall

theorem named?_of_word {word : Int} (hword : m.memory.cell o.cls Class.format = some (.small word)) :
    ∃ n, m.named? o = some n := by
  unfold named?
  rw [hword]
  split <;> exact ⟨_, rfl⟩

/-- The number of elements is known. -/
theorem Shaped.size? (h : m.Shaped v) (hstowed : m.Stowed v) : ∃ size, m.size? v = some size := by
  unfold Machine.size?
  split_ifs with hsmall hcontext
  · exact ⟨_, rfl⟩
  · obtain ⟨k, hk⟩ := hstowed hcontext
    rw [hk]
    exact ⟨_, rfl⟩
  · obtain ⟨o, word, ho, hword⟩ := h.resolve_left hsmall
    obtain ⟨n, hn⟩ := named?_of_word hword
    rw [ho, Option.bind_some, hn]
    exact ⟨_, rfl⟩

end Machine

namespace Attempt

/-! ### Looking at operands -/

theorem looks_positive32Value : Looks m (positive32Value v) := by
  rcases positive32Value_outcome (m := m) (v := v) with ⟨k, -, hrun⟩ | ⟨-, hrun⟩
  · exact .inl ⟨k, hrun⟩
  · exact .inr hrun

theorem looks_stackObject (hv : Action.stackValue i m = .ok v m) : Looks m (stackObject i) :=
  .bind (.lift hv) fun _ _ => .bind .require fun _ _ => .pure

theorem stackObject_ok (hv : Action.stackValue i m = .ok v m) (h : stackObject i m = .ok array m') :
    array = v ∧ v.isReference = true := by
  obtain ⟨a, _, ha, h⟩ := bind_ok.1 h
  obtain ⟨rfl, rfl⟩ := EStateM.Result.ok.inj (hv.symm.trans (lift_ok.1 ha))
  obtain ⟨_, _, hrequire, h⟩ := bind_ok.1 h
  exact ⟨(pure_ok.1 h).1.symm, require_ok hrequire⟩

theorem looks_stackInteger (hv : Action.stackValue i m = .ok v m) : Looks m (stackInteger i) :=
  .bind (.lift hv) fun _ _ => .ofOption

theorem looks_natural {k : Int} : Looks m (natural k) := .bind .require fun _ _ => .pure

theorem looks_floatValue : Looks m (floatValue v) := by
  refine .bind (.lift Action.isInstanceOf_isInstance) fun large hlarge => .bind .require fun _ hrequire => ?_
  obtain ⟨rfl, -⟩ := EStateM.Result.ok.inj (Action.isInstanceOf_isInstance.symm.trans (lift_ok.1 hlarge))
  obtain ⟨o, ho, -⟩ := (Option.any_eq_true _ _).1 (require_ok hrequire)
  refine .bind (.lift (Action.object_ok.2 ⟨ho, rfl⟩)) fun o _ => ?_
  cases o.body with
  | float bits => exact .pure
  | words ws =>
    obtain ⟨ws⟩ := ws
    rcases ws with _ | ⟨high, _ | ⟨low, _ | ⟨more, ws⟩⟩⟩
    · exact .inr rfl
    · exact .inr rfl
    · exact .pure
    · exact .inr rfl
  | none => exact .inr rfl
  | bytes bs => exact .inr rfl

theorem looks_byteToPut (code : m.isInstance x Special.classCharacter = true →
    ∃ w, m.memory.cell x 0 = some w) : Looks m (byteToPut x characters) := by
  have inRange (code : Int) : Looks m (do require (0 ≤ code ∧ code < 256); return UInt8.ofNat code.toNat) :=
    .bind .require fun _ _ => .pure
  unfold byteToPut
  cases characters with
  | false => exact .bind .ofOption fun _ _ => inRange _
  | true =>
    simp only [if_true]
    refine .bind (.lift Action.isInstanceOf_isInstance) fun character hcharacter => ?_
    obtain ⟨rfl, -⟩ :=
      EStateM.Result.ok.inj (Action.isInstanceOf_isInstance.symm.trans (lift_ok.1 hcharacter))
    refine .bind .require fun _ hrequire => ?_
    obtain ⟨w, hw⟩ := code (require_ok hrequire)
    refine .bind (.lift (Action.fetch_ok.2 ⟨hw, rfl⟩)) fun _ _ => ?_
    exact .bind .ofOption fun _ _ => inRange _

theorem looks_elementFor {f : Format} (code : m.isInstance x Special.classCharacter = true →
    ∃ w, m.memory.cell x 0 = some w) : Looks m (elementFor f characters x) := by
  unfold elementFor
  split
  · exact .bind looks_positive32Value fun _ _ => .pure
  · exact .bind (looks_byteToPut code) fun _ _ => .pure
  · exact .bind (looks_byteToPut code) fun _ _ => .pure
  · exact .pure

/-! ### Elements -/

/-- The value of an element may have to be made. -/
theorem mild_value (h : m.Furnished) (live : m.memory.isLive m.registers.context = true) (e : Element) :
    Mild (liftM e.value) m fun _ m' => m.Footing m' := by
  cases e with
  | pointer v => exact .pure (.refl m)
  | word w => exact mild_positive32 h.stocked live
  | byte b => exact .pure (.refl m)
  | character b =>
    obtain ⟨v, hv⟩ := h.characters b.toNat b.toNat_lt
    have hrun : Action.characterFor b.toNat m = .ok v m := Action.fetch_ok.2 ⟨hv, rfl⟩
    exact .of_ok (lift_ok.2 hrun) (.refl m)

variable {entry : AtEntry} {mode : AccessMode} {access : Access} {fromBytecode : Bool}

theorem mild_elementAt (h : m.Furnished) (live : m.memory.isLive m.registers.context = true)
    (ho : m.memory.get? array = some o) :
    Mild (elementAt array slot entry mode) m fun _ m' => m.Footing m' := by
  obtain ⟨characters, named⟩ := mode
  cases named with
  | true =>
    unfold elementAt
    refine .after (lift_ok.2 (Action.object_ok.2 ⟨ho, rfl⟩)) ?_
    simp only [if_true]
    cases o.pointers[slot]? with
    | none => exact .decline
    | some x => exact .pure (.refl m)
  | false =>
    refine .congr (elementAt_eq ho) (.look .ofOption fun e _ => ?_)
    exact mild_value h live e

/-- What can be replaced is replaced. -/
theorem mild_elementPut (ho : m.memory.get? array = some o)
    (code : m.isInstance x Special.classCharacter = true → ∃ w, m.memory.cell x 0 = some w) :
    Mild (elementPut array slot x entry mode) m fun _ m' => m.Footing m' := by
  obtain ⟨characters, named⟩ := mode
  have put (f : Object → Object) (hf : (f o).pointers.size = o.pointers.size) :
      Mild (liftM (Action.modifyMemory fun memory => memory.modify array f) : Attempt Unit) m
        fun _ m' => m.Footing m' :=
    .of_ok (a := ()) (lift_ok.2 (Action.modifyMemory_ok.2 rfl)) (.modified ho hf)
  cases named with
  | true =>
    unfold elementPut
    refine .after (lift_ok.2 (Action.object_ok.2 ⟨ho, rfl⟩)) ?_
    simp only [if_true]
    refine .congr (putPointer_eq ho) (.look .ofOption fun _ _ => put _ ?_)
    exact (o.remains_setPointer _ x).pointers
  | false =>
    refine .congr (elementPut_eq ho) (.look (looks_elementFor code) fun e _ => .look .ofOption fun _ _ => ?_)
    exact put _ (o.remains_setElement _ _ e).pointers

/-- The bounds of an array are remembered, or worked out. -/
theorem mild_entry {f : AtEntry → Attempt α} {Q : α → Machine → Prop} (h : m.Furnished)
    (ho : m.memory.get? array = some o) (hsize : fromBytecode = true ∨ m.Shaped array ∧ m.Stowed array)
    (hf : ∀ entry c, Mild (f entry) (m.recalling c) Q) :
    Mild (if fromBytecode then cachedEntry access array >>= f
      else liftM (Action.atEntry access array mode) >>= f) m Q := by
  cases fromBytecode with
  | true =>
    rw [if_pos rfl]
    exact .look (looks_cachedEntry ho) fun entry _ => hf entry m.atCache
  | false =>
    rw [if_neg Bool.false_ne_true]
    obtain ⟨shaped, stowed⟩ := hsize.resolve_left Bool.false_ne_true
    obtain ⟨size, hsize⟩ := shaped.size? stowed
    obtain ⟨o', word, ho', hword⟩ := shaped.live (Memory.isReference_of_isLive (Memory.isLive_of_get? ho))
    obtain rfl := Option.some.inj (ho.symm.trans ho')
    obtain ⟨n, hn⟩ := Machine.named?_of_word hword
    obtain ⟨c, -, hrun⟩ := Action.atEntry_of access _ ho hn hsize (h.selector access)
    exact .after (lift_ok.2 hrun) (hf _ c)

/-! ### Accesses -/

theorem mild_indexedAt (h : m.Furnished) (hv : m.Presents 1 v) (shaped : m.Shaped v)
    (stowed : fromBytecode = true ∨ m.Stowed v) :
    Mild (indexedAt fromBytecode mode) m fun _ m' => m.Footing m' := by
  obtain ⟨index, hindex⟩ := hv.argument (i := 0) (by decide)
  refine .look (looks_stackObject hv.receiver) fun array harray => ?_
  obtain ⟨rfl, href⟩ := stackObject_ok hv.receiver harray
  obtain ⟨o, word, ho, -⟩ := shaped.live href
  refine .look (looks_stackPositive32 hindex) fun k _ => .after (lift_ok.2 Action.isInstanceOf_isInstance) ?_
  split
  · refine .look looks_floatValue fun bits _ => ?_
    split
    · exact mild_positive32 h.stocked hv.live
    · exact mild_positive32 h.stocked hv.live
    · exact .decline
  · refine mild_entry h ho (stowed.imp_right fun hs => ⟨shaped, hs⟩) fun entry c => ?_
    refine .look .require fun _ _ => ?_
    exact (mild_elementAt (h.recalling c) hv.live ho).mono fun _ _ hfooting => hfooting.of_recalling

theorem mild_indexedAtPut (h : m.Furnished) (hv : m.Presents 2 v) (shaped : m.Shaped v)
    (stowed : fromBytecode = true ∨ m.Stowed v) :
    Mild (indexedAtPut fromBytecode mode) m fun _ m' => m.Footing m' := by
  obtain ⟨index, hindex⟩ := hv.argument (i := 1) (by decide)
  obtain ⟨x, hx⟩ := hv.argument (i := 0) (by decide)
  refine .look (looks_stackObject hv.receiver) fun array harray => ?_
  obtain ⟨rfl, href⟩ := stackObject_ok hv.receiver harray
  obtain ⟨o, word, ho, -⟩ := shaped.live href
  refine .look (looks_stackPositive32 hindex) fun k _ => .after (lift_ok.2 hx) ?_
  refine mild_entry h ho (stowed.imp_right fun hs => ⟨shaped, hs⟩) fun entry c => .look .require fun _ _ => ?_
  refine .bind (mild_elementPut (m := m.recalling c) ho (hv.code x hx)) fun _ m₁ hfooting => ?_
  exact .pure hfooting.of_recalling

theorem mild_answer (hv : m.Presents n v) (hfooting : m.Footing m') :
    Mild (answer n x) m' fun completion _ => completion = .done :=
  .of_ok (bind_of_ok (lift_ok.2 (hv.popThenPush hfooting))) rfl

theorem mild_size (h : m.Furnished) (hv : m.Presents 0 v) (shaped : m.Shaped v) (stowed : m.Stowed v) :
    Mild (Primitive.size 0) m fun completion _ => completion = .done := by
  obtain ⟨size, hsize⟩ := shaped.size? stowed
  refine .after (lift_ok.2 hv.receiver) (.after (lift_ok.2 (Action.indexableSize_of_size? hsize)) ?_)
  refine .look .ofOption fun k _ => .bind (.look .require fun _ _ => ?_) fun x m₁ => mild_answer hv
  exact mild_positive32 h.stocked hv.live

open Primitive in
/-- Elements are written over as many elements. -/
theorem mild_replace (hv : m.Presents 4 v) (shaped : m.Shaped v)
    (hsource : ∀ source, Action.stackValue 1 m = .ok source m → m.Shaped source) :
    Mild (replaceElements 4) m fun completion _ => completion = .done := by
  obtain ⟨start, hstart⟩ := hv.argument (i := 3) (by decide)
  obtain ⟨stop, hstop⟩ := hv.argument (i := 2) (by decide)
  obtain ⟨other, hother⟩ := hv.argument (i := 1) (by decide)
  obtain ⟨first, hfirst⟩ := hv.argument (i := 0) (by decide)
  refine .look (looks_stackObject hv.receiver) fun dest hdest => ?_
  obtain ⟨rfl, href⟩ := stackObject_ok hv.receiver hdest
  refine .look (looks_stackInteger hstart) fun _ _ => .look (looks_stackInteger hstop) fun _ _ => ?_
  refine .look (looks_stackObject hother) fun source hread => .look (looks_stackInteger hfirst) fun _ _ => ?_
  obtain ⟨rfl, href'⟩ := stackObject_ok hother hread
  refine .look looks_natural fun count _ => .look looks_natural fun destPos _ => ?_
  refine .look looks_natural fun sourcePos _ => ?_
  obtain ⟨destObject, word, hd, hword⟩ := shaped.live href
  obtain ⟨sourceObject, word', hs, hword'⟩ := (hsource _ hother).live href'
  refine .after (lift_ok.2 (Action.object_ok.2 ⟨hd, rfl⟩)) ?_
  refine .after (lift_ok.2 (Action.object_ok.2 ⟨hs, rfl⟩)) ?_
  have put (f : Object → Object) (hf : (f destObject).pointers.size = destObject.pointers.size) :
      Mild (do
        Action.modifyMemory fun memory => memory.modify dest f
        answer 4 dest) m fun completion _ => completion = .done :=
    .after (a := ()) (lift_ok.2 (Action.modifyMemory_ok.2 rfl)) (mild_answer hv (.modified hd hf))
  split
  · obtain ⟨_, hnamed'⟩ := Machine.named?_of_word hword'
    obtain ⟨_, hnamed⟩ := Machine.named?_of_word hword
    refine .after (lift_ok.2 (Action.fixedFields_of hs hnamed')) ?_
    refine .after (lift_ok.2 (Action.fixedFields_of hd hnamed)) ?_
    refine .look .ofOption fun part _ => .look .ofOption fun pointers hover => ?_
    exact put _ (size_of_overwrite? (ofOption_ok hover))
  · split
    · exact .look .ofOption fun _ _ => .look .ofOption fun _ _ => put _ rfl
    · split
      · exact .look .ofOption fun _ _ => .look .ofOption fun _ _ => put _ rfl
      · exact .bind (R := fun _ _ => False) .decline fun _ _ => False.elim

end Attempt

/-! ### Primitives and bytecodes -/

/-- The primitives for indexed access, with the number of their arguments: those that read an element,
those that write one, the number of elements, and the one that copies a range of elements. -/
inductive Primitive.Accesses : Nat → Nat → Prop
  | read {number : Nat} (h : number ∈ [60, 63, 68, 73]) : Accesses number 1
  | write {number : Nat} (h : number ∈ [61, 64, 69, 74]) : Accesses number 2
  | size : Accesses 62 0
  | replace : Accesses 105 4

/-- The bytecodes for indexed access, with their position among the special selectors that are not
arithmetic and the number of their arguments. -/
def Instruction.accesses : List (UInt8 × Nat × Nat) := [(192, 0, 1), (193, 1, 2), (194, 2, 0)]

/-- The primitive is answered, or declined, or finds no room for an object. -/
def Machine.Bears (m : Machine) (number n : Nat) : Prop :=
  (∃ m', Action.tryPrimitive number n m = .ok .handled m') ∨
    (∃ m', Action.tryPrimitive number n m = .ok .unhandled m') ∨
    ∃ e m', Action.tryPrimitive number n m = .error e m' ∧ e.Exhausted m'

/-- The bytecode is answered on the spot, or sends its selector, or finds no room for an object. -/
def Machine.BearsStep (m : Machine) (i : Nat) : Prop :=
  (∃ m', Action.step m = .ok () m') ∨ Action.step m = Action.sendSpecial (i + 16) m.fetched ∨
    ∃ e m', Action.step m = .error e m' ∧ e.Exhausted m'

namespace Attempt

theorem Mild.tryPrimitive {p : Primitive} (hp : p ∈ Primitive.all)
    (hquick : ¬(256 ≤ p.number ∧ p.number < 520))
    (h : Mild (p.action n) m fun completion _ => completion = .done) : m.Bears p.number n := by
  obtain ⟨hdone, hdeclined, hfault⟩ := Action.tryPrimitive_of_mem (n := n) (m := m) hp hquick
  rcases h with ⟨_, m', hrun, rfl⟩ | ⟨m', hrun⟩ | ⟨e, m', hrun, he⟩
  · exact .inl ⟨m', hdone m' hrun⟩
  · exact .inr (.inl ⟨_, hdeclined m' hrun⟩)
  · exact .inr (.inr ⟨e, m', hfault _ m' hrun, he⟩)

end Attempt

namespace Primitive

theorem exists_read (h : number ∈ [60, 63, 68, 73]) :
    ∃ p ∈ all, p.number = number ∧ ∃ mode, p.action = readElement mode := by
  simp only [List.mem_cons, List.not_mem_nil, or_false] at h
  rcases h with rfl | rfl | rfl | rfl
  · exact ⟨⟨60, "basicAt:", basicAt⟩, by simp [all], rfl, _, rfl⟩
  · exact ⟨⟨63, "String at:", stringAt⟩, by simp [all], rfl, _, rfl⟩
  · exact ⟨⟨68, "objectAt:", objectAt⟩, by simp [all], rfl, _, rfl⟩
  · exact ⟨⟨73, "instVarAt:", objectAt⟩, by simp [all], rfl, _, rfl⟩

theorem exists_write (h : number ∈ [61, 64, 69, 74]) :
    ∃ p ∈ all, p.number = number ∧ ∃ mode, p.action = writeElement mode := by
  simp only [List.mem_cons, List.not_mem_nil, or_false] at h
  rcases h with rfl | rfl | rfl | rfl
  · exact ⟨⟨61, "basicAt:put:", basicAtPut⟩, by simp [all], rfl, _, rfl⟩
  · exact ⟨⟨64, "String at:put:", stringAtPut⟩, by simp [all], rfl, _, rfl⟩
  · exact ⟨⟨69, "objectAt:put:", objectAtPut⟩, by simp [all], rfl, _, rfl⟩
  · exact ⟨⟨74, "instVarAt:put:", objectAtPut⟩, by simp [all], rfl, _, rfl⟩

/-- Each of the primitives ends mildly. -/
theorem Accesses.mild (hp : Accesses number n) (h : m.Furnished) (hv : m.Presents n v)
    (shaped : m.Shaped v) (stowed : number ≠ 105 → m.Stowed v)
    (hsource : number = 105 → ∀ source, Action.stackValue 1 m = .ok source m → m.Shaped source) :
    ∃ p ∈ all, p.number = number ∧
      Attempt.Mild (p.action n) m fun completion _ => completion = .done := by
  cases hp with
  | read hnumber =>
    obtain ⟨p, hp, hpnumber, mode, haction⟩ := exists_read hnumber
    refine ⟨p, hp, hpnumber, ?_⟩
    rw [haction]
    have hstowed := stowed (by rintro rfl; simp at hnumber)
    exact .bind (Attempt.mild_indexedAt h hv shaped (.inr hstowed)) fun _ _ => Attempt.mild_answer hv
  | write hnumber =>
    obtain ⟨p, hp, hpnumber, mode, haction⟩ := exists_write hnumber
    refine ⟨p, hp, hpnumber, ?_⟩
    rw [haction]
    have hstowed := stowed (by rintro rfl; simp at hnumber)
    exact .bind (Attempt.mild_indexedAtPut h hv shaped (.inr hstowed)) fun _ _ => Attempt.mild_answer hv
  | size =>
    exact ⟨⟨62, "size", Primitive.size⟩, by simp [all], rfl,
      Attempt.mild_size h hv shaped (stowed (by decide))⟩
  | replace =>
    exact ⟨⟨105, "replaceFrom:to:with:startingAt:", replaceElements⟩, by simp [all], rfl,
      Attempt.mild_replace hv shaped (hsource rfl)⟩

end Primitive

theorem Primitive.Accesses.lt (hp : Primitive.Accesses number n) : number < 256 := by
  cases hp with
  | read h => exact (by decide : ∀ k ∈ [60, 63, 68, 73], k < 256) _ h
  | write h => exact (by decide : ∀ k ∈ [61, 64, 69, 74], k < 256) _ h
  | size => decide
  | replace => decide

namespace Action

/-- An attempt that is made for a bytecode ends as mildly. -/
theorem quickly_mild {y : Attempt Value} (hv : m.Presents n v)
    (h : Attempt.Mild y m fun _ m' => m.Footing m') :
    (∃ taken m', quickly (n + 1) y m = .ok taken m') ∨
      ∃ e m', quickly (n + 1) y m = .error e m' ∧ e.Exhausted m' := by
  unfold quickly
  rcases h with ⟨x, m', hrun, hfooting⟩ | ⟨m', hrun⟩ | ⟨e, m', hrun, he⟩
  · have hfound : y.run? m = .ok (some x) m' := by rw [Attempt.run?, hrun]
    exact .inl ⟨true, _, (bind_of_ok hfound).trans (bind_of_ok (hv.popThenPush hfooting))⟩
  · have hnone : y.run? m = .ok none m' := by rw [Attempt.run?, hrun]
    exact .inl ⟨false, m', bind_of_ok hnone⟩
  · have hfault : y.run? m = .error e m' := by rw [Attempt.run?, hrun]
    exact .inr ⟨e, m', bind_of_error hfault, he⟩

theorem quickSize_mild (h : m.Furnished) (hv : m.Presents 0 v) (shaped : m.Shaped v) (stowed : m.Stowed v) :
    (∃ taken m', quickSize m = .ok taken m') ∨
      ∃ e m', quickSize m = .error e m' ∧ e.Exhausted m' := by
  obtain ⟨size, hsize⟩ := shaped.size? stowed
  by_cases hlarge : ∀ n, size = some n → 0x100000000 ≤ n
  · exact .inl ⟨false, m, quickSize_refused hv.receiver hsize hlarge⟩
  · simp only [not_forall, Nat.not_le] at hlarge
    obtain ⟨n, rfl, hn⟩ := hlarge
    rw [quickSize_some hv.receiver hsize hn]
    rcases (Attempt.mild_positive32 (n := n) h.stocked hv.live).of_lift with
      ⟨x, m', hx, hfooting⟩ | ⟨e, m', hrun, he⟩
    · exact .inl ⟨true, _, bind_of_ok ((bind_of_ok hx).trans (hv.popThenPush hfooting))⟩
    · exact .inr ⟨e, m', bind_of_error (bind_of_error hrun), he⟩

end Action

/-- The machine comes to the bytecode with the stack as it was. -/
theorem Machine.Presents.fetched (h : m.Presents n v) : m.fetched.Presents n v :=
  let ⟨arguments, hstack⟩ := h.stack
  ⟨⟨arguments, Action.stackValues_fetched hstack⟩, h.deep, fun x hx =>
    h.code x (Action.top_ok.2 ⟨(Action.top_ok.1 hx).1, rfl⟩)⟩

/-- Each of the bytecodes ends mildly. -/
theorem Instruction.bearsStep {byte : UInt8} (hmem : (byte, i, n) ∈ Instruction.accesses)
    (hbyte : m.nextByte? = some byte) (h : m.Furnished) (hv : m.Presents n v) (shaped : m.Shaped v)
    (stowed : i = 2 → m.Stowed v) : m.BearsStep i := by
  have furnished : m.fetched.Furnished := ⟨h.stocked, h.selectors, h.characters⟩
  have shaped' : m.fetched.Shaped v := shaped
  have hquick : (∃ taken m', Action.quickSpecial i m.fetched = .ok taken m') ∨
      ∃ e m', Action.quickSpecial i m.fetched = .error e m' ∧ e.Exhausted m' := by
    simp only [accesses, List.mem_cons, Prod.mk.injEq, List.not_mem_nil, or_false] at hmem
    rcases hmem with ⟨rfl, rfl, rfl⟩ | ⟨rfl, rfl, rfl⟩ | ⟨rfl, rfl, rfl⟩
    · exact Action.quickly_mild hv.fetched (Attempt.mild_indexedAt furnished hv.fetched shaped' (.inl rfl))
    · exact Action.quickly_mild hv.fetched
        (Attempt.mild_indexedAtPut furnished hv.fetched shaped' (.inl rfl))
    · exact Action.quickSize_mild furnished hv.fetched shaped' (stowed rfl)
  have hstep : Action.step m = Action.execute (.special i) m.fetched := by
    simp only [accesses, List.mem_cons, Prod.mk.injEq, List.not_mem_nil, or_false] at hmem
    rcases hmem with ⟨rfl, rfl, rfl⟩ | ⟨rfl, rfl, rfl⟩ | ⟨rfl, rfl, rfl⟩ <;>
      exact (congrFun Action.step_eq m).trans (bind_of_ok (Action.fetchInstruction_eq hbyte rfl rfl))
  rw [Machine.BearsStep, hstep]
  rcases hquick with ⟨taken, m', hrun⟩ | ⟨e, m', hrun, he⟩
  · cases taken with
    | true => exact .inl ⟨m', bind_of_ok hrun⟩
    | false =>
      obtain rfl := Action.quickSpecial_declined hrun
      exact .inr (.inl (bind_of_ok hrun))
  · exact .inr (.inr ⟨e, m', bind_of_error hrun, he⟩)

/-! ### Contexts without a stack pointer -/

/-- The fault of a context that is asked for its stack pointer and has something else there, or no such
field at all. -/
def Machine.stackFault (m : Machine) (v : Value) : Fault :=
  match m.memory.cell v Context.stackPointer with
  | some w => .malformed .integerField w
  | none => .malformed .pointerIndex v

section

variable {mode : AccessMode} {access : Access} {index : Value} {k : Nat}

theorem Machine.isContext_of_not_stowed (h : ¬ m.Stowed v) :
    m.isContext v = true ∧ ∀ k, m.memory.cell v Context.stackPointer ≠ some (.small k) := by
  obtain ⟨hcontext, hstored⟩ := Classical.not_imp.1 h
  exact ⟨hcontext, not_exists.1 hstored⟩

theorem Machine.exists_of_isContext (h : m.isContext v = true) : ∃ o, m.memory.get? v = some o := by
  rcases Bool.or_eq_true_iff.1 h with h | h
  · obtain ⟨o, ho, -⟩ := (Option.any_eq_true _ _).1 h
    exact ⟨o, ho⟩
  · obtain ⟨o, ho, -⟩ := (Option.any_eq_true _ _).1 h
    exact ⟨o, ho⟩

namespace Action

theorem fetchInt_not_stowed (h : ¬ m.Stowed v) :
    fetchInt v Context.stackPointer m = .error (m.stackFault v) m := by
  obtain ⟨hcontext, hstored⟩ := Machine.isContext_of_not_stowed h
  obtain ⟨o, ho⟩ := Machine.exists_of_isContext hcontext
  unfold fetchInt Machine.stackFault
  cases hcell : m.memory.cell v Context.stackPointer with
  | none =>
    have hfield : o.pointers[Context.stackPointer]? = none := by
      rw [Memory.cell, ho] at hcell
      exact hcell
    have hfetch : fetch v Context.stackPointer m = .error (.malformed .pointerIndex v) m := by
      change ofExcept (m.memory.field .pointerIndex v Context.stackPointer) m = _
      simp only [Memory.field, ho, hfield]
      rfl
    exact bind_of_error hfetch
  | some w =>
    rw [bind_of_ok (fetch_ok.2 ⟨hcell, rfl⟩)]
    cases w with
    | small k => exact absurd hcell (hstored k)
    | ref index generation => rfl

/-- The number of elements is not known. -/
theorem indexableSize_not_stowed (h : ¬ m.Stowed v) :
    indexableSize v m = .error (m.stackFault v) m := by
  have hcontext := (Machine.isContext_of_not_stowed h).1
  obtain ⟨o, ho⟩ := Machine.exists_of_isContext hcontext
  unfold indexableSize
  rw [Memory.isSmall_of_isLive (Memory.isLive_of_get? ho), if_neg Bool.false_ne_true,
    bind_of_ok isContext_eq, if_pos hcontext]
  exact bind_of_error (fetchInt_not_stowed h)

theorem atEntry_not_stowed (h : ¬ m.Stowed v) (shaped : m.Shaped v) :
    atEntry access v mode m = .error (m.stackFault v) m := by
  obtain ⟨o, ho⟩ := Machine.exists_of_isContext (Machine.isContext_of_not_stowed h).1
  obtain ⟨o', word, ho', hword⟩ :=
    shaped.live (Memory.isReference_of_isLive (Memory.isLive_of_get? ho))
  obtain ⟨n, hn⟩ := Machine.named?_of_word hword
  unfold atEntry
  rw [bind_of_ok (fixedFields_of ho' hn)]
  exact bind_of_error (indexableSize_not_stowed h)

/-- The bytecode asks for the number of elements at once. -/
theorem step_not_stowed (h : ¬ m.Stowed v) (hbyte : m.nextByte? = some 194) (hv : m.Presents 0 v) :
    step m = .error (m.stackFault v) m.fetched := by
  have hsize : indexableSize v m.fetched = .error (m.stackFault v) m.fetched :=
    indexableSize_not_stowed (m := m.fetched) h
  have hquick : quickSpecial 2 m.fetched = .error (m.stackFault v) m.fetched :=
    (bind_of_ok hv.fetched.receiver).trans (bind_of_error hsize)
  have hstep : step m = execute (.special 2) m.fetched :=
    (congrFun step_eq m).trans (bind_of_ok (fetchInstruction_eq hbyte rfl rfl))
  exact hstep.trans (bind_of_error hquick)

end Action

namespace Attempt

/-- The index is looked at before the bounds are. -/
theorem indexedAt_not_stowed (h : ¬ m.Stowed v) (shaped : m.Shaped v)
    (float : m.isInstance v Special.classFloat = false) (hv : m.Presents 1 v)
    (hindex : Action.stackValue 0 m = .ok index m) (hk : m.Denotes index k) :
    indexedAt false mode m = .error (.fault (m.stackFault v)) m := by
  obtain ⟨o, ho⟩ := Machine.exists_of_isContext (Machine.isContext_of_not_stowed h).1
  have hnumber : stackPositive32 0 m = .ok k m :=
    (bind_of_ok (lift_ok.2 hindex)).trans (positive32Value_of hk)
  unfold indexedAt
  rw [bind_of_ok (stackObject_eq hv.receiver ho), bind_of_ok hnumber,
    bind_of_ok (lift_ok.2 Action.isInstanceOf_isInstance), float]
  exact bind_of_error (lift_fault (Action.atEntry_not_stowed h shaped))

theorem indexedAtPut_not_stowed (h : ¬ m.Stowed v) (shaped : m.Shaped v) (hv : m.Presents 2 v)
    (hindex : Action.stackValue 1 m = .ok index m) (hk : m.Denotes index k) :
    indexedAtPut false mode m = .error (.fault (m.stackFault v)) m := by
  obtain ⟨o, ho⟩ := Machine.exists_of_isContext (Machine.isContext_of_not_stowed h).1
  obtain ⟨x, hx⟩ := hv.argument (i := 0) (by decide)
  have hnumber : stackPositive32 1 m = .ok k m :=
    (bind_of_ok (lift_ok.2 hindex)).trans (positive32Value_of hk)
  unfold indexedAtPut
  rw [bind_of_ok (stackObject_eq hv.receiver ho), bind_of_ok hnumber]
  exact (bind_of_ok (lift_ok.2 hx)).trans
    (bind_of_error (lift_fault (Action.atEntry_not_stowed h shaped)))

end Attempt

/-- The primitives that need the number of elements end interpretation. -/
theorem Primitive.Accesses.fault (hp : Primitive.Accesses number n) (hnumber : number ≠ 105)
    (h : ¬ m.Stowed v) (shaped : m.Shaped v) (float : m.isInstance v Special.classFloat = false)
    (hv : m.Presents n v)
    (hindex : n ≠ 0 → ∃ index k, Action.stackValue (n - 1) m = .ok index m ∧ m.Denotes index k) :
    Action.tryPrimitive number n m = .error (m.stackFault v) m := by
  have fault {p : Primitive} (hmem : p ∈ Primitive.all) (hpnumber : p.number = number)
      (hrun : p.action n m = .error (.fault (m.stackFault v)) m) :
      Action.tryPrimitive number n m = .error (m.stackFault v) m := by
    subst hpnumber
    obtain ⟨-, -, hfault⟩ := Action.tryPrimitive_of_mem (n := n) (m := m) hmem (by have := hp.lt; omega)
    exact hfault _ m hrun
  cases hp with
  | read hnumber =>
    obtain ⟨p, hmem, hpnumber, mode, haction⟩ := Primitive.exists_read hnumber
    obtain ⟨index, k, hindex, hk⟩ := hindex (by decide)
    refine fault hmem hpnumber ?_
    rw [haction]
    exact bind_of_error (Attempt.indexedAt_not_stowed h shaped float hv hindex hk)
  | write hnumber =>
    obtain ⟨p, hmem, hpnumber, mode, haction⟩ := Primitive.exists_write hnumber
    obtain ⟨index, k, hindex, hk⟩ := hindex (by decide)
    refine fault hmem hpnumber ?_
    rw [haction]
    exact bind_of_error (Attempt.indexedAtPut_not_stowed h shaped hv hindex hk)
  | size =>
    refine fault (p := ⟨62, "size", Primitive.size⟩) (by simp [Primitive.all]) rfl ?_
    exact (bind_of_ok (Attempt.lift_ok.2 hv.receiver)).trans
      (bind_of_error (Attempt.lift_fault (Action.indexableSize_not_stowed h)))
  | replace => exact absurd rfl hnumber

end

/-- The fields of a new instance are nil. -/
theorem Action.newInstance_pointers {cls nil : Value} {spec : InstanceSpec} {count : Nat}
    (h : (newInstance cls nil spec count).pointers[i]? = some w) : w = nil := by
  unfold newInstance at h
  split_ifs at h
  · exact absurd h (by simp [Object.ofWords])
  · have h : (Array.replicate (spec.instSize + count) nil)[i]? = some w := h
    rw [Array.getElem?_replicate] at h
    split_ifs at h
    exact (Option.some.inj h).symm
  · exact absurd h (by simp [Object.ofBytes])

theorem Action.cell_of_instantiate {cls : Value} {count : Nat} (stocked : m.memory.Stocked)
    (h : instantiate cls count m = .ok v m') (room : m'.memory.slots.size < 0x100000000)
    (hw : m'.memory.cell v i = some w) : w = m.specials.nil := by
  obtain ⟨spec, m₁, hspec, h⟩ := bind_ok.1 h
  obtain ⟨-, rfl⟩ := instanceSpec_ok.1 hspec
  obtain ⟨nil, m₂, hnil, h⟩ := bind_ok.1 h
  obtain ⟨rfl, rfl⟩ := nil_ok.1 hnil
  obtain ⟨m₁, hash, t, rfl, rfl⟩ := allocate_ok h
  have room₁ : m₁.memory.slots.size < 0x100000000 :=
    Nat.lt_of_le_of_lt (Memory.later_place ..).size room
  obtain ⟨o, ho, hfield⟩ := Memory.cell_eq_some.1 hw
  obtain ⟨hfound, hlost⟩ := Memory.get?_place_self (t.stocked stocked) room₁
    { newInstance cls m.specials.nil spec count with hash }
  have hself : (placed m₁ { newInstance cls m.specials.nil spec count with hash }).memory.get? _ = _ :=
    hfound fun hover => by
      rw [placed, hlost hover] at ho
      cases ho
  obtain rfl := Option.some.inj (ho.symm.trans hself)
  exact newInstance_pointers hfield

/-- A context that was just made has not stored its stack pointer. -/
theorem Action.not_stowed_of_instantiate {cls : Value} {count : Nat} (stocked : m.memory.Stocked)
    (h : instantiate cls count m = .ok v m') (room : m'.memory.slots.size < 0x100000000)
    (nil : m.specials.nil.isSmall = false) (hcontext : m'.isContext v = true) : ¬ m'.Stowed v := by
  intro hstowed
  obtain ⟨k, hk⟩ := hstowed hcontext
  rw [← cell_of_instantiate stocked h room hk] at nil
  cases nil

/-! ### Every receiver -/

/-- Whatever a receiver holds whose class has a format word, an indexed access is answered, or declined
by the primitive and sent by the bytecode, or finds no room for an object. Only a context must have
stored its stack pointer: if it has not, then everything that needs the number of its elements ends
interpretation. That is so for each context that is made as an instance of its class. -/
theorem Machine.Furnished.bears (h : m.Furnished) :
    (∀ {number n v}, Primitive.Accesses number n → m.Presents n v → m.Shaped v →
      (number ≠ 105 → m.Stowed v) →
      (number = 105 → ∀ source, Action.stackValue 1 m = .ok source m → m.Shaped source) →
      m.Bears number n) ∧
    (∀ {byte i n v}, (byte, i, n) ∈ Instruction.accesses → m.nextByte? = some byte → m.Presents n v →
      m.Shaped v → (i = 2 → m.Stowed v) → m.BearsStep i) ∧
    (∀ {v}, ¬ m.Stowed v → m.Shaped v → m.isInstance v Special.classFloat = false →
      (∀ {number n}, Primitive.Accesses number n → number ≠ 105 → m.Presents n v →
        (n ≠ 0 → ∃ index k, Action.stackValue (n - 1) m = .ok index m ∧ m.Denotes index k) →
        Action.tryPrimitive number n m = .error (m.stackFault v) m) ∧
      (m.nextByte? = some 194 → m.Presents 0 v →
        Action.step m = .error (m.stackFault v) m.fetched)) ∧
    ∀ {cls count v m'}, Action.instantiate cls count m = .ok v m' →
      m'.memory.slots.size < 0x100000000 → m.specials.nil.isSmall = false → m'.isContext v = true →
      ¬ m'.Stowed v := by
  refine ⟨fun hp hv shaped stowed hsource => ?_, fun hmem hbyte hv shaped stowed => ?_,
    fun hstowed shaped float => ⟨fun hp hnumber hv hindex => ?_, fun hbyte hv => ?_⟩,
    fun hrun room nil hcontext => ?_⟩
  · obtain ⟨p, hmem, rfl, hmild⟩ := hp.mild h hv shaped stowed hsource
    exact hmild.tryPrimitive hmem (by have := hp.lt; omega)
  · exact Instruction.bearsStep hmem hbyte h hv shaped stowed
  · exact hp.fault hnumber hstowed shaped float hv hindex
  · exact Action.step_not_stowed hstowed hbyte hv
  · exact Action.not_stowed_of_instantiate h.stocked hrun room nil hcontext

/-- The active context has a context below an index on its stack, which was made as an instance of its
class and has not run. -/
def nursery : Machine :=
  let nil : Value := .ref 0 0
  let header : Value := .small (MethodHeader.encode 0 0 0 false 0).word
  let pointers cls format fields := Object.ofPointers cls format (List.toArray fields)
  let objects := [pointers nil .empty [],
    pointers nil .indexable (List.replicate 10 nil ++ [.ref 2 0] ++ List.replicate 12 nil ++
      [.ref 3 0, .ref 4 0]),
    pointers nil .fixed [nil, nil, .small (InstanceSpec.encode 6 3)],
    pointers nil .indexable (List.replicate 36 nil), pointers nil .indexable (List.replicate 256 nil),
    .ofMethod nil #[header] #[192],
    pointers (.ref 2 0) .fixedIndexable
      ([nil, .small 0, .small 0, .ref 5 0, nil, nil, .ref 7 0, .small 1] ++
      List.replicate 8 nil),
    pointers (.ref 2 0) .fixedIndexable (List.replicate 12 nil)]
  let m := Machine.create (Machine.filled (.empty .standard) objects)
    { array := .ref 1 0, nil, falseObject := nil, trueObject := nil } {} default
  { m with
    registers := { m.registers with
      context := .ref 6 0
      home := .ref 6 0
      method := .ref 5 0
      sp := 7 } }

/-- The number of elements of the integer is declined and the bytecode sends its selector, but the
primitive that reads an element of the context ends interpretation. -/
theorem bears_nursery : nursery.Bears 62 0 ∧ nursery.BearsStep 0 ∧
    Action.tryPrimitive 60 1 nursery = .error (.malformed .integerField (.ref 0 0)) nursery ∧
    ∃ v m', Action.instantiate (.ref 2 0) 0 nursery = .ok v m' ∧ m'.isContext v = true ∧
      ¬ m'.Stowed v := by
  have stocked : nursery.memory.Stocked :=
    (Machine.wellFormed_filled (Memory.wellFormed_empty _) (by decide +kernel)).toStocked
  have selectors (access : Access) : (nursery.memory.cell
      (nursery.specials.get nursery.memory Special.specialSelectors)
      (Action.selectorIndex access)).isSome := by
    cases access <;> decide +kernel
  have characters : ∀ code < 256, (nursery.memory.cell
      (nursery.specials.get nursery.memory Special.characterTable) code).isSome := by decide +kernel
  have furnished : nursery.Furnished := ⟨stocked,
    fun access => Option.isSome_iff_exists.1 (selectors access),
    fun code hcode => Option.isSome_iff_exists.1 (characters code hcode)⟩
  have hcontext : nursery.memory.cell (.ref 6 0) 6 = some (.ref 7 0) := by decide +kernel
  have hindex : nursery.memory.cell (.ref 6 0) 7 = some (.small 1) := by decide +kernel
  have hone : Action.stackValue 0 nursery = .ok (.small 1) nursery :=
    Action.stackValue_ok.2 ⟨by decide, hindex, rfl⟩
  have hbelow : Action.stackValue 1 nursery = .ok (.ref 7 0) nursery :=
    Action.stackValue_ok.2 ⟨by decide, hcontext, rfl⟩
  have code (x : Value) (hx : Action.top nursery = .ok x nursery)
      (hcharacter : nursery.isInstance x Special.classCharacter = true) :
      ∃ w, nursery.memory.cell x 0 = some w := by
    obtain ⟨rfl, -⟩ := EStateM.Result.ok.inj (hone.symm.trans hx)
    exact absurd hcharacter (by decide +kernel)
  have one : nursery.Presents 0 (.small 1) := ⟨⟨[], bind_of_ok hone⟩, by decide, code⟩
  have both : nursery.Presents 1 (.ref 7 0) :=
    ⟨⟨[.small 1], (bind_of_ok hbelow).trans (bind_of_ok (bind_of_ok hone))⟩, by decide, code⟩
  have shaped : nursery.Shaped (.ref 7 0) := by
    obtain ⟨o, ho, hcls⟩ := Option.map_eq_some_iff.1
      (show (nursery.memory.get? (.ref 7 0)).map Object.cls = some (.ref 2 0) by decide +kernel)
    have hword : nursery.memory.cell (.ref 2 0) Class.format = some (.small (InstanceSpec.encode 6 3)) := by
      decide +kernel
    exact .inr ⟨o, _, ho, hcls ▸ hword⟩
  have hnil : nursery.memory.cell (.ref 7 0) Context.stackPointer = some (.ref 0 0) := by decide +kernel
  have hfault : nursery.stackFault (.ref 7 0) = .malformed .integerField (.ref 0 0) := by
    rw [Machine.stackFault, hnil]
  have hstowed : ¬ nursery.Stowed (.ref 7 0) := fun h => by
    obtain ⟨k, hk⟩ := h (by decide +kernel)
    cases hnil.symm.trans hk
  have hmade : Action.leads (Action.instantiate (.ref 2 0) 0) nursery (fun v m' =>
      decide (m'.memory.slots.size < 0x100000000) && m'.isContext v) = true := by decide +kernel
  obtain ⟨v, m', hrun, hmade⟩ := Action.exists_of_leads hmade
  obtain ⟨room, hv⟩ := Bool.and_eq_true_iff.1 hmade
  obtain ⟨hbears, hsteps, hfaults, hfresh⟩ := furnished.bears
  refine ⟨hbears .size one (.inl rfl) (fun _ h => ?_) (by simp), ?_, ?_, v, m', hrun, hv, ?_⟩
  · exact absurd h (by decide +kernel)
  · have hmem : (192, 0, 1) ∈ Instruction.accesses := by decide
    exact hsteps hmem (by decide +kernel) both shaped fun h => absurd h (by decide)
  · rw [← hfault]
    refine (hfaults hstowed shaped (by decide +kernel)).1 (.read (by decide)) (by decide) both fun _ => ?_
    exact ⟨.small 1, 1, hone, .immediate (k := 1) (by decide)⟩
  · exact hfresh hrun (of_decide_eq_true room) rfl hv

end Smalltalk
