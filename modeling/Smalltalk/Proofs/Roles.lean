import Mathlib
import Smalltalk.Proofs.Chains
import Smalltalk.Proofs.Refusal

/-!
# What objects are used as

The machine takes the objects it meets for what it expects: what stands first in a list of processes
for a process, what a process was suspended in for a context. Nothing keeps a guest from arranging
this otherwise. Roles say what each object is used as, and a machine is typed when the fields that
the scheduler and returns follow lead from role to role. The contexts that a machine makes are the
only objects with fields that are new, so what has not been issued yet counts as a context.
-/

namespace Smalltalk.Recycling

open Outcome Machine

/-- What an object is used as. -/
inductive Role where
  /-- The special objects. -/
  | array
  /-- The association among the special objects that leads to the scheduler. -/
  | association
  | scheduler
  /-- The object that has the priority lists as its fields. -/
  | table
  /-- A priority list or a semaphore. -/
  | list
  | process
  | context
  /-- Anything else. -/
  | other
  deriving DecidableEq

/-- The role of what stands in a field, where the machine relies on one. -/
def Role.field : Role → Nat → Option Role
  | .array, i =>
    if i = Special.schedulerAssociation then some .association
    else if i ∈ interruptSemaphores then some .list
    else none
  | .association, i => if i = Association.value then some .scheduler else none
  | .scheduler, i =>
    if i = Scheduler.processLists then some .table
    else if i = Scheduler.activeProcess then some .process
    else none
  | .table, _ => some .list
  | .list, i => if i = ProcessList.first ∨ i = ProcessList.last then some .process else none
  | .process, i =>
    if i = Process.next then some .process
    else if i = Process.suspendedContext then some .context
    else none
  | .context, i => if i = Context.sender then some .context else none
  | .other, _ => none

/-- The roles of all values, with the objects a machine knows by name. -/
structure Roles where
  nil : Value
  array : Value
  methodClass : Value
  blockClass : Value
  role : Value → Role
  nil_reference : nil.isReference = true
  nil_role : role nil = .other
  array_role : role array = .array
  small_role : ∀ n, role (.small n) = .other
  classes : methodClass ≠ blockClass

namespace Roles

variable {T : Roles} {r : Role} {v w x : Value} {i : Nat}

/-- Whether a value may stand where an object of that role is expected. -/
def Allows (T : Roles) (r : Role) (x : Value) : Prop := x = T.nil ∨ T.role x = r

/-- Whether a field may hold a value. -/
def Fits (T : Roles) (w : Value) (i : Nat) (x : Value) : Prop :=
  ∀ r, (T.role w).field i = some r → T.Allows r x

theorem Allows.ne_context (h : T.Allows r x) (hr : r ≠ .context) : T.role x ≠ .context := by
  rcases h with rfl | h
  · rw [T.nil_role]
    decide
  · rw [h]
    exact hr

theorem ne_nil (h : T.role v = .context) : v ≠ T.nil := by
  rintro rfl
  rw [T.nil_role] at h
  exact absurd h (by decide)

theorem ne_array (h : T.role v = .context) : v ≠ T.array := by
  rintro rfl
  rw [T.array_role] at h
  exact absurd h (by decide)

theorem fits_context (h : T.role w = .context) (hx : i = Context.sender → T.Allows .context x) :
    T.Fits w i x := by
  intro r hr
  rw [h, Role.field, Option.ite_none_right_eq_some] at hr
  obtain ⟨hi, hr⟩ := hr
  obtain rfl := Option.some.inj hr
  exact hx hi

/-- A field that no role is expected in may hold anything. -/
theorem allows_any (hr : r.field i = none) : ∀ r', r.field i = some r' → T.Allows r' x := by
  intro r' hr'
  rw [hr] at hr'
  exact absurd hr' (by simp)

theorem allows_as {r' : Role} (hr : r.field i = some r') (hx : T.Allows r' x) :
    ∀ r'', r.field i = some r'' → T.Allows r'' x := by
  intro r'' hr''
  rw [hr] at hr''
  obtain rfl := Option.some.inj hr''
  exact hx

theorem allows_nil : ∀ r', r.field i = some r' → T.Allows r' T.nil := fun _ _ => .inl rfl

end Roles

/-- The objects are used as their roles say. -/
structure Typed (T : Roles) (m : Machine) : Prop where
  nil : m.specials.nil = T.nil
  array : m.specials.array = T.array
  truth : ∀ b, T.role (m.specials.truth b) ≠ .context
  methodClass : m.specials.get m.memory Special.classMethodContext = T.methodClass
  blockClass : m.specials.get m.memory Special.classBlockContext = T.blockClass
  stocked : m.memory.Stocked
  bare : ∀ i, m.memory.cell T.nil i = none
  fits : ∀ w i x, m.memory.cell w i = some x → T.Fits w i x
  issued : ∀ w i x, m.memory.cell w i = some x → m.memory.Issued x
  known : ∀ v, T.role v ≠ .context → m.memory.Issued v
  block : ∀ w ps, m.memory.shape w = some (T.blockClass, ps) → ps ≠ #[] → T.role w = .context

/-- What may have become of a machine when the object `v` alone was changed or added. -/
structure Alters (m m' : Machine) (v : Value) : Prop where
  specials : m'.specials = m.specials
  later : m.memory.Later m'.memory
  stocked : m.memory.Stocked → m'.memory.Stocked
  other : ∀ w, w ≠ v → m'.memory.shape w = m.memory.shape w

variable {T : Roles} {m m' m'' : Machine} {r : Role} {v w x y c : Value} {i : Nat}

theorem special_eq (m : Machine) (i : Nat) : m.specials.get m.memory i =
    (m.memory.cell m.specials.array i).getD m.specials.nil := rfl

/-! ### Changes of one object -/

namespace Alters

theorem cell (a : Alters m m' v) (hw : w ≠ v) : m'.memory.cell w i = m.memory.cell w i :=
  Memory.cell_congr (a.other w hw)

theorem trans (a : Alters m m' v) (a' : Alters m' m'' v) : Alters m m'' v where
  specials := a'.specials.trans a.specials
  later := a.later.trans a'.later
  stocked := a'.stocked ∘ a.stocked
  other w hw := (a'.other w hw).trans (a.other w hw)

theorem modified (m : Machine) (v : Value) (f : Object → Object) :
    Alters m (m.modified v f) v where
  specials := rfl
  later := Memory.later_modify ..
  stocked h := h.modify v f
  other w hw := Memory.shape_congr (by rw [Machine.modified, Memory.get?_modify, if_neg hw])

theorem setCell (m : Machine) (v : Value) (i : Nat) (x : Value) :
    Alters m (m.setCell v i x) v := .modified m v _

theorem placed (h : m.memory.Stocked) (o : Object) :
    Alters m (Action.placed m o) (m.memory.place o).1 where
  specials := rfl
  later := Memory.later_place ..
  stocked h := h.place
  other w hw := by
    rcases h.get?_place o w with e | ⟨e, -⟩
    · exact Memory.shape_congr e
    · exact absurd e hw

end Alters

theorem cell_setCell (m : Machine) (v w : Value) (i j : Nat) (x : Value) :
    (m.setCell v i x).memory.cell w j =
      if w = v ∧ j = i then (m.memory.cell v i).map fun _ => x else m.memory.cell w j :=
  Memory.cell_setField ..

/-- A store changes no class and no number of fields. -/
theorem shape_setCell {ps : Array Value}
    (h : (m.setCell v i x).memory.shape w = some (c, ps)) :
    ∃ qs : Array Value, m.memory.shape w = some (c, qs) ∧ (ps = #[] ↔ qs = #[]) := by
  rw [Machine.setCell, Memory.shape_setField] at h
  split at h
  · rename_i hw
    obtain ⟨⟨d, qs⟩, hs, he⟩ := Option.map_eq_some_iff.1 h
    simp only [Prod.mk.injEq] at he
    obtain ⟨rfl, rfl⟩ := he
    refine ⟨qs, by rw [hw, hs], ?_⟩
    rw [← Array.size_eq_zero_iff, ← Array.size_eq_zero_iff, Array.size_setIfInBounds]
  · exact ⟨ps, h, Iff.rfl⟩

namespace Typed

theorem issued_nil (h : Typed T m) : m.memory.Issued T.nil := by
  refine h.known _ ?_
  rw [T.nil_role]
  decide

theorem ne_nil_of_cell (h : Typed T m) (hx : m.memory.cell w i = some x) : w ≠ T.nil := by
  rintro rfl
  rw [h.bare] at hx
  exact absurd hx (by simp)

/-- What has fields where a role is expected has the role. -/
theorem role_of_cell (h : Typed T m) (hw : T.Allows r w) (hx : m.memory.cell w i = some x) :
    T.role w = r := hw.resolve_left (h.ne_nil_of_cell hx)

/-- The fields that the machine follows lead from role to role. -/
theorem allows_of_cell {r' : Role} (h : Typed T m) (hw : T.Allows r w)
    (hr : r.field i = some r') (hx : m.memory.cell w i = some x) : T.Allows r' x := by
  refine h.fits w i x hx r' ?_
  rw [h.role_of_cell hw hx]
  exact hr

theorem allows_special (h : Typed T m) (hr : Role.array.field i = some r) :
    T.Allows r (m.specials.get m.memory i) := by
  rw [special_eq, h.array, h.nil]
  cases hx : m.memory.cell T.array i with
  | none => exact .inl rfl
  | some x => exact h.allows_of_cell (.inr T.array_role) hr hx

/-- The array of special objects is an object, since it tells two classes apart. -/
theorem live_array (h : Typed T m) : m.memory.isLive T.array = true := by
  by_contra hdead
  have hget : ∀ i, m.specials.get m.memory i = T.nil := by
    intro i
    have hcell : m.memory.cell T.array i = none := by
      rw [Memory.cell, Memory.get?_eq_none.2 (Bool.eq_false_iff.2 hdead)]
      rfl
    rw [special_eq, h.array, hcell, h.nil]
    rfl
  exact T.classes (by rw [← h.methodClass, ← h.blockClass, hget, hget])

/-! ### What keeps the roles -/

/-- A change keeps the roles if the changed object keeps its own. -/
theorem alter (h : Typed T m) (a : Alters m m' v) (harray : v ≠ T.array) (hnil : v ≠ T.nil)
    (cells : ∀ i x, m'.memory.cell v i = some x → T.Fits v i x ∧ m'.memory.Issued x)
    (block : ∀ ps, m'.memory.shape v = some (T.blockClass, ps) → ps ≠ #[] →
      T.role v = .context) : Typed T m' := by
  have hspecial : ∀ i, m'.specials.get m'.memory i = m.specials.get m.memory i := by
    intro i
    rw [special_eq, special_eq, a.specials, h.array, a.cell (Ne.symm harray)]
  refine ⟨by rw [a.specials, h.nil], by rw [a.specials, h.array], by rw [a.specials]; exact h.truth,
    by rw [hspecial, h.methodClass], by rw [hspecial, h.blockClass], a.stocked h.stocked,
    fun i => ?_, fun w i x hx => ?_, fun w i x hx => ?_,
    fun w hw => a.later.issued (h.known w hw), fun w ps hs hps => ?_⟩
  · rw [a.cell (Ne.symm hnil)]
    exact h.bare i
  · by_cases hw : w = v
    · subst hw
      exact (cells i x hx).1
    · rw [a.cell hw] at hx
      exact h.fits w i x hx
  · by_cases hw : w = v
    · subst hw
      exact (cells i x hx).2
    · rw [a.cell hw] at hx
      exact a.later.issued (h.issued w i x hx)
  · by_cases hw : w = v
    · subst hw
      exact block ps hs hps
    · rw [a.other w hw] at hs
      exact h.block w ps hs hps

/-- A context may be changed as long as its sender is a context or nil. -/
theorem alter_context (h : Typed T m) (a : Alters m m' v) (hv : T.role v = .context)
    (cells : ∀ i x, m'.memory.cell v i = some x →
      m.memory.Issued x ∧ (i = Context.sender → T.Allows .context x)) : Typed T m' :=
  h.alter a (Roles.ne_array hv) (Roles.ne_nil hv) (fun i x hx =>
    ⟨Roles.fits_context hv (cells i x hx).2, a.later.issued (cells i x hx).1⟩) fun _ _ _ => hv

theorem setCell (h : Typed T m) (hnil : v ≠ T.nil)
    (harray : T.role v ≠ .array) (hfits : T.Fits v i x) (hx : m.memory.Issued x) :
    Typed T (m.setCell v i x) := by
  have a := Alters.setCell m v i x
  refine h.alter a (fun e => harray (by rw [e, T.array_role])) hnil
    (fun j y hy => ?_) fun ps hs hps => ?_
  · rw [cell_setCell] at hy
    split at hy
    · rename_i hw
      obtain ⟨_, -, rfl⟩ := Option.map_eq_some_iff.1 hy
      rw [hw.2]
      exact ⟨hfits, a.later.issued hx⟩
    · exact ⟨h.fits v j y hy, a.later.issued (h.issued v j y hy)⟩
  · obtain ⟨qs, hqs, he⟩ := shape_setCell hs
    exact h.block v qs hqs fun e => hps (he.2 e)

theorem cell_of_spares (h : Typed T m) (hs : Spares m m')
    (hx : m'.memory.cell w i = some x) : m.memory.cell w i = some x := hs.cell h.stocked hx

theorem spares (h : Typed T m) (hs : Spares m m') : Typed T m' := by
  have hspecial : ∀ i, m'.specials.get m'.memory i = m.specials.get m.memory i := by
    intro i
    have hmem : T.array ∈ m.anchors := by
      rw [← h.array]
      exact List.mem_append_left _ List.mem_cons_self
    have hkept := hs.kept h.stocked T.array
      (.root (List.mem_append_left _ hmem) h.live_array)
    rw [special_eq, special_eq, hs.specials, h.array, Memory.cell_congr hkept]
  refine ⟨by rw [hs.specials, h.nil], by rw [hs.specials, h.array],
    by rw [hs.specials]; exact h.truth, by rw [hspecial, h.methodClass],
    by rw [hspecial, h.blockClass], hs.stocked h.stocked, fun i => ?_,
    fun w i x hx => h.fits w i x (h.cell_of_spares hs hx),
    fun w i x hx => hs.later.issued (h.issued w i x (h.cell_of_spares hs hx)),
    fun v hv => hs.later.issued (h.known v hv), fun w ps hshape hps => ?_⟩
  · by_contra hsome
    obtain ⟨x, hx⟩ := Option.ne_none_iff_exists'.1 hsome
    exact h.ne_nil_of_cell (h.cell_of_spares hs hx) rfl
  · exact h.block w ps ((hs.shape h.stocked w _ ps hshape).resolve_right hps) hps

end Typed

end Smalltalk.Recycling
