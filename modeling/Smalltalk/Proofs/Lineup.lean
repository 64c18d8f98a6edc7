import Mathlib
import Smalltalk.Proofs.Captures
import Smalltalk.Proofs.Scheduling

/-!
# The contexts in line

The machine counts the contexts that it has activated since one was last handed out. They are the
first on the sender chain, and each is put on one of two free lists when it is left. Whoever refers to
a context has no part in this: as long as nothing stores into contexts but the machine itself, the
counted contexts and the free ones are all different, whatever the guest has got hold of, and a
context that is neither counted nor free never becomes free.

Each way to get from one context to another keeps the line: a method or a block is entered, a method
or a block returns, another process goes on, the count starts anew, or room is made; and whatever
else a machine does leaves contexts alone.
-/

namespace Smalltalk.Lineup

open Outcome Machine Recycling

/-! ### Contexts -/

/-- What a machine knows contexts by. -/
structure Kinds where
  nil : Value
  method : Value
  block : Value
  reference : nil.isReference = true
  distinct : method ≠ block

/-- The class of an object. -/
def cls (m : Machine) (v : Value) : Option Value := (m.memory.shape v).map Prod.fst

/-- Whether an object is a method context or a block context. -/
def IsContext (K : Kinds) (m : Machine) (v : Value) : Prop :=
  cls m v = some K.method ∨ cls m v = some K.block

/-- A machine goes by these kinds. -/
structure Grounded (K : Kinds) (m : Machine) : Prop where
  nil : m.specials.nil = K.nil
  method : m.specials.get m.memory Special.classMethodContext = K.method
  block : m.specials.get m.memory Special.classBlockContext = K.block
  bare : ∀ i, m.memory.cell K.nil i = none
  known : m.memory.Issued K.nil
  stocked : m.memory.Stocked

/-- An object is of the same class and has the same sender. -/
structure Stands (m m' : Machine) (v : Value) : Prop where
  cls : cls m' v = cls m v
  sender : m'.memory.cell v Context.sender = m.memory.cell v Context.sender

/-- An object has the same sender and the same program counter. -/
structure Idles (m m' : Machine) (v : Value) : Prop extends Stands m m' v where
  pc : m'.memory.cell v Context.instructionPointer = m.memory.cell v Context.instructionPointer

variable {K : Kinds} {m m' m'' : Machine} {v w x c base context target : Value} {i n : Nat}
  {large : Bool} {rest : List Value}

theorem cls_eq_some : cls m v = some c ↔ ∃ ps, m.memory.shape v = some (c, ps) := by
  rw [cls, Option.map_eq_some_iff]
  exact ⟨fun ⟨⟨_, ps⟩, h, e⟩ => ⟨ps, by rw [h, ← e]⟩, fun ⟨ps, h⟩ => ⟨_, h, rfl⟩⟩

theorem cls_of_get? {o : Object} (h : m.memory.get? v = some o) : cls m v = some o.cls :=
  cls_eq_some.2 ⟨_, Memory.shape_of_get? h⟩

theorem Idles.of_shape (h : m'.memory.shape v = m.memory.shape v) : Idles m m' v :=
  ⟨⟨by rw [Lineup.cls, h]; rfl, Memory.cell_congr h⟩, Memory.cell_congr h⟩

theorem cls_setCell : cls (m.setCell v i x) w = cls m w := by
  rw [cls, cls, Machine.setCell, Memory.shape_setField]
  split
  · rename_i hw
    rw [hw, Option.map_map]
    rfl
  · rfl

/-- A store above the sender field. -/
theorem Stands.setCell (h : w ≠ v ∨ i ≠ Context.sender) : Stands m (m.setCell v i x) w := by
  refine ⟨cls_setCell, ?_⟩
  rw [Recycling.cell_setCell, if_neg fun e => h.elim (· e.1) (· e.2.symm)]

theorem Idles.setCell (h : w ≠ v ∨ i ≠ Context.sender ∧ i ≠ Context.instructionPointer) :
    Idles m (m.setCell v i x) w := by
  refine ⟨.setCell (h.imp_right And.left), ?_⟩
  rw [Recycling.cell_setCell, if_neg fun e => h.elim (· e.1) (·.2 e.2.symm)]

theorem IsContext.congr (h : cls m' v = cls m v) : IsContext K m' v ↔ IsContext K m v := by
  rw [IsContext, IsContext, h]

namespace Grounded

theorem nil_ne_of_cell (h : Grounded K m) (hx : m.memory.cell v i = some x) : v ≠ K.nil := by
  rintro rfl
  rw [h.bare] at hx
  exact absurd hx (by simp)

/-- The array of special objects is an object, since it tells two classes apart. -/
theorem live_array (h : Grounded K m) : m.memory.isLive m.specials.array = true := by
  by_contra hdead
  have hget : ∀ i, m.specials.get m.memory i = m.specials.nil := fun i => by
    rw [special_eq, Memory.cell, Memory.get?_eq_none.2 (Bool.eq_false_iff.2 hdead)]
    rfl
  exact K.distinct (by rw [← h.method, ← h.block, hget, hget])

/-- Where the special objects and nil stay as they are. -/
theorem congr (h : Grounded K m) (specials : m'.specials = m.specials)
    (array : m'.memory.shape m.specials.array = m.memory.shape m.specials.array)
    (bare : ∀ i, m'.memory.cell K.nil i = none) (later : m.memory.Later m'.memory)
    (stocked : m'.memory.Stocked) : Grounded K m' := by
  have hspecial : ∀ i, m'.specials.get m'.memory i = m.specials.get m.memory i := fun i => by
    rw [special_eq, special_eq, specials, Memory.cell_congr array]
  exact ⟨specials ▸ h.nil, by rw [hspecial, h.method], by rw [hspecial, h.block], bare,
    later.issued h.known, stocked⟩

/-- Where one object alone is changed. -/
theorem alter (h : Grounded K m) (a : Alters m m' v) (array : v ≠ m.specials.array)
    (nil : v ≠ K.nil) : Grounded K m' :=
  h.congr a.specials (a.other _ (Ne.symm array)) (fun i => (a.cell (Ne.symm nil)).trans (h.bare i))
    a.later (a.stocked h.stocked)

/-- The fields of the array of special objects that no class of contexts stands in. -/
def Classless (i : Nat) : Prop := i ≠ Special.classMethodContext ∧ i ≠ Special.classBlockContext

instance : Decidable (Classless i) := inferInstanceAs (Decidable (_ ∧ _))

/-- A store into any other field of the array shows in no class. -/
theorem setCell (h : Grounded K m) (hi : v ≠ m.specials.array ∨ Classless i) (nil : v ≠ K.nil) :
    Grounded K (m.setCell v i x) := by
  have a := Alters.setCell m v i x
  have hspecial : ∀ j, (Classless i → j ≠ i) → (m.setCell v i x).specials.get
      (m.setCell v i x).memory j = m.specials.get m.memory j := by
    intro j hj
    rw [special_eq, special_eq, a.specials, Recycling.cell_setCell, if_neg]
    rintro ⟨rfl, rfl⟩
    exact hi.elim (· rfl) fun hi => hj hi rfl
  exact ⟨a.specials ▸ h.nil, by rw [hspecial _ fun hi => hi.1.symm, h.method],
    by rw [hspecial _ fun hi => hi.2.symm, h.block], fun j => (a.cell (Ne.symm nil)).trans (h.bare j),
    a.later.issued h.known, a.stocked h.stocked⟩

end Grounded

/-! ### Lines -/

/-- The front of a chain ends at the context behind it. -/
theorem front_strung {c : Cells} {last : Value} {front : List Value}
    (h : Strung c last (front ++ [v])) : Strung c v front := by
  induction front with
  | nil => trivial
  | cons p front ih =>
    refine ⟨?_, ih h.2⟩
    have hp := h.1
    cases front <;> exact hp

/-- The counted contexts, the topmost first, what comes below them, and the free contexts. -/
structure Line where
  counted : List Value
  base : Value
  free : Bool → List Value

namespace Line

/-- The topmost context. -/
def top (U : Line) : Value := U.counted.head?.getD U.base

/-- All contexts of the line. -/
def members (U : Line) : List Value := U.counted ++ (U.free false ++ U.free true)

/-- The line with another free list. -/
def setFree (U : Line) (large : Bool) (xs : List Value) : Line :=
  { U with free := Function.update U.free large xs }

/-- The line below the topmost context, which is linked to `next`. -/
def down (U : Line) (next : Value) : Line :=
  { U with counted := U.counted.tail, base := if U.counted = [] then next else U.base }

variable {U : Line}

theorem setFree_self (xs : List Value) : (U.setFree large xs).free large = xs :=
  Function.update_self ..

theorem setFree_of_ne {side : Bool} (h : side ≠ large) (xs : List Value) :
    (U.setFree large xs).free side = U.free side := Function.update_of_ne h ..

theorem mem_setFree_cons {side : Bool} :
    x ∈ (U.setFree large (v :: U.free large)).free side ↔
      (x = v ∧ side = large) ∨ x ∈ U.free side := by
  by_cases h : side = large
  · subst h
    rw [setFree_self, List.mem_cons]
    simp
  · rw [setFree_of_ne h]
    simp [h]

theorem mem_of_setFree {side : Bool} (h : U.free large = v :: rest)
    (hx : x ∈ (U.setFree large rest).free side) : x ∈ U.free side := by
  by_cases hside : side = large
  · subst hside
    rw [setFree_self] at hx
    rw [h]
    exact List.mem_cons_of_mem v hx
  · rwa [setFree_of_ne hside] at hx

theorem top_front (U : Line) {front : List Value} {last : Value} (h : U.counted = front ++ [last]) :
    Line.top { U with counted := front, base := last } = U.top := by
  rw [top, top, h]
  cases front <;> rfl

/-- Nothing has come into the line. -/
structure Inside (U' U : Line) : Prop where
  counted : ∀ x ∈ U'.counted, x ∈ U.counted
  free : ∀ large, ∀ x ∈ U'.free large, x ∈ U.free large

theorem Inside.refl (U : Line) : U.Inside U := ⟨fun _ hx => hx, fun _ _ hx => hx⟩

theorem Inside.trans {U₁ U₂ : Line} (h : U₂.Inside U₁) (h' : U₁.Inside U) : U₂.Inside U :=
  ⟨fun x hx => h'.counted x (h.counted x hx), fun large x hx => h'.free large x (h.free large x hx)⟩

theorem inside_forgotten (U : Line) : Inside { U with free := fun _ => [] } U :=
  ⟨fun _ hx => hx, fun _ _ hx => absurd hx List.not_mem_nil⟩

theorem not_mem_members (counted : v ∉ U.counted) (free : ∀ large, v ∉ U.free large) :
    v ∉ U.members := by
  intro hv
  simp only [members, List.mem_append] at hv
  rcases hv with hv | hv | hv
  · exact counted hv
  · exact free false hv
  · exact free true hv

/-- The first context of a free list is one of the line, and the others are those without it. -/
theorem members_perm (h : U.free large = v :: rest) :
    U.members.Perm (v :: (U.setFree large rest).members) := by
  cases large
  · rw [members, h]
    exact List.perm_middle
  · rw [members, h, ← List.append_assoc, members, ← List.append_assoc]
    exact List.perm_middle

theorem setFree_cons_setFree :
    (U.setFree large (v :: U.free large)).setFree large (U.free large) = U := by
  simp only [setFree, Function.update_idem, Function.update_eq_self]

end Line

/-- Contexts stand in line. -/
structure Formed (K : Kinds) (U : Line) (m : Machine) : Prop extends Grounded K m where
  lists : FreeLists m U.free
  strung : Strung m.memory.cell U.base U.counted
  base : U.base ≠ K.nil
  count : U.counted.length = m.reclaimable
  once : U.members.Nodup
  kind : ∀ x ∈ U.counted, IsContext K m x
  idle : ∀ large, ∀ x ∈ U.free large, cls m x = some K.method ∧
    m.memory.cell x Context.instructionPointer = some K.nil
  top : ∀ large, U.top ∉ U.free large

/-- The contexts of a machine stand in line, the active one on top. -/
structure Lined (K : Kinds) (U : Line) (m : Machine) : Prop extends Formed K U m where
  context : m.registers.context = U.top
  apart : U.top ≠ m.specials.array

/-- A value that has been given out, that is not free, and that is counted only if it is a block: the
pool would decline it. -/
structure Clear (K : Kinds) (U : Line) (m : Machine) (x : Value) : Prop where
  issued : m.memory.Issued x
  free : ∀ large, x ∉ U.free large
  counted : x ∈ U.counted → cls m x = some K.block

/-- What is clear stays so. -/
def Clears (K : Kinds) (U : Line) (m : Machine) (U' : Line) (m' : Machine) : Prop :=
  ∀ x, Clear K U m x → Clear K U' m' x

/-- The contexts of the second machine stand in line, and what is clear stays so. -/
def Keeps (K : Kinds) (U : Line) (m m' : Machine) : Prop :=
  ∃ U', Lined K U' m' ∧ Clears K U m U' m'

/-- The contexts of the second machine stand in line, nothing has come into the line, and what is clear
stays so. -/
def Thins (K : Kinds) (U : Line) (m m' : Machine) : Prop :=
  ∃ U', U'.Inside U ∧ Lined K U' m' ∧ Clears K U m U' m'

variable {U U' : Line}

theorem Thins.keeps (h : Thins K U m m') : Keeps K U m m' := by
  obtain ⟨U', -, hlined, hclears⟩ := h
  exact ⟨U', hlined, hclears⟩

theorem Thins.of_lined (h : Lined K U m' ∧ Clears K U m U m') : Thins K U m m' :=
  ⟨U, .refl U, h⟩

theorem Clears.trans {U'' : Line} (h : Clears K U m U' m') (h' : Clears K U' m' U'' m'') :
    Clears K U m U'' m'' := fun x hx => h' x (h x hx)

theorem Keeps.after (h : Clears K U m U' m') (h' : Keeps K U' m' m'') : Keeps K U m m'' := by
  obtain ⟨U'', hlined, hclears⟩ := h'
  exact ⟨U'', hlined, h.trans hclears⟩

namespace Formed

theorem isLive_counted (h : Formed K U m) (hx : x ∈ U.counted) : m.memory.isLive x = true :=
  h.strung.isLive hx

theorem isLive_free (h : Formed K U m) (hx : x ∈ U.free large) : m.memory.isLive x = true :=
  (h.lists.strung large).isLive hx

/-- While contexts are counted, the topmost one is among them. -/
theorem top_mem (h : Formed K U m) (hpos : 0 < m.reclaimable) : U.top ∈ U.counted := by
  rw [← h.count] at hpos
  rw [Line.top]
  cases hc : U.counted with
  | nil =>
    rw [hc] at hpos
    exact absurd hpos (Nat.lt_irrefl 0)
  | cons c rest => exact List.mem_cons_self

theorem top_not_mem_down (h : Formed K U m) (next : Value) : U.top ∉ (U.down next).counted := by
  have hnodup := (List.nodup_append.1 h.once).1
  rw [Line.top, Line.down]
  cases hc : U.counted with
  | nil => exact List.not_mem_nil
  | cons c rest => exact (List.nodup_cons.1 (hc ▸ hnodup)).1

theorem top_ne_nil (h : Formed K U m) : U.top ≠ K.nil := by
  rw [Line.top]
  cases hc : U.counted with
  | nil => exact h.base
  | cons c rest =>
    have hstrung := h.strung
    rw [hc] at hstrung
    exact h.nil_ne_of_cell hstrung.1

/-- The program counter of a free context is gone. -/
theorem not_free_of_pc {k : Int} (h : Formed K U m)
    (hpc : m.memory.cell x Context.instructionPointer = some (.small k)) : x ∉ U.free large := by
  intro hx
  have hnil := K.reference
  rw [← Option.some.inj (hpc.symm.trans (h.idle large x hx).2)] at hnil
  exact absurd hnil (by simp [Value.isReference])

theorem not_free_of_block (h : Formed K U m) (hx : cls m x = some K.block) : x ∉ U.free large :=
  fun hfree => K.distinct (Option.some.inj ((h.idle large x hfree).1.symm.trans hx))

/-- Contexts stay in line where they keep class and sender, and the free ones their program counter. -/
theorem same (h : Formed K U m) (grounded : Grounded K m') (later : m.memory.Later m'.memory)
    (reclaimable : m'.reclaimable = m.reclaimable) (pool : m'.pool.head = m.pool.head)
    (counted : ∀ x ∈ U.counted, Stands m m' x)
    (free : ∀ large, ∀ x ∈ U.free large, Idles m m' x) : Formed K U m' ∧ Clears K U m U m' := by
  refine ⟨⟨grounded, ⟨fun large => ?_, fun large => ?_, fun large => ?_⟩, ?_, h.base, ?_, h.once,
    fun x hx => ?_, fun large x hx => ?_, h.top⟩, fun x hx => ⟨later.issued hx.issued, hx.free,
    fun hc => ?_⟩⟩
  · rw [pool]
    exact h.lists.head large
  · rw [grounded.nil, ← h.nil]
    exact (h.lists.strung large).congr fun p hp => (free large p hp).sender
  · rw [grounded.nil, ← h.nil]
    exact h.lists.some large
  · exact h.strung.congr fun p hp => (counted p hp).sender
  · rw [reclaimable, h.count]
  · exact (IsContext.congr (counted x hx).cls).2 (h.kind x hx)
  · rw [(free large x hx).cls, (free large x hx).pc]
    exact h.idle large x hx
  · rw [(counted x hc).cls]
    exact hx.counted hc

/-- Where all objects keep class and fields, and pool and count stay. -/
theorem reshape (h : Formed K U m) (later : m.memory.Later m'.memory)
    (stocked : m.memory.Stocked → m'.memory.Stocked) (specials : m'.specials = m.specials)
    (shape : ∀ w, m'.memory.shape w = m.memory.shape w)
    (reclaimable : m'.reclaimable = m.reclaimable) (pool : m'.pool.head = m.pool.head) :
    Formed K U m' ∧ Clears K U m U m' := by
  refine h.same (h.toGrounded.congr specials (shape _) (fun i => ?_) later (stocked h.stocked)) later
    reclaimable pool (fun x _ => (Idles.of_shape (shape x)).toStands) fun large x _ =>
      .of_shape (shape x)
  rw [Memory.cell_congr (shape _)]
  exact h.bare i

/-- What is neither objects nor pool nor count may change. -/
theorem alike (h : Formed K U m) (m' : Machine) (slots : m'.memory.slots = m.memory.slots)
    (vacant : m'.memory.free = m.memory.free) (specials : m'.specials = m.specials)
    (reclaimable : m'.reclaimable = m.reclaimable) (pool : m'.pool.head = m.pool.head) :
    Formed K U m' ∧ Clears K U m U m' :=
  h.reshape (.of_slots slots) (fun hs => hs.of_slots slots vacant) specials
    (fun _ => Memory.shape_congr (by rw [Memory.get?_congr slots])) reclaimable pool

theorem withRegisters (h : Formed K U m) (r : Registers) :
    Formed K U (m.withRegisters r) ∧ Clears K U m U (m.withRegisters r) :=
  h.alike _ rfl rfl rfl rfl rfl

/-- A store that neither a counted nor a free context notices. -/
theorem setCell (h : Formed K U m) (array : v ≠ m.specials.array ∨ Grounded.Classless i)
    (nil : v ≠ K.nil) (counted : v ∈ U.counted → i ≠ Context.sender)
    (free : ∀ large, v ∈ U.free large → i ≠ Context.sender ∧ i ≠ Context.instructionPointer) :
    Formed K U (m.setCell v i x) ∧ Clears K U m U (m.setCell v i x) := by
  refine h.same (h.toGrounded.setCell array nil) (Alters.setCell m v i x).later rfl rfl
    (fun w hw => .setCell ?_) fun large w hw => .setCell ?_
  · by_cases hwv : w = v
    · exact .inr (counted (hwv ▸ hw))
    · exact .inl hwv
  · by_cases hwv : w = v
    · exact .inr (free large (hwv ▸ hw))
    · exact .inl hwv

/-- The registers may be saved in a context that is not free. -/
theorem saved (h : Formed K U m) (array : m.registers.context ≠ m.specials.array)
    (nil : m.registers.context ≠ K.nil) (free : ∀ large, m.registers.context ∉ U.free large) :
    Formed K U (Action.saved m) ∧ Clears K U m U (Action.saved m) := by
  obtain ⟨h₁, hclears₁⟩ := h.setCell (i := Context.instructionPointer)
    (x := .small (Context.encodePc m.registers.pc m.registers.literalCount)) (.inl array) nil
    (fun _ => by decide) fun large hx => absurd hx (free large)
  obtain ⟨h₂, hclears₂⟩ := h₁.setCell (i := Context.stackPointer)
    (x := .small (Context.encodeSp m.registers.sp)) (.inl array) nil
    (fun _ => by decide) fun large hx => absurd hx (free large)
  exact ⟨h₂, hclears₁.trans hclears₂⟩

/-- The free contexts may be forgotten. -/
theorem forget (h : Formed K U m) (pool : ContextPool) (hpool : ∀ large, pool.head large = none) :
    Formed K { U with free := fun _ => [] } { m with pool } ∧
      Clears K U m { U with free := fun _ => [] } { m with pool } := by
  refine ⟨{ h with
    lists := ⟨hpool, fun _ => trivial, fun _ => List.not_mem_nil⟩
    once := ?_
    idle := fun _ _ hx => absurd hx List.not_mem_nil
    top := fun _ => List.not_mem_nil },
    fun x hx => ⟨hx.issued, fun _ => List.not_mem_nil, hx.counted⟩⟩
  rw [Line.members, List.append_nil, List.append_nil]
  exact (List.nodup_append.1 h.once).1

/-- The count may start anew at any context that is not free. -/
theorem restart {r : Registers} (h : Formed K U m) (nil : r.context ≠ K.nil)
    (apart : r.context ≠ m.specials.array) (free : ∀ large, r.context ∉ U.free large) :
    Thins K U m { m.withRegisters r with reclaimable := 0 } :=
  ⟨{ U with counted := [], base := r.context },
    ⟨fun _ hx => absurd hx List.not_mem_nil, fun _ _ hx => hx⟩, ⟨{ h with
    lists := ⟨h.lists.head, h.lists.strung, h.lists.some⟩
    strung := trivial
    base := nil
    count := rfl
    once := (List.nodup_append.1 h.once).2.1
    kind := fun _ hx => absurd hx List.not_mem_nil
    top := free }, rfl, apart⟩,
    fun _ hx => ⟨hx.issued, hx.free, fun hc => absurd hc List.not_mem_nil⟩⟩

/-- An object that stands on no list may be changed. -/
theorem alter (h : Formed K U m) (a : Alters m m' v) (array : v ≠ m.specials.array)
    (nil : v ≠ K.nil) (reclaimable : m'.reclaimable = m.reclaimable)
    (pool : m'.pool.head = m.pool.head) (counted : v ∉ U.counted) (free : ∀ large, v ∉ U.free large) :
    Formed K U m' ∧ Clears K U m U m' :=
  h.same (h.toGrounded.alter a array nil) a.later reclaimable pool
    (fun _ hx => (Idles.of_shape (a.other _ fun e => counted (e ▸ hx))).toStands)
    fun large _ hx => .of_shape (a.other _ fun e => free large (e ▸ hx))

/-- A context that is linked to the topmost one may be counted. -/
theorem push (h : Formed K U m) (kind : IsContext K m v)
    (sender : m.memory.cell v Context.sender = some U.top) (counted : v ∉ U.counted)
    (free : ∀ large, v ∉ U.free large) :
    Formed K { U with counted := v :: U.counted } { m with reclaimable := m.reclaimable + 1 } :=
  { h with
    lists := ⟨h.lists.head, h.lists.strung, h.lists.some⟩
    strung := ⟨sender, h.strung⟩
    count := congrArg (· + 1) h.count
    once := List.nodup_cons.2 ⟨Line.not_mem_members counted free, h.once⟩
    kind := List.forall_mem_cons.2 ⟨kind, h.kind⟩
    top := free }

/-- The one that has been counted for longest need not be counted. -/
theorem drop {front : List Value} {last : Value} (h : Formed K U m)
    (hc : U.counted = front ++ [last]) (hn : m.reclaimable = n + 1) :
    Formed K { U with counted := front, base := last } { m with reclaimable := n } := by
  have hstrung := h.strung
  rw [hc] at hstrung
  have htop := U.top_front hc
  have hmem : ∀ {x}, x ∈ front → x ∈ U.counted := fun hx => hc ▸ List.mem_append_left _ hx
  exact { h with
    lists := ⟨h.lists.head, h.lists.strung, h.lists.some⟩
    strung := front_strung hstrung
    base := h.nil_ne_of_cell (Strung.suffix hstrung).1
    count := by
      have hcount := h.count
      rw [hc, hn, List.length_append] at hcount
      exact Nat.succ.inj hcount
    once := h.once.sublist (by
      rw [Line.members, Line.members, hc]
      exact List.Sublist.append (List.sublist_append_left ..) (.refl _))
    kind := fun x hx => h.kind x (hmem hx)
    top := fun large => by rw [htop]; exact h.top large }

/-- A block that is linked to the topmost context comes on top, and the count goes for as many contexts
as before. -/
theorem shift (h : Formed K U m) (kind : cls m v = some K.block)
    (sender : m.memory.cell v Context.sender = some U.top) (counted : v ∉ U.counted) :
    ∃ U', Formed K U' m ∧ U'.top = v ∧ U'.free = U.free ∧ Clears K U m U' m := by
  obtain ⟨front, last, hfront⟩ : ∃ front last, v :: U.counted = front ++ [last] :=
    ⟨_, _, (List.dropLast_append_getLast (List.cons_ne_nil v U.counted)).symm⟩
  have h₁ := h.push (.inr kind) sender counted fun large => h.not_free_of_block kind
  refine ⟨{ U with counted := front, base := last }, h₁.drop hfront rfl,
    (Line.top_front { U with counted := v :: U.counted } hfront).trans rfl, rfl,
    fun x hx => ⟨hx.issued, hx.free, fun hc => ?_⟩⟩
  have hmem : x ∈ v :: U.counted := hfront ▸ List.mem_append_left _ hc
  rcases List.mem_cons.1 hmem with rfl | hmem
  · exact kind
  · exact hx.counted hmem

/-- The topmost context may be left for the one that it is linked to. -/
theorem down (h : Formed K U m) (hnext : m.memory.cell U.top Context.sender = some x)
    (nil : x ≠ K.nil) (free : ∀ large, x ∉ U.free large) :
    (U.down x).top = x ∧ Formed K (U.down x) { m with reclaimable := m.reclaimable - 1 } := by
  have htop : (U.down x).top = x := by
    cases hc : U.counted with
    | nil => simp [Line.top, Line.down, hc]
    | cons c rest =>
      have hstrung := h.strung
      rw [hc] at hstrung
      rw [Line.top, hc] at hnext
      simpa [Line.top, Line.down, hc] using Option.some.inj (hstrung.1.symm.trans hnext)
  have hmem : ∀ {x}, x ∈ U.counted.tail → x ∈ U.counted := List.mem_of_mem_tail
  refine ⟨htop, { h with
    lists := ⟨h.lists.head, h.lists.strung, h.lists.some⟩
    strung := ?_
    base := ?_
    count := by rw [Line.down, List.length_tail, h.count]
    once := h.once.sublist ((List.tail_sublist _).append (.refl _))
    kind := fun x hx => h.kind x (hmem hx)
    top := fun large => by rw [htop]; exact free large }⟩
  · cases hc : U.counted with
    | nil => simp [Line.down, hc, Strung]
    | cons c rest =>
      have hstrung := h.strung
      rw [hc] at hstrung
      simpa [Line.down, hc] using hstrung.2
  · rw [Line.down]
    split
    · exact nil
    · exact h.base

/-- A free list may do without its first context. -/
theorem unhook (h : Formed K U m) (pool : ContextPool) (hfree : U.free large = v :: rest)
    (hpool : ∀ side, pool.head side = if side = large then rest.head? else m.pool.head side) :
    Formed K (U.setFree large rest) { m with pool } ∧
      (∀ x, Clear K U m x → Clear K (U.setFree large rest) { m with pool } x ∧ x ≠ v) ∧
      v ∉ U.counted ∧ ∀ side, v ∉ (U.setFree large rest).free side := by
  have hperm := h.once.perm (Line.members_perm hfree)
  obtain ⟨hv, hrest⟩ := List.nodup_cons.1 hperm
  have hmem : ∀ {side x}, x ∈ (U.setFree large rest).free side → x ∈ U.free side :=
    Line.mem_of_setFree hfree
  have hstrung := h.lists.strung large
  rw [hfree] at hstrung
  refine ⟨{ h with
    lists := ⟨fun side => ?_, fun side => ?_, fun side hx => h.lists.some side (hmem hx)⟩
    once := hrest
    idle := fun side x hx => h.idle side x (hmem hx)
    top := fun side hx => h.top side (hmem hx) },
    fun x hx => ⟨⟨hx.issued, fun side hfree => hx.free side (hmem hfree), hx.counted⟩, ?_⟩,
    fun hc => hv (List.mem_append_left _ hc), fun side hx => hv (List.mem_append_right _ ?_)⟩
  · rw [hpool]
    split
    · rename_i hside
      rw [hside, Line.setFree_self]
    · rename_i hside
      rw [Line.setFree_of_ne hside]
      exact h.lists.head side
  · by_cases hside : side = large
    · rw [hside, Line.setFree_self]
      exact hstrung.2
    · rw [Line.setFree_of_ne hside]
      exact h.lists.strung side
  · rintro rfl
    exact hx.free large (hfree ▸ List.mem_cons_self)
  · cases side
    · exact List.mem_append_left _ hx
    · exact List.mem_append_right _ hx

/-- A context that stands on no list may be put in front of a free list. -/
theorem hook (h : Formed K U m) {pool : ContextPool} (hcls : cls m v = some K.method)
    (hpc : m.memory.cell v Context.instructionPointer = some K.nil)
    (hsender : m.memory.cell v Context.sender = some ((U.free large).head?.getD K.nil))
    (hpool : ∀ side, pool.head side = if side = large then some v else m.pool.head side)
    (counted : v ∉ U.counted) (free : ∀ large, v ∉ U.free large) (top : U.top ≠ v) :
    Formed K (U.setFree large (v :: U.free large)) { m with pool } := by
  refine { h with
    lists := ⟨fun side => ?_, fun side => ?_, fun side hx => ?_⟩
    once := ?_
    idle := fun side x hx => ?_
    top := fun side hx => ?_ }
  · rw [hpool]
    split
    · rename_i hside
      rw [hside, Line.setFree_self]
      rfl
    · rename_i hside
      rw [Line.setFree_of_ne hside]
      exact h.lists.head side
  · by_cases hside : side = large
    · rw [hside, Line.setFree_self]
      exact ⟨by rw [hsender, ← h.nil], h.lists.strung large⟩
    · rw [Line.setFree_of_ne hside]
      exact h.lists.strung side
  · rcases Line.mem_setFree_cons.1 hx with ⟨e, -⟩ | hx
    · exact h.nil_ne_of_cell hpc (e.symm.trans h.nil)
    · exact h.lists.some side hx
  · have hperm := Line.members_perm (U := U.setFree large (v :: U.free large)) (Line.setFree_self _)
    rw [Line.setFree_cons_setFree] at hperm
    exact hperm.symm.nodup (List.nodup_cons.2 ⟨Line.not_mem_members counted free, h.once⟩)
  · rcases Line.mem_setFree_cons.1 hx with ⟨rfl, -⟩ | hx
    · exact ⟨hcls, hpc⟩
    · exact h.idle side x hx
  · rcases Line.mem_setFree_cons.1 hx with ⟨e, -⟩ | hx
    · exact top e
    · exact h.top side hx

end Formed

/-! ### Turns that leave the line alone -/

/-- Whatever else a machine does leaves contexts alone: each stays what it is, and only the active one
moves its program counter. -/
structure Rests (K : Kinds) (m m' : Machine) : Prop where
  specials : m'.specials = m.specials
  method : m'.specials.get m'.memory Special.classMethodContext =
    m.specials.get m.memory Special.classMethodContext
  block : m'.specials.get m'.memory Special.classBlockContext =
    m.specials.get m.memory Special.classBlockContext
  bare : (∀ i, m.memory.cell K.nil i = none) → ∀ i, m'.memory.cell K.nil i = none
  later : m.memory.Later m'.memory
  stocked : m.memory.Stocked → m'.memory.Stocked
  context : m'.registers.context = m.registers.context
  reclaimable : m'.reclaimable = m.reclaimable
  pool : m'.pool.head = m.pool.head
  stands : ∀ v, IsContext K m v → Stands m m' v
  idles : ∀ v, IsContext K m v → v ≠ m.registers.context → Idles m m' v

namespace Lined

/-- A store into the active context above its sender. -/
theorem setCell (h : Lined K U m) (hv : v = m.registers.context) (hi : i ≠ Context.sender) :
    Lined K U (m.setCell v i x) ∧ Clears K U m U (m.setCell v i x) := by
  subst hv
  obtain ⟨h₁, hclears⟩ := h.toFormed.setCell (v := m.registers.context) (i := i) (x := x)
    (.inl (h.context ▸ h.apart)) (h.context ▸ h.top_ne_nil) (fun _ => hi) fun large hx =>
      absurd (h.context ▸ hx) (h.top large)
  exact ⟨⟨h₁, h.context, h.apart⟩, hclears⟩

theorem saved (h : Lined K U m) :
    Lined K U (Action.saved m) ∧ Clears K U m U (Action.saved m) := by
  obtain ⟨h₁, hclears⟩ := h.toFormed.saved (h.context ▸ h.apart) (h.context ▸ h.top_ne_nil)
    (h.context ▸ h.top)
  exact ⟨⟨h₁, h.context, h.apart⟩, hclears⟩

theorem rests (h : Lined K U m) (hr : Rests K m m') : Lined K U m' ∧ Clears K U m U m' := by
  have grounded : Grounded K m' := ⟨hr.specials ▸ h.nil, hr.method.trans h.method,
    hr.block.trans h.block, hr.bare h.bare, hr.later.issued h.known,
    hr.stocked h.stocked⟩
  obtain ⟨h', hclears⟩ := h.toFormed.same grounded hr.later hr.reclaimable hr.pool
    (fun x hx => hr.stands x (h.kind x hx)) fun large x hx =>
      hr.idles x (.inl (h.idle large x hx).1) fun e => h.top large (h.context ▸ e ▸ hx)
  exact ⟨⟨h', hr.context.trans h.context, by rw [hr.specials]; exact h.apart⟩, hclears⟩

/-- Making room keeps the counted contexts, and all free ones or none. -/
theorem spares (h : Lined K U m) (hs : m.Spares m') : Thins K U m m' := by
  have kept : ∀ {U : Line} (pool : ContextPool),
      Lined K U { m with pool } → m'.pool = pool →
      Lined K U m' ∧ Clears K U { m with pool } U m' := by
    intro U pool h hpool
    have htop : m.registers.context = U.top := h.context
    have hroot : ∀ {c}, c = m.registers.context ∨ c = m.specials.array →
        c ∈ m.anchors ++ m'.pool.roots := by
      rintro c (rfl | rfl)
      · exact List.mem_append_left _
          (List.mem_append_left _ (List.mem_cons_of_mem _ List.mem_cons_self))
      · exact List.mem_append_left _ (List.mem_append_left _ List.mem_cons_self)
    have hshape : ∀ {v}, m.memory.Reachable (m.anchors ++ m'.pool.roots) v →
        m'.memory.shape v = m.memory.shape v := fun hv => hs.kept h.stocked _ hv
    have hbare : ∀ i, m'.memory.cell K.nil i = none := by
      intro i
      rw [Memory.cell_eq_shape]
      cases hnil : m'.memory.shape K.nil with
      | none => rfl
      | some s =>
        rcases hs.shape h.stocked K.nil s.1 s.2 hnil with hold | hempty
        · have hnone := h.bare i
          rw [Memory.cell_eq_shape, hold] at hnone
          exact hnone
        · rw [Option.bind_some, hempty]
          exact Array.getElem?_empty
    have hcounted : ∀ x ∈ U.counted, Idles { m with pool } m' x := by
      refine fun x hx => .of_shape (hshape (h.strung.reachable (fun c hc => ?_) hx))
      rw [Line.top, hc, Option.getD_some] at htop
      exact .root (hroot (.inl htop.symm)) (h.strung.isLive (List.mem_of_head? hc))
    have hfree : ∀ large, ∀ x ∈ U.free large, Idles { m with pool } m' x := by
      refine fun large x hx => .of_shape (hshape ((h.lists.strung large).reachable
        (fun c hc => ?_) hx))
      refine .root (List.mem_append_right _ ?_) ((h.lists.strung large).isLive (List.mem_of_head? hc))
      rw [hpool]
      exact mem_roots_of_head ((h.lists.head large).trans hc)
    obtain ⟨h', hclears⟩ := h.toFormed.same (h.toGrounded.congr hs.specials
      (hshape (.root (hroot (.inr rfl)) h.live_array)) hbare hs.later (hs.stocked h.stocked)) hs.later
      hs.reclaimable (by rw [hpool]) (fun x hx => (hcounted x hx).toStands) hfree
    exact ⟨⟨h', by rw [hs.registers, htop], by rw [hs.specials]; exact h.apart⟩, hclears⟩
  rcases hs.pool with e | e
  · exact .of_lined (kept _ h e)
  · obtain ⟨h₁, hclears₁⟩ := h.toFormed.forget m.pool.clear fun large => by
      cases large <;> rfl
    obtain ⟨h₂, hclears₂⟩ := kept _ ⟨h₁, h.context, h.apart⟩ e
    exact ⟨_, U.inside_forgotten, h₂, hclears₁.trans hclears₂⟩

theorem reset (h : Lined K U m) : Thins K U m { m with reclaimable := 0 } := by
  refine h.toFormed.restart (r := m.registers) ?_ ?_ ?_ <;> rw [h.context]
  · exact h.top_ne_nil
  · exact h.apart
  · exact h.top

/-- The registers are saved, and the count starts anew at a context with a program counter. -/
theorem activate {r : Registers} (h : Lined K U m)
    (hload : Action.Loaded (Action.saved m).memory r.context r)
    (apart : r.context ≠ m.specials.array) :
    Keeps K U m { (Action.saved m).withRegisters r with reclaimable := 0 } := by
  obtain ⟨h₁, hclears₁⟩ := h.saved
  obtain ⟨k, hk, -⟩ := hload.pc
  exact .after hclears₁ (h₁.toFormed.restart (h₁.nil_ne_of_cell hk) apart
    fun large => h₁.not_free_of_pc hk).keeps

/-- A store into an object that is no context. -/
theorem store (h : Lined K U m) (hv : ¬ IsContext K m v) (array : v ≠ m.specials.array)
    (hx : ∃ y, m.memory.cell v i = some y) :
    Lined K U (m.setCell v i x) ∧ Clears K U m U (m.setCell v i x) := by
  obtain ⟨y, hy⟩ := hx
  obtain ⟨h₁, hclears⟩ := h.toFormed.setCell (x := x) (.inl array) (h.nil_ne_of_cell hy)
    (fun hc => absurd (h.kind v hc) hv) fun large hx => absurd (.inl (h.idle large v hx).1) hv
  exact ⟨⟨h₁, h.context, h.apart⟩, hclears⟩

/-- What is neither objects nor pool nor count nor the active context may change. -/
theorem alike (h : Lined K U m) (m' : Machine) (slots : m'.memory.slots = m.memory.slots)
    (vacant : m'.memory.free = m.memory.free) (specials : m'.specials = m.specials)
    (context : m'.registers.context = m.registers.context)
    (reclaimable : m'.reclaimable = m.reclaimable) (pool : m'.pool.head = m.pool.head) :
    Lined K U m' ∧ Clears K U m U m' := by
  obtain ⟨h₁, hclears⟩ := h.toFormed.alike m' slots vacant specials reclaimable pool
  exact ⟨⟨h₁, context.trans h.context, by rw [specials]; exact h.apart⟩, hclears⟩

theorem withRegisters {r : Registers} (h : Lined K U m) (hr : r.context = m.registers.context) :
    Lined K U (m.withRegisters r) ∧ Clears K U m U (m.withRegisters r) :=
  h.alike _ rfl rfl rfl hr rfl rfl

/-- A switch to another process stores into the scheduler and the two processes. -/
theorem transferTo {process : Value} (h : Lined K U m)
    (plain : ∀ w, Action.scheduler m = .ok w m ∨ Action.activeProcess m = .ok w m ∨ w = process →
      w ≠ K.nil → ¬ IsContext K m w ∧ w ≠ m.specials.array) :
    Gives (Action.transferTo process) m fun _ m' =>
      m'.registers.context ≠ m'.specials.array → Keeps K U m m' := by
  intro u m' hrun apart
  obtain ⟨s, old, next, r, hs, hold, hsuspend, hnext, rfl, hload, hresume, rfl⟩ :=
    Scheduling.transferTo_ok hrun
  have hactive : Action.activeProcess m = .ok old m :=
    (bind_of_ok hs).trans (Action.fetch_ok.2 ⟨hold, rfl⟩)
  obtain ⟨y, hy⟩ := hsuspend
  obtain ⟨z, hz⟩ := hresume
  obtain ⟨hscheduler, sarray⟩ := plain s (.inl hs) (h.nil_ne_of_cell hold)
  obtain ⟨h₁, hclears₁⟩ := h.store (x := process) hscheduler sarray ⟨_, hold⟩
  obtain ⟨hformer, oarray⟩ := plain old (.inr (.inl hactive)) (h₁.nil_ne_of_cell hy)
  obtain ⟨h₂, hclears₂⟩ := h₁.store (x := m.registers.context)
    (mt (IsContext.congr cls_setCell).1 hformer) oarray ⟨y, hy⟩
  obtain ⟨U₃, h₃, hclears₃⟩ := h₂.activate hload apart
  have hsame : ∀ w, IsContext K { (Action.saved
      (Scheduling.handedOver m s old process)).withRegisters r with reclaimable := 0 } w ↔
        IsContext K m w := fun w =>
    (IsContext.congr cls_setCell).trans ((IsContext.congr cls_setCell).trans
      ((IsContext.congr cls_setCell).trans (IsContext.congr cls_setCell)))
  obtain ⟨hprocess, parray⟩ := plain process (.inr (.inr rfl)) (h₃.nil_ne_of_cell hz)
  obtain ⟨h₄, hclears₄⟩ := h₃.store (x := m.specials.nil) (mt (hsame process).1 hprocess) parray
    ⟨z, hz⟩
  obtain ⟨h₅, hclears₅⟩ := h₄.alike (Scheduling.transferred m s old process r)
    rfl rfl rfl rfl rfl rfl
  exact ⟨U₃, h₅, hclears₁.trans (hclears₂.trans (hclears₃.trans (hclears₄.trans hclears₅)))⟩

theorem pushed (h : Lined K U m) :
    Lined K U (Action.pushed m x) ∧ Clears K U m U (Action.pushed m x) := by
  obtain ⟨h₁, hclears₁⟩ := h.setCell (i := m.registers.sp + 1) (x := x) rfl (Nat.succ_ne_zero _)
  obtain ⟨h₂, hclears₂⟩ := h₁.withRegisters (r := { m.registers with sp := m.registers.sp + 1 }) rfl
  exact ⟨h₂, hclears₁.trans hclears₂⟩

end Lined

/-! ### Returns -/

/-- Stores change no class and no number of fields. -/
structure Stores (m m' : Machine) : Prop where
  later : m.memory.Later m'.memory
  cls : ∀ w, cls m' w = cls m w
  chain : ∀ w c, ContextPool.chainOf? m'.memory w c = ContextPool.chainOf? m.memory w c

namespace Stores

theorem refl (m : Machine) : Stores m m := ⟨.refl _, fun _ => rfl, fun _ _ => rfl⟩

theorem trans (s : Stores m m') (s' : Stores m' m'') : Stores m m'' :=
  ⟨s.later.trans s'.later, fun w => (s'.cls w).trans (s.cls w),
    fun w c => (s'.chain w c).trans (s.chain w c)⟩

theorem of_memory (h : m'.memory = m.memory) : Stores m m' :=
  ⟨.of_slots (by rw [h]), fun _ => by rw [Lineup.cls, Lineup.cls, h], fun _ _ => by rw [h]⟩

theorem setCell : Stores m (m.setCell v i x) := by
  refine ⟨(Alters.setCell m v i x).later, fun w => cls_setCell, fun w c => ?_⟩
  rw [ContextPool.chainOf?, ContextPool.chainOf?, Machine.setCell, Memory.get?_setField]
  split
  · rename_i hw
    rw [hw]
    cases m.memory.get? v <;> simp [Object.setPointer]
  · rfl

theorem saved : Stores m (Action.saved m) := setCell.trans .setCell

end Stores

/-- What a return has taken off the line: the contexts on its way are not counted any more, and those
of them that were counted and are fit for the pool are free. -/
structure Leaves (K : Kinds) (U U' : Line) (m : Machine) (path : List Value) : Prop where
  counted : U'.counted = U.counted.drop path.length
  free : ∀ large x, x ∈ U'.free large ↔ x ∈ U.free large ∨
    x ∈ path ∧ x ∈ U.counted ∧ ContextPool.chainOf? m.memory x K.method = some large

theorem Leaves.clears {path : List Value} (l : Leaves K U U' m path) (s : Stores m m') :
    Clears K U m U' m' := by
  refine fun x hx => ⟨s.later.issued hx.issued, fun large hfree => ?_, fun hc => ?_⟩
  · rcases (l.free large x).1 hfree with hold | ⟨-, hc, hchain⟩
    · exact hx.free large hold
    · obtain ⟨o, ho, hcls, -⟩ := chainOf?_eq_some hchain
      refine K.distinct (Option.some.inj ?_)
      rw [← hx.counted hc, cls_of_get? ho, hcls]
  · rw [s.cls]
    exact hx.counted (List.mem_of_mem_drop (l.counted ▸ hc))

/-- The topmost context is left first, and then those below it. -/
theorem Leaves.cons {U₁ U₂ : Line} {m₁ : Machine} {path : List Value} (l : Leaves K U U₁ m [c])
    (l' : Leaves K U₁ U₂ m₁ path) (s : Stores m m₁) (htop : U.top = c) (hc : c ∉ path) :
    Leaves K U U₂ m (c :: path) := by
  have hmem : ∀ x ∈ path, x ∈ U.counted.drop 1 ↔ x ∈ U.counted := by
    intro x hx
    rw [Line.top] at htop
    cases hcounted : U.counted with
    | nil => exact Iff.rfl
    | cons d rest =>
      rw [hcounted] at htop
      obtain rfl : d = c := htop
      exact ⟨List.mem_cons_of_mem d, fun hx' =>
        (List.mem_cons.1 hx').resolve_left fun e => hc (e ▸ hx)⟩
  refine ⟨?_, fun large x => ?_⟩
  · rw [l'.counted, l.counted, List.drop_drop, List.length_cons]
    congr 1
    exact Nat.add_comm ..
  · rw [l'.free, l.free, l.counted, s.chain, or_assoc]
    refine or_congr_right ⟨?_, ?_⟩
    · rintro (⟨hx, hrest⟩ | ⟨hx, hrest, hchain⟩)
      · exact ⟨List.mem_singleton.1 hx ▸ List.mem_cons_self, hrest⟩
      · exact ⟨List.mem_cons_of_mem c hx, (hmem x hx).1 hrest, hchain⟩
    · rintro ⟨hx, hrest, hchain⟩
      rcases List.mem_cons.1 hx with rfl | hx
      · exact .inl ⟨List.mem_singleton_self _, hrest, hchain⟩
      · exact .inr ⟨hx, (hmem x hx).2 hrest, hchain⟩

namespace Formed

/-- What stands on no list may be severed. -/
theorem severed (h : Formed K U m) (nil : c ≠ K.nil) (counted : c ∉ U.counted)
    (free : ∀ large, c ∉ U.free large) : Formed K U (Sealed.severed m c K.nil) := by
  obtain ⟨h₁, -⟩ := h.setCell (i := Context.sender) (x := K.nil) (.inr (by decide)) nil
    (fun hc => absurd hc counted) fun large hx => absurd hx (free large)
  exact (h₁.setCell (.inr (by decide)) nil
    (fun hc => absurd hc counted) fun large hx => absurd hx (free large)).1

/-- A context that stands on no list is offered to the pool. -/
theorem recycle {u : Unit} (h : Formed K U m) (hpc : m.memory.cell c Context.instructionPointer =
      some K.nil) (hsender : ∃ y, m.memory.cell c Context.sender = some y) (counted : c ∉ U.counted)
    (free : ∀ large, c ∉ U.free large) (top : U.top ≠ c)
    (hrun : Action.recycleContext c m = .ok u m') : ∃ U', Formed K U' m' ∧ U'.top = U.top ∧
      U'.counted = U.counted ∧ (∀ large x, x ∈ U'.free large ↔ x ∈ U.free large ∨
        x = c ∧ ContextPool.chainOf? m.memory c K.method = some large) ∧
      Alters m m' c ∧ Stores m m' ∧ m'.registers = m.registers := by
  rcases recycleContext_ok hrun with ⟨hchain, rfl⟩ | ⟨large, hchain, rfl⟩
  · rw [h.method] at hchain
    refine ⟨U, h, rfl, rfl, fun large x => ?_, ⟨rfl, .refl _, id, fun _ _ => rfl⟩, .refl _, rfl⟩
    simp [hchain]
  · rw [h.method] at hchain
    obtain ⟨o, ho, hcls, -⟩ := chainOf?_eq_some hchain
    obtain ⟨y, hy⟩ := hsender
    have a := Alters.setCell m c Context.sender ((m.pool.head large).getD m.specials.nil)
    have s : Stores m (m.setCell c Context.sender ((m.pool.head large).getD m.specials.nil)) := .setCell
    obtain ⟨h₁, -⟩ := h.setCell (i := Context.sender) (x := (m.pool.head large).getD m.specials.nil)
      (.inr (by decide)) (h.nil_ne_of_cell hy)
      (fun hc => absurd hc counted) fun side hx => absurd hx (free side)
    refine ⟨U.setFree large (c :: U.free large), h₁.hook ?_ ?_ ?_ (fun side => ?_) counted free top,
      rfl, rfl, fun side x => ?_, ⟨a.specials, a.later, a.stocked, a.other⟩,
      ⟨s.later, s.cls, s.chain⟩, rfl⟩
    · rw [cls_setCell, cls_of_get? ho, hcls]
    · rw [Recycling.cell_setCell, if_neg fun e => absurd e.2 (by decide), hpc]
    · rw [Recycling.cell_setCell, if_pos ⟨rfl, rfl⟩, hy, h.lists.head, h.nil]
      rfl
    · exact head_setHead ..
    · rw [Line.mem_setFree_cons, hchain, or_comm, Option.some.injEq, eq_comm (a := large)]

/-- Both fields of a severed context are nil. -/
theorem severed_cells {y : Value} (hsender : ∃ x, m.memory.cell c Context.sender = some x)
    (hpc : (m.setCell c Context.sender K.nil).memory.cell c Context.instructionPointer = some y) :
    (Sealed.severed m c K.nil).memory.cell c Context.sender = some K.nil ∧
    (Sealed.severed m c K.nil).memory.cell c Context.instructionPointer = some K.nil := by
  obtain ⟨x, hx⟩ := hsender
  constructor
  · rw [Sealed.severed, Recycling.cell_setCell, if_neg fun e => absurd e.2 (by decide),
      Recycling.cell_setCell, if_pos ⟨rfl, rfl⟩, hx]
    rfl
  · rw [Sealed.severed, Recycling.cell_setCell, if_pos ⟨rfl, rfl⟩, hpc]
    rfl

/-- A return that leaves one context. -/
theorem sever {next : Value} (h : Formed K U m) (hc : U.top = c)
    (hnext : m.memory.cell c Context.sender = some next) (nil : next ≠ K.nil)
    (free : ∀ large, next ∉ U.free large) (hne : next ≠ c) : Gives (Action.sever c) m fun _ m' =>
      ∃ U', Formed K U' m' ∧ U'.top = next ∧ Leaves K U U' m [c] ∧ Alters m m' c ∧ Stores m m' ∧
        m'.registers = m.registers := by
  refine .bind (gives_nil (.bind (Machine.gives_store fun _ _ => ?_)))
  refine .bind (Machine.gives_store fun y hy => ?_)
  rw [h.nil] at hy ⊢
  subst hc
  obtain ⟨htop, hdown⟩ := h.down hnext nil free
  have hcounted := h.top_not_mem_down next
  have h₁ := hdown.severed (h.nil_ne_of_cell hnext) hcounted h.top
  have a : Alters m (Sealed.severed { m with reclaimable := m.reclaimable - 1 } U.top K.nil) U.top :=
    have a := Sealed.alters_severed m U.top K.nil
    ⟨a.specials, a.later, a.stocked, a.other⟩
  have s : Stores m (Sealed.severed { m with reclaimable := m.reclaimable - 1 } U.top K.nil) :=
    have s : Stores m (Sealed.severed m U.top K.nil) := Stores.setCell.trans .setCell
    ⟨s.later, s.cls, s.chain⟩
  refine .bind (.get (.ite (fun hpos => .bind (.modify fun u m' hrun => ?_)) fun hzero => .pure ?_))
  · have hmem := h.top_mem hpos
    obtain ⟨hsender, hpc⟩ := severed_cells ⟨_, hnext⟩ hy
    obtain ⟨U', h', htop', hcounted', hfree', a', s', hregisters⟩ :=
      h₁.recycle hpc ⟨_, hsender⟩ hcounted h.top (by rw [htop]; exact hne) hrun
    refine ⟨U', h', htop'.trans htop, ⟨?_, fun large x => ?_⟩, ?_, ?_, hregisters⟩
    · rw [hcounted', Line.down, List.length_singleton, List.drop_one]
    · rw [hfree', s.chain]
      refine or_congr_right ⟨?_, ?_⟩
      · rintro ⟨rfl, hchain⟩
        exact ⟨List.mem_singleton_self _, hmem, hchain⟩
      · rintro ⟨hx, -, hchain⟩
        obtain rfl := List.mem_singleton.1 hx
        exact ⟨rfl, hchain⟩
    · exact a.trans a'
    · exact s.trans s'
  · have hzero : m.reclaimable = 0 := Nat.eq_zero_of_not_pos hzero
    have hnone : U.counted = [] := List.eq_nil_of_length_eq_zero (h.count.trans hzero)
    have hsame : m.reclaimable - 1 = m.reclaimable := by rw [hzero]
    rw [hsame] at h₁ a s
    refine ⟨_, h₁, htop, ⟨?_, fun large x => ?_⟩, a, s, rfl⟩
    · rw [Line.down, hnone]
      rfl
    · rw [hnone]
      simp [Line.down]

/-- A return leaves the contexts on its way one after the other. -/
theorem severAll {path : List Value} (h : Formed K U m) (htop : U.top = path.head?.getD target)
    (hpath : Strung m.memory.cell target path) (htarget : target ∉ path) (nil : target ≠ K.nil)
    (some : K.nil ∉ path) (free : ∀ large, ∀ x, x = target ∨ x ∈ path → x ∉ U.free large) :
    Gives (path.forM Action.sever) m fun _ m' => ∃ U', Formed K U' m' ∧ U'.top = target ∧
      Leaves K U U' m path ∧ Stores m m' ∧ m'.specials = m.specials := by
  induction path generalizing U m with
  | nil => exact .pure ⟨U, h, htop, ⟨rfl, fun large x => by simp⟩, .refl _, rfl⟩
  | cons c path ih =>
    have hnext : path.head?.getD target ∈ target :: path := by
      cases path with
      | nil => exact List.mem_cons_self
      | cons d path => exact List.mem_cons_of_mem target List.mem_cons_self
    have hc : c ∉ path := (List.nodup_cons.1 (hpath.nodup htarget)).1
    have hne : path.head?.getD target ≠ c := by
      intro e
      rcases List.mem_cons.1 (e ▸ hnext) with e | hx
      · exact htarget (e ▸ List.mem_cons_self)
      · exact hc hx
    refine .bind ((h.sever (c := c) htop hpath.1 (fun e => ?_) (fun large => free large _ ?_)
      hne).mono ?_)
    · rcases List.mem_cons.1 (e ▸ hnext) with e | hx
      · exact nil e.symm
      · exact some (List.mem_cons_of_mem c hx)
    · exact (List.mem_cons.1 hnext).imp_right (List.mem_cons_of_mem c)
    rintro _ m₁ ⟨U₁, h₁, htop₁, l₁, a, s₁, -⟩
    have hpath₁ : Strung m₁.memory.cell target path :=
      hpath.2.congr fun p hp => a.cell fun e => hc (e ▸ hp)
    have hfree₁ : ∀ large, ∀ x, x = target ∨ x ∈ path → x ∉ U₁.free large := by
      intro large x hx hmem
      rcases (l₁.free large x).1 hmem with hold | ⟨hxc, -⟩
      · exact free large x (hx.imp_right (List.mem_cons_of_mem c)) hold
      · obtain rfl := List.mem_singleton.1 hxc
        exact hx.elim (fun e => htarget (e ▸ List.mem_cons_self)) hc
    refine (ih h₁ htop₁ hpath₁ (fun hx => htarget (List.mem_cons_of_mem c hx))
      (fun hx => some (List.mem_cons_of_mem c hx)) hfree₁).mono ?_
    rintro _ m₂ ⟨U₂, h₂, htop₂, l₂, s₂, hspecials⟩
    have htop' : U.top = c := htop
    exact ⟨U₂, h₂, htop₂, l₁.cons l₂ s₁ htop' hc, s₁.trans s₂, hspecials.trans a.specials⟩

/-- A context with a free one on its sender chain is free itself, down to a target that is none. -/
theorem not_free_of_strung {path : List Value} (h : Formed K U m)
    (hpath : Strung m.memory.cell target path) (nil : target ≠ K.nil)
    (free : ∀ large, target ∉ U.free large) (hx : x ∈ path) : x ∉ U.free large := by
  induction path generalizing x with
  | nil => exact absurd hx List.not_mem_nil
  | cons c path ih =>
    rcases List.mem_cons.1 hx with rfl | hx
    · intro hfree
      obtain ⟨y, hy, hend⟩ := (h.lists.strung large).linked hfree
      obtain rfl := Option.some.inj (hpath.1.symm.trans hy)
      rw [h.nil] at hend
      cases path with
      | nil => exact hend.elim nil (free large)
      | cons d path =>
        exact hend.elim (h.nil_ne_of_cell hpath.2.1) (ih hpath.2 List.mem_cons_self)
    · exact ih hpath.2 hx

end Formed

/-- A return takes the contexts on its way off the line. -/
theorem Lined.returnTo (h : Lined K U m) : Gives (Action.returnTo x target) m fun _ m' =>
    m'.registers.context ≠ m'.specials.array → ∃ U' path, Way m m' path ∧
      Leaves K U U' m path ∧ Lined K U' m' ∧ Clears K U m U' m' := by
  refine .bind (gives_nil (.ite (fun _ => .bind .throw) fun hsome => ?_))
  refine .bind (Machine.gives_fetch fun pc hpc => .ite (fun _ => .bind .throw) fun hidle => ?_)
  refine .bind (.bind (.get (.bind (gives_registers ?_))))
  refine gives_senderPathWithin.mono fun path m₁ hpath => ?_
  obtain ⟨rfl, hhead, hstrung, htarget, hnil⟩ := hpath
  rw [h.nil] at hsome hidle hnil
  have hfree : ∀ large, target ∉ U.free large := fun large hx =>
    hidle (Option.some.inj (hpc.symm.trans (h.idle large _ hx).2))
  refine .bind ((h.toFormed.severAll (by rw [hhead, h.context]) hstrung htarget hsome hnil
    fun large x hx => ?_).mono ?_)
  · rcases hx with rfl | hx
    · exact hfree large
    · exact h.toFormed.not_free_of_strung hstrung hsome hfree hx
  rintro _ m₂ ⟨U', h₂, htop, l, s, -⟩
  refine .bind (.modify (.bind fun _ m₃ hload => ?_))
  obtain ⟨r, rfl, hcontext, -⟩ := Action.loadRegisters_ok hload
  have hcontext : r.context = target := hcontext
  intro _ m₄ hpush apart
  obtain ⟨-, rfl⟩ := Action.push_ok.1 hpush
  obtain ⟨h₃, hclears₃⟩ := h₂.withRegisters r
  have hlined : Lined K U' (m₂.withRegisters r) := ⟨h₃, hcontext.trans htop.symm, fun e => apart ?_⟩
  obtain ⟨h₄, hclears₄⟩ := hlined.pushed (x := x)
  refine ⟨U', path, ?_, l, h₄, (l.clears s).trans (hclears₃.trans hclears₄)⟩
  · change path.head?.getD r.context = _ ∧ Strung _ r.context path ∧ r.context ∉ path
    rw [hcontext]
    exact ⟨hhead, hstrung, htarget⟩
  · exact hcontext.trans (htop.symm.trans e)

/-! ### New contexts -/

/-- A context that is supplied stands on no list, and it was not clear. -/
structure Provides (K : Kinds) (U U' : Line) (m m' : Machine) (v : Value) : Prop where
  lined : Lined K U' m'
  cls : cls m' v = some K.method
  counted : v ∉ U'.counted
  free : ∀ large, v ∉ U'.free large
  clears : ∀ x, Clear K U m x → Clear K U' m' x ∧ x ≠ v

theorem Provides.after {U'' : Line} (h : Clears K U m U' m') (p : Provides K U' U'' m' m'' v) :
    Provides K U U'' m m'' v := { p with clears := fun x hx => p.clears x (h x hx) }

namespace Lined

/-- A context from the pool. -/
theorem provides_pooled {o : Object} {next : Value} (h : Lined K U m) (array : v ≠ m.specials.array)
    (hhead : m.pool.head large = some v) (ho : m.memory.get? v = some o)
    (hnext : (o.pointers[Context.sender]?).getD m.specials.nil = next) :
    ∃ U', Provides K U U' m { m with
      pool := m.pool.setHead large (if next = m.specials.nil then none else some next)
      memory := m.memory.replace v (Action.wiped o m.specials.nil) } v := by
  obtain ⟨rest, hfree⟩ : ∃ rest, U.free large = v :: rest := by
    rw [h.lists.head] at hhead
    exact ⟨_, (List.cons_head?_tail hhead).symm⟩
  have hmem : v ∈ U.free large := hfree ▸ List.mem_cons_self
  have hrest : (if next = m.specials.nil then none else some next) = rest.head? := by
    have hstrung := h.lists.strung large
    have hnil := h.lists.some large
    rw [hfree] at hstrung hnil
    obtain ⟨o', ho', hsender⟩ := Memory.cell_eq_some.1 hstrung.1
    obtain rfl := Option.some.inj (ho.symm.trans ho')
    rw [← hnext, hsender]
    cases rest with
    | nil => exact if_pos rfl
    | cons c rest =>
      refine if_neg fun e => hnil ?_
      rw [← e]
      exact List.mem_cons_of_mem v List.mem_cons_self
  obtain ⟨h₁, hclears₁, hcounted, hout⟩ := h.toFormed.unhook
    (m.pool.setHead large rest.head?) hfree fun side => head_setHead ..
  rw [hrest]
  have a : Alters m { m with
      pool := m.pool.setHead large rest.head?
      memory := m.memory.replace v (Action.wiped o m.specials.nil) } v :=
    have a := Alters.modified m v fun _ => Action.wiped o m.specials.nil
    ⟨a.specials, a.later, a.stocked, a.other⟩
  have a' : Alters { m with pool := m.pool.setHead large rest.head? } { m with
      pool := m.pool.setHead large rest.head?
      memory := m.memory.replace v (Action.wiped o m.specials.nil) } v :=
    ⟨a.specials, a.later, a.stocked, a.other⟩
  obtain ⟨h₂, hclears₂⟩ := h₁.alter a' array (h.nil_ne_of_cell (h.idle large v hmem).2) rfl rfl
    hcounted hout
  refine ⟨_, ⟨h₂, h.context, h.apart⟩, ?_, hcounted, hout,
    fun x hx => (hclears₁ x hx).imp_left (hclears₂ x)⟩
  rw [← (h.idle large v hmem).1, cls_of_get? ho]
  refine cls_of_get? (o := Action.wiped o m.specials.nil) ?_
  rw [Memory.replace, Memory.get?_modify, if_pos rfl, ho]
  rfl

/-- A context that is a new object. -/
theorem provides_fresh {o : Object} {pool : ContextPool} (h : Lined K U m)
    (hpool : pool.head = m.pool.head) (ho : o.cls = K.method) (hv : v = (m.memory.place o).1)
    (room : (Action.placed m o).memory.slots.size ≤ 0x100000000)
    (live : (Action.placed m o).memory.isLive v = true) :
    Provides K U U m { Action.placed m o with pool } v := by
  have a : Alters m { Action.placed m o with pool } v :=
    have a : Alters m (Action.placed m o) v := hv ▸ .placed h.stocked o
    ⟨a.specials, a.later, a.stocked, a.other⟩
  have hnew : ¬ m.memory.Issued v := by
    rw [hv]
    exact h.stocked.place_unissued room (hv ▸ live)
  have hne : ∀ {w}, m.memory.Issued w → w ≠ v := fun hw e => hnew (e ▸ hw)
  have hget : (Action.placed m o).memory.get? v = some o := by
    rcases h.stocked.get?_place o v with e | ⟨-, -, e⟩
    · rw [Memory.isLive, Action.placed, e] at live
      exact absurd (Memory.issued_of_isLive live) hnew
    · exact e
  have hcounted : v ∉ U.counted := fun hx =>
    hnew (Memory.issued_of_isLive (h.toFormed.isLive_counted hx))
  have hfree : ∀ large, v ∉ U.free large := fun large hx =>
    hnew (Memory.issued_of_isLive (h.toFormed.isLive_free hx))
  obtain ⟨h₁, hclears⟩ := h.toFormed.alter a (hne (Memory.issued_of_isLive h.live_array)).symm
    (hne h.known).symm rfl hpool hcounted hfree
  refine ⟨⟨h₁, h.context, h.apart⟩, (cls_of_get? hget).trans ?_, hcounted, hfree,
    fun x hx => ⟨hclears x hx, hne hx.issued⟩⟩
  rw [ho]

/-- A context is made while the method is pinned. -/
theorem pinnedContext {method : Value} (h : Lined K U m) :
    Gives (Action.withPins [method] (Action.allocateContext large)) m fun v m' =>
      m'.memory.slots.size ≤ 0x100000000 → m'.memory.isLive v = true → v ≠ m'.specials.array →
        ∃ U', Provides K U U' m m' v := by
  intro v m' hrun room live array
  obtain ⟨m₃, hinner, rfl⟩ := withPins_ok hrun
  obtain ⟨m₂, htrims, hsupplied⟩ := Action.allocateContext_ok hinner
  obtain ⟨h₁, hclears₁⟩ := h.alike (m.withPins (m.memory.pins ++ [method].toArray))
    rfl rfl rfl rfl rfl rfl
  obtain ⟨U₂, -, h₂, hclears₂⟩ := h₁.spares (Undone.of_trims htrims).toSpares
  have hprovides : ∃ U₃, Provides K U₂ U₃ m₂ m₃ v := by
    cases hsupplied with
    | pooled hhead ho hnext => exact h₂.provides_pooled array hhead ho hnext
    | fresh htrims' hhead ho hv =>
      obtain ⟨U₃, -, h₃, hclears₃⟩ := h₂.spares (Undone.of_trims htrims').toSpares
      refine ⟨U₃, .after hclears₃ (h₃.provides_fresh (by rw [hhead.1]; rfl) ?_ hv room live)⟩
      rw [ho]
      exact h₂.method
  obtain ⟨U₃, p⟩ := hprovides
  obtain ⟨h₃, hclears₃⟩ := p.lined.alike (m₃.withPins (m₃.memory.pins.take m.memory.pins.size))
    rfl rfl rfl rfl rfl rfl
  exact ⟨U₃, .after (hclears₁.trans hclears₂) ⟨h₃, p.cls, p.counted, p.free,
    fun x hx => (p.clears x hx).imp_left (hclears₃ x)⟩⟩

end Lined

/-- The last steps into a context that is linked to the active one: the arguments are taken off the
stack, the context is counted, and the registers are set. -/
theorem gives_counting {r : Registers} (hr : r.context = v) : Gives (do
      Action.popN (n + 1)
      modify fun m => { m with reclaimable := m.reclaimable + 1 }
      Action.saveRegisters
      Action.modifyRegisters fun _ => r
      Action.saveRegisters) m fun _ m' =>
        m'.registers.context = v ∧ m'.specials = m.specials ∧
        m'.memory.slots.size = m.memory.slots.size ∧ Stores m m' ∧
        ∀ U, Lined K U m → IsContext K m v →
          m.memory.cell v Context.sender = some m.registers.context → v ∉ U.counted →
          (∀ large, v ∉ U.free large) → v ≠ m.specials.array →
            Lined K { U with counted := v :: U.counted } m' := by
  intro _ m' hrun
  obtain ⟨-, -, -, -, -, rfl⟩ := Action.counted_ok hrun
  generalize hm₂ : Action.counted m (n + 1) = m₂
  have hmemory : m₂.memory = m.memory := by rw [← hm₂]; rfl
  have hcontext : m₂.registers.context = m.registers.context := by rw [← hm₂]; rfl
  have hspecials : m₂.specials = m.specials := by rw [← hm₂]; rfl
  refine ⟨hr, ?_, ?_, ?_, fun U h kind sender counted free array => ?_⟩
  · rw [Action.saved_specials, withRegisters_specials, Action.saved_specials, hspecials]
  · rw [slots_size_saved, withRegisters_memory, slots_size_saved, hmemory]
  · have s : Stores (Action.saved m₂) ((Action.saved m₂).withRegisters r) :=
      .of_memory (withRegisters_memory ..)
    exact .trans (.of_memory hmemory) (.trans .saved (.trans s .saved))
  · have h₁ := h.toFormed.push kind (h.context ▸ sender) counted free
    obtain ⟨h₂, -⟩ := h₁.alike m₂ (by rw [hmemory]) (by rw [hmemory]) hspecials
      (by rw [← hm₂]; rfl) (by rw [← hm₂]; rfl)
    rw [h.context] at hcontext
    obtain ⟨h₃, -⟩ := h₂.saved (by rw [hcontext, hspecials]; exact h.apart)
      (hcontext ▸ h.top_ne_nil) (hcontext ▸ h.top)
    have h₅ : Lined K { U with counted := v :: U.counted } ((Action.saved m₂).withRegisters r) :=
      ⟨(h₃.withRegisters r).1, hr, by
        rw [withRegisters_specials, Action.saved_specials, hspecials]
        exact array⟩
    exact h₅.saved.1

namespace Lined

/-- A method context that is entered is counted. -/
theorem enterMethod {receiver method : Value} (h : Lined K U m) :
    Gives (Action.enterMethod receiver method n) m fun _ m' =>
      m'.memory.slots.size ≤ 0x100000000 → m'.registers.context ≠ m'.specials.array →
        Keeps K U m m' := by
  refine .bind (.get (.bind fun header m₁ hread => ?_))
  obtain ⟨-, rfl⟩ := Action.ofExcept_ok.1 hread
  refine .bind (h.pinnedContext.mono fun v m₁ hprovides => ?_)
  refine .bind (gives_nil (.bind (gives_registers (.bind fun frame m₂ hframe => ?_))))
  obtain ⟨rfl, -, -⟩ := Action.stackValues_ok hframe
  refine .bind (gives_object fun o ho => .ite (fun _ => .bind .throw) fun hsize => ?_)
  have hlarge : 0 < o.pointers.size := by
    simp only [Context.receiver] at hsize
    omega
  refine .bind fun _ m₂ hfill => ?_
  have hm₂ : m₂ = m₁.modified v fun o => Action.fillFrame o m₁.registers.context method
      m₁.specials.nil frame.toArray header.tempCount := (Action.modifyMemory_ok.1 hfill).symm
  have a : Alters m₁ m₂ v := hm₂ ▸ .modified ..
  have hget : m₂.memory.get? v = some (Action.fillFrame o m₁.registers.context method
      m₁.specials.nil frame.toArray header.tempCount) := by
    rw [hm₂, Machine.modified, Memory.get?_modify, if_pos rfl, ho]
    rfl
  have hcell : m₁.memory.cell v Context.sender = some o.pointers[Context.sender] :=
    Memory.cell_eq_some.2 ⟨o, ho, Array.getElem?_eq_getElem hlarge⟩
  have hsender : m₂.memory.cell v Context.sender = some m₁.registers.context :=
    Memory.cell_eq_some.2 ⟨_, hget, fillFrame_sender hlarge⟩
  have hslots : m₂.memory.slots.size = m₁.memory.slots.size := by
    rw [hm₂]
    exact slots_size_modify ..
  have hregisters : m₂.registers = m₁.registers := by rw [hm₂]; rfl
  have hreclaimable : m₂.reclaimable = m₁.reclaimable := by rw [hm₂]; rfl
  have hpool : m₂.pool.head = m₁.pool.head := by rw [hm₂]; rfl
  refine (gives_counting (K := K) (v := v) rfl).mono fun _ m' hcounting room apart => ?_
  obtain ⟨hcontext, hspecials, hsize', s, hcounted⟩ := hcounting
  rw [hcontext, hspecials, a.specials] at apart
  obtain ⟨U₁, p⟩ := hprovides (by omega) (Memory.isLive_of_get? ho) apart
  obtain ⟨h₂, hclears₂⟩ := p.lined.toFormed.alter a apart (p.lined.nil_ne_of_cell hcell) hreclaimable
    hpool p.counted p.free
  have hlined : Lined K U₁ m₂ := ⟨h₂, by rw [hregisters]; exact p.lined.context, by
    rw [a.specials]
    exact p.lined.apart⟩
  have hcls : cls m₂ v = some K.method := by
    rw [← p.cls, cls_of_get? hget, cls_of_get? ho]
    rfl
  refine ⟨_, hcounted U₁ hlined (.inl hcls) (by rw [hregisters]; exact hsender) p.counted p.free
    (by rwa [a.specials]), fun x hx => ?_⟩
  obtain ⟨hx₁, hne⟩ := p.clears x hx
  have hx₂ := hclears₂ x hx₁
  refine ⟨s.later.issued hx₂.issued, hx₂.free, fun hc => ?_⟩
  rw [s.cls]
  exact hx₂.counted ((List.mem_cons.1 hc).resolve_left hne)

end Lined

/-! ### Blocks -/

/-- What stores into a block do that stands on no list. -/
structure Fills (K : Kinds) (U : Line) (v : Value) (m m' : Machine) : Prop where
  keeps : v ≠ m.specials.array → Lined K U m' ∧ Clears K U m U m'
  stores : Stores m m'
  registers : m'.registers = m.registers
  specials : m'.specials = m.specials

theorem Fills.setCell (f : Fills K U v m m') (counted : v ∉ U.counted)
    (free : ∀ large, v ∉ U.free large) (hnil : v ≠ K.nil) : Fills K U v m (m'.setCell v i x) := by
  refine ⟨fun array => ?_, f.stores.trans .setCell, f.registers, f.specials⟩
  obtain ⟨h, hclears⟩ := f.keeps array
  obtain ⟨h₁, hclears₁⟩ := h.toFormed.setCell (i := i) (x := x) (.inl (by rwa [f.specials])) hnil
    (fun hc => absurd hc counted) fun large hx => absurd hx (free large)
  exact ⟨⟨h₁, h.context, h.apart⟩, hclears.trans hclears₁⟩

/-- A block that nobody waits for is not counted, as a counted context has a sender. -/
theorem Formed.not_counted (h : Formed K U m) (hv : m.memory.cell v Context.sender = some K.nil) :
    v ∉ U.counted := by
  intro hc
  obtain ⟨y, hy, hend⟩ := h.strung.linked hc
  obtain rfl := Option.some.inj (hv.symm.trans hy)
  rcases hend with e | hx
  · exact h.base e.symm
  · obtain ⟨z, hz, -⟩ := h.strung.linked hx
    exact h.nil_ne_of_cell hz rfl

/-- The last steps into a block that is linked to the active context. -/
theorem Fills.activate (f : Fills K U v m m')
    (sender : m'.memory.cell v Context.sender = some m.registers.context)
    (kind : cls m v = some K.block) (counted : v ∉ U.counted) : Gives (do
      Action.popN n
      Action.activate v : Attempt Unit) m' fun _ m₁ =>
        m₁.registers.context ≠ m₁.specials.array → Keeps K U m m₁ := by
  refine .bind (Attempt.gives_lift fun _ m₂ hpop => Attempt.gives_lift fun _ m₃ hactivate => ?_)
  obtain ⟨-, hm₂⟩ := Action.popN_ok.1 hpop
  have hcontext : m₂.registers.context = m'.registers.context := by rw [← hm₂]; rfl
  have hspecials : m₂.specials = m'.specials := by rw [← hm₂]; rfl
  obtain ⟨-, r, rfl, hr, -⟩ := Action.activate_ok hactivate
  rw [withRegisters_registers, withRegisters_specials, Action.saved_specials, hspecials, f.specials,
    hr]
  intro apart
  obtain ⟨h, hclears⟩ := f.keeps apart
  rw [← f.registers, h.context] at sender
  obtain ⟨U', h₁, htop, hfree, hclears₁⟩ :=
    h.toFormed.shift ((f.stores.cls v).trans kind) sender counted
  obtain ⟨h₂, hclears₂⟩ := h₁.alike m₂ (by rw [← hm₂]; rfl) (by rw [← hm₂]; rfl) hspecials
    (by rw [← hm₂]; rfl) (by rw [← hm₂]; rfl)
  rw [h.context] at hcontext
  obtain ⟨h₃, hclears₃⟩ := h₂.saved (by rw [hcontext, hspecials]; exact h.apart)
    (hcontext ▸ h.top_ne_nil) (by rw [hcontext, hfree]; exact h.top)
  obtain ⟨h₄, hclears₄⟩ := h₃.withRegisters r
  refine ⟨U', ⟨h₄, hr.trans htop.symm, ?_⟩,
    (hclears.trans hclears₁).trans (hclears₂.trans (hclears₃.trans hclears₄))⟩
  rw [htop, withRegisters_specials, Action.saved_specials, hspecials, f.specials]
  exact apart

/-- A block that is entered comes on top of the line. -/
theorem Lined.blockValue (h : Lined K U m) : Gives (Attempt.blockValue n) m fun _ m' =>
    m'.registers.context ≠ m'.specials.array → Keeps K U m m' := by
  refine .bind (gives_stackValue fun block hle hblock => ?_)
  refine .bind (Attempt.gives_lift (gives_isInstanceOf fun b hb => .bind (Attempt.gives_require ?_)))
  intro he
  obtain ⟨o, ho, hcls⟩ := hb he
  refine .bind (Attempt.gives_looks (.lift Action.fetch_within) fun _ => ?_)
  refine .bind (Attempt.gives_looks .ofOption fun _ => .bind (Attempt.gives_require fun _ => ?_))
  refine .bind (Attempt.gives_lift (Machine.gives_fetch fun caller hcaller => ?_))
  refine .bind (Attempt.gives_lift (gives_nil (.bind (Attempt.gives_require fun hidle => ?_))))
  refine .bind (Attempt.gives_looks (.lift Action.object_within) fun _ => ?_)
  refine .bind (Attempt.gives_require fun _ => .bind (Attempt.gives_lift fun arguments _ hread => ?_))
  obtain ⟨rfl, -, -⟩ := Action.stackValues_ok hread
  refine .bind (Attempt.gives_lift (Machine.gives_fetch fun start _ => ?_))
  refine .bind (Attempt.gives_lift (gives_registers ?_))
  have hkind : cls m block = some K.block := by rw [cls_of_get? ho, hcls, h.block]
  have hnil : block ≠ K.nil := h.nil_ne_of_cell hcaller
  have hcounted : block ∉ U.counted := h.not_counted (by
    rw [← h.nil, ← hidle]
    exact hcaller)
  have hfree : ∀ large, block ∉ U.free large := fun large => h.not_free_of_block hkind
  refine .bind ((Gives.forM (P := Fills K U block m) (fun p hp m₁ f => ?_)
    ⟨fun _ => ⟨h, fun _ hx => hx⟩, .refl m, rfl, rfl⟩).mono fun _ m₁ f => ?_)
  · exact Attempt.gives_lift (Machine.gives_store fun _ _ => f.setCell hcounted hfree hnil)
  refine .bind (Attempt.gives_lift (Machine.gives_store fun _ _ => ?_))
  have f := f.setCell (i := Context.instructionPointer) (x := start) hcounted hfree hnil
  refine .bind (Attempt.gives_lift (Machine.gives_store fun _ _ => ?_))
  have f := f.setCell (i := Context.stackPointer) (x := .small n) hcounted hfree hnil
  refine .bind (Attempt.gives_lift (Machine.gives_store fun y hy => ?_))
  have f := f.setCell (i := Context.caller) (x := m.registers.context) hcounted hfree hnil
  refine f.activate ?_ hkind hcounted
  rw [Recycling.cell_setCell, if_pos ⟨rfl, rfl⟩, hy]
  rfl

end Smalltalk.Lineup
