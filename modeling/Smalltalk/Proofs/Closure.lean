import Smalltalk.Proofs.Room

/-!
# Closed machines

A machine is closed when nothing it holds, and no field of an object, is a stale reference. Changing
a field keeps it closed as long as what is stored resolves. An allocation is where things go wrong: it
may free whatever is not held at that moment. A value is anchored when the machine can reach it from
its registers, its special objects or its pins; what is anchored survives any allocation, and what is
read from something anchored is anchored too.
-/

namespace Smalltalk

namespace Memory

variable {m m' : Memory} {v w x c : Value} {ps : Array Value} {o : Object}

/-- A value that is an immediate integer or refers to an object. -/
def Resolves (m : Memory) (v : Value) : Prop := v.isSmall = true ∨ m.isLive v = true

/-- The class and the pointer fields of the object a value refers to. -/
def shape (m : Memory) (v : Value) : Option (Value × Array Value) :=
  (m.get? v).map fun o => (o.cls, o.pointers)

theorem shape_eq_some : m.shape v = some (c, ps) ↔
    ∃ o, m.get? v = some o ∧ o.cls = c ∧ o.pointers = ps := by
  rw [shape, Option.map_eq_some_iff]
  simp only [Prod.mk.injEq]

theorem shape_of_get? (h : m.get? v = some o) : m.shape v = some (o.cls, o.pointers) := by
  rw [shape, h, Option.map_some]

theorem shape_congr (h : m'.get? v = m.get? v) : m'.shape v = m.shape v := by rw [shape, shape, h]

theorem isLive_iff_shape : m.isLive v = true ↔ ∃ s, m.shape v = some s := by
  rw [isLive, ← Option.isSome_iff_exists, shape, Option.isSome_map]

theorem cell_eq_shape (m : Memory) (v : Value) (i : Nat) :
    m.cell v i = (m.shape v).bind fun s => s.2[i]? := by
  rw [cell, shape]
  cases m.get? v <;> rfl

theorem cell_congr {i : Nat} (h : m'.shape v = m.shape v) : m'.cell v i = m.cell v i := by
  rw [cell_eq_shape, cell_eq_shape, h]

theorem mem_of_cell {i : Nat} (h : m.cell v i = some x) :
    ∃ c ps, m.shape v = some (c, ps) ∧ x ∈ c :: ps.toList := by
  rw [cell_eq_shape, Option.bind_eq_some_iff] at h
  obtain ⟨⟨c, ps⟩, hs, hx⟩ := h
  exact ⟨c, ps, hs, List.mem_cons_of_mem c (Array.mem_toList_iff.2 (Array.mem_of_getElem? hx))⟩

/-- What is reachable depends on the shapes of the objects on the way only. -/
theorem Reachable.of_shape {roots : List Value} (h : m.Reachable roots v)
    (same : ∀ w, m.Reachable roots w → m'.shape w = m.shape w) : m'.Reachable roots v := by
  have live' : ∀ {w}, m.Reachable roots w → m'.isLive w = true := by
    intro w hw
    rw [isLive_iff_shape, same w hw]
    exact isLive_iff_shape.1 hw.live
  induction h with
  | root hv live => exact .root hv (live' (.root hv live))
  | field hw ho hx live ih =>
    have hshape := (same _ hw).trans (shape_of_get? ho)
    obtain ⟨o', ho', hcls, hps⟩ := shape_eq_some.1 hshape
    refine ih.field ho' ?_ (live' (hw.field ho hx live))
    rw [hcls, hps]
    exact hx

/-- What an object refers to is reachable when the object is. -/
theorem Reachable.shape {roots : List Value} (h : m.Reachable roots v)
    (hs : m.shape v = some (c, ps)) (hx : x ∈ c :: ps.toList) (live : m.isLive x = true) :
    m.Reachable roots x := by
  obtain ⟨o, ho, rfl, rfl⟩ := shape_eq_some.1 hs
  exact h.field ho hx live

/-- A change of one object that leaves class and pointers alone is not seen in any shape. -/
theorem shape_modify (m : Memory) (v w : Value) {f : Object → Object}
    (hf : ∀ o, (f o).cls = o.cls ∧ (f o).pointers = o.pointers) :
    (m.modify v f).shape w = m.shape w := by
  rw [shape, shape, get?_modify]
  by_cases hw : w = v
  · subst hw
    rw [if_pos rfl]
    cases m.get? w with
    | none => rfl
    | some o => simp [hf o]
  · rw [if_neg hw]

theorem shape_setField (m : Memory) (v w : Value) (i : Nat) (x : Value) :
    (m.setField v i x).shape w =
      if w = v then (m.shape v).map fun s => (s.1, s.2.setIfInBounds i x) else m.shape w := by
  rw [shape, get?_setField]
  by_cases hw : w = v
  · rw [if_pos hw, if_pos hw, shape, Option.map_map, Option.map_map]
    rfl
  · rw [if_neg hw, if_neg hw, shape]

end Memory

/-- The values a machine keeps outside of its objects. -/
def Machine.held (m : Machine) : List Value :=
  [m.specials.array, m.specials.nil, m.specials.falseObject, m.specials.trueObject,
    m.registers.context, m.registers.home, m.registers.method, m.registers.receiver] ++
    m.memory.pins.toList ++ m.pool.roots

/-- Nil, false and true are the first entries of the special objects. -/
structure Machine.Coherent (m : Machine) : Prop where
  nil : m.memory.cell m.specials.array Special.nilObject = some m.specials.nil
  falseObject : m.memory.cell m.specials.array Special.falseObject = some m.specials.falseObject
  trueObject : m.memory.cell m.specials.array Special.trueObject = some m.specials.trueObject

/-- Nothing that a machine or one of its objects holds is a stale reference. -/
structure Machine.Closed (m : Machine) : Prop where
  fields : ∀ v o, m.memory.get? v = some o → ∀ x ∈ o.cls :: o.pointers.toList,
    m.memory.Resolves x
  held : ∀ v ∈ m.held, m.memory.Resolves v
  coherent : m.Coherent

/-- What is left of a closed machine when its special objects may have been changed. -/
structure Machine.Secure (m : Machine) : Prop where
  wellFormed : m.memory.WellFormed
  fields : ∀ v c ps, m.memory.shape v = some (c, ps) → ∀ x ∈ c :: ps.toList, m.memory.Resolves x
  held : ∀ v ∈ m.held, m.memory.Resolves v

/-- A machine that is secure while its memory can be addressed. -/
structure Machine.Safe (m : Machine) (s : SpecialObjects) : Prop where
  specials : m.specials = s
  stocked : m.memory.Stocked
  secure : m.memory.Addressable → m.Secure

/-- A machine that may allocate: the special objects are those it knows, and the active frame is not
their array, so that pushing cannot change them. -/
structure Machine.Sound (m : Machine) (s : SpecialObjects) : Prop extends m.Safe s where
  coherent : m.memory.Addressable → m.Coherent
  frame : m.registers.context ≠ m.specials.array

/-- A value that refers to an object, as long as the memory can be addressed. -/
def Machine.Proper (m : Machine) (v : Value) : Prop := m.memory.Addressable → m.memory.Resolves v

/-- A value that the machine can reach from what it holds. -/
def Machine.Anchored (m : Machine) (v : Value) : Prop :=
  m.memory.Addressable → v.isSmall = true ∨ m.memory.Reachable m.anchors v

namespace Machine

variable {m m' : Machine} {s : SpecialObjects} {v x : Value} {i : Nat}

theorem Anchored.proper (h : m.Anchored v) : m.Proper v := fun room =>
  (h room).imp_right Memory.Reachable.live

theorem proper_small (n : Int) : m.Proper (.small n) := fun _ => .inl rfl

theorem anchored_small (n : Int) : m.Anchored (.small n) := fun _ => .inl rfl

theorem Safe.proper_of_shape {c : Value} {ps : Array Value} (h : m.Safe s)
    (hs : m.memory.shape v = some (c, ps)) (hx : x ∈ c :: ps.toList) : m.Proper x := fun room =>
  (h.secure room).fields v c ps hs x hx

theorem Safe.proper_of_cell (h : m.Safe s) (hx : m.memory.cell v i = some x) : m.Proper x := by
  obtain ⟨c, ps, hs, hmem⟩ := Memory.mem_of_cell hx
  exact h.proper_of_shape hs hmem

theorem Safe.proper_of_held (h : m.Safe s) (hv : v ∈ m.held) : m.Proper v := fun room =>
  (h.secure room).held v hv

/-- What something anchored refers to is anchored. -/
theorem Anchored.shape {c : Value} {ps : Array Value} (hv : m.Anchored v) (h : m.Safe s)
    (hs : m.memory.shape v = some (c, ps)) (hx : x ∈ c :: ps.toList) : m.Anchored x := by
  intro room
  rcases h.proper_of_shape hs hx room with hsmall | live
  · exact .inl hsmall
  · rcases hv room with hsmall | hreach
    · obtain ⟨o, ho, -⟩ := Memory.shape_eq_some.1 hs
      cases v with
      | small n => exact absurd ho (by simp)
      | ref index generation => exact absurd hsmall (by simp [Value.isSmall])
    · exact .inr (hreach.shape hs hx live)

theorem Anchored.cell (hv : m.Anchored v) (h : m.Safe s) (hx : m.memory.cell v i = some x) :
    m.Anchored x := by
  obtain ⟨c, ps, hs, hmem⟩ := Memory.mem_of_cell hx
  exact hv.shape h hs hmem

theorem Anchored.cls {o : Object} (hv : m.Anchored v) (h : m.Safe s)
    (ho : m.memory.get? v = some o) : m.Anchored o.cls :=
  hv.shape h (Memory.shape_of_get? ho) List.mem_cons_self

theorem Anchored.pointer {o : Object} (hv : m.Anchored v) (h : m.Safe s)
    (ho : m.memory.get? v = some o) (hx : x ∈ o.pointers) : m.Anchored x :=
  hv.shape h (Memory.shape_of_get? ho) (List.mem_cons_of_mem _ (Array.mem_toList_iff.2 hx))

/-- What is both held and an anchor is anchored. -/
theorem Safe.anchored (h : m.Safe s) (hv : v ∈ m.anchors) (hheld : v ∈ m.held) : m.Anchored v :=
  fun room => (h.proper_of_held hheld room).imp_right fun live => .root hv live

theorem Safe.anchored_array (h : m.Safe s) : m.Anchored m.specials.array :=
  h.anchored (by simp [anchors]) (by simp [held])

theorem Safe.anchored_context (h : m.Safe s) : m.Anchored m.registers.context :=
  h.anchored (by simp [anchors]) (by simp [held])

theorem Safe.anchored_home (h : m.Safe s) : m.Anchored m.registers.home :=
  h.anchored (by simp [anchors]) (by simp [held])

theorem Safe.anchored_method (h : m.Safe s) : m.Anchored m.registers.method :=
  h.anchored (by simp [anchors]) (by simp [held])

theorem Safe.anchored_receiver (h : m.Safe s) : m.Anchored m.registers.receiver :=
  h.anchored (by simp [anchors]) (by simp [held])

theorem Sound.anchored_nil (h : m.Sound s) : m.Anchored m.specials.nil :=
  fun room => h.anchored_array.cell h.toSafe (h.coherent room).nil room

theorem Sound.anchored_truth (h : m.Sound s) (b : Bool) : m.Anchored (m.specials.truth b) := by
  intro room
  cases b with
  | false => exact h.anchored_array.cell h.toSafe (h.coherent room).falseObject room
  | true => exact h.anchored_array.cell h.toSafe (h.coherent room).trueObject room

theorem Sound.anchored_special (h : m.Sound s) (i : Nat) :
    m.Anchored (m.specials.get m.memory i) := by
  have hget : m.specials.get m.memory i =
      (m.memory.cell m.specials.array i).getD m.specials.nil := rfl
  rw [hget]
  cases hx : m.memory.cell m.specials.array i with
  | none => exact h.anchored_nil
  | some x => exact h.anchored_array.cell h.toSafe hx

/-! ### Changing the machine -/

theorem Proper.mono (later : m.memory.Later m'.memory)
    (live : ∀ v, m.memory.isLive v = true → m'.memory.isLive v = true) (h : m.Proper v) :
    m'.Proper v := fun room => (h (later.addressable room)).imp_right (live v)

/-- The general rule: nothing goes, and whatever is held or stored afterwards was proper before. -/
theorem Safe.update (h : m.Safe s) (specials : m'.specials = m.specials)
    (later : m.memory.Later m'.memory) (stocked : m'.memory.Stocked)
    (wellFormed : m.memory.WellFormed → m'.memory.WellFormed)
    (live : ∀ v, m.memory.isLive v = true → m'.memory.isLive v = true)
    (fields : ∀ v c ps, m'.memory.shape v = some (c, ps) → ∀ x ∈ c :: ps.toList, m.Proper x)
    (held : ∀ v ∈ m'.held, m.Proper v) : m'.Safe s where
  specials := specials.trans h.specials
  stocked := stocked
  secure room :=
    ⟨wellFormed (h.secure (later.addressable room)).wellFormed,
      fun v c ps hs x hx => (fields v c ps hs x hx).mono later live room,
      fun v hv => (held v hv).mono later live room⟩

theorem wellFormed_modify {memory : Memory} (h : memory.WellFormed) (v : Value)
    (f : Object → Object) : (memory.modify v f).WellFormed := by
  have htable : (memory.modify v f).table = memory.table := by rw [Memory.modify_frame]
  refine ⟨⟨fun w => ?_, ?_⟩, h.toStocked.modify v f⟩
  · rw [htable, Memory.isLive_modify]
    exact h.listed w
  · rw [htable]
    exact h.once

theorem modify_pins (memory : Memory) (v : Value) (f : Object → Object) :
    (memory.modify v f).pins = memory.pins := by rw [Memory.modify_frame]

/-- The machine with one object changed. -/
def modified (m : Machine) (v : Value) (f : Object → Object) : Machine :=
  { m with memory := m.memory.modify v f }

theorem held_modified (m : Machine) (v : Value) (f : Object → Object) :
    (m.modified v f).held = m.held := by
  simp only [held, modified, modify_pins]

/-- Changing an object is safe if its new fields are proper. -/
theorem Safe.modified (h : m.Safe s) {f : Object → Object}
    (hf : ∀ o, m.memory.get? v = some o →
      ∀ x ∈ (f o).cls :: (f o).pointers.toList, m.Proper x) : (m.modified v f).Safe s := by
  refine h.update rfl (Memory.later_modify ..) (h.stocked.modify v f)
    (fun hw => wellFormed_modify hw v f)
    (fun w live => by rw [Machine.modified, Memory.isLive_modify]; exact live) ?_ ?_
  · intro w c ps hs x hx
    rw [Machine.modified, Memory.shape, Memory.get?_modify] at hs
    by_cases hw : w = v
    · subst hw
      rw [if_pos rfl] at hs
      cases ho : m.memory.get? w with
      | none => simp [ho] at hs
      | some o =>
        simp only [ho, Option.map_some, Option.some.injEq, Prod.mk.injEq] at hs
        obtain ⟨rfl, rfl⟩ := hs
        exact hf o ho x hx
    · rw [if_neg hw] at hs
      exact h.proper_of_shape hs hx
  · intro w hw
    rw [held_modified] at hw
    exact h.proper_of_held hw

/-- A change of a raw part is safe. -/
theorem Safe.modified_body (h : m.Safe s) {f : Object → Object}
    (hf : ∀ o, (f o).cls = o.cls ∧ (f o).pointers = o.pointers) : (m.modified v f).Safe s := by
  refine h.modified fun o ho x hx => ?_
  rw [(hf o).1, (hf o).2] at hx
  exact h.proper_of_shape (Memory.shape_of_get? ho) hx

theorem setCell_eq (m : Machine) (v : Value) (i : Nat) (x : Value) :
    m.setCell v i x = m.modified v fun o => o.setPointer i x := rfl

/-- Storing what is proper is safe. -/
theorem Safe.setCell (h : m.Safe s) (hx : m.Proper x) : (m.setCell v i x).Safe s := by
  rw [setCell_eq]
  refine h.modified fun o ho y hy => ?_
  rcases List.mem_cons.1 hy with rfl | hy
  · exact h.proper_of_shape (Memory.shape_of_get? ho) List.mem_cons_self
  · have hy : y ∈ o.pointers.setIfInBounds i x := Array.mem_toList_iff.1 hy
    rcases Array.mem_or_eq_of_mem_setIfInBounds hy with hy | rfl
    · exact h.proper_of_shape (Memory.shape_of_get? ho)
        (List.mem_cons_of_mem _ (Array.mem_toList_iff.2 hy))
    · exact hx

theorem Coherent.of_cell (h : m.Coherent) (hspecials : m'.specials = m.specials)
    (hcell : ∀ i, m'.memory.cell m.specials.array i = m.memory.cell m.specials.array i) :
    m'.Coherent := by
  refine ⟨?_, ?_, ?_⟩
  · rw [hspecials, hcell, h.nil]
  · rw [hspecials, hcell, h.falseObject]
  · rw [hspecials, hcell, h.trueObject]

/-- Storing outside of the special objects keeps the machine ready to allocate. -/
theorem Sound.setCell (h : m.Sound s) (hx : m.Proper x)
    (hv : m.memory.Addressable → v ≠ m.specials.array) : (m.setCell v i x).Sound s where
  toSafe := h.toSafe.setCell hx
  coherent room := by
    have room' := (Memory.later_modify m.memory v _).addressable room
    refine (h.coherent room').of_cell rfl fun j => ?_
    rw [Machine.setCell, Memory.cell_setField, if_neg fun e => hv room' e.1.symm]
  frame := h.frame

theorem Sound.modified_body (h : m.Sound s) {f : Object → Object}
    (hf : ∀ o, (f o).cls = o.cls ∧ (f o).pointers = o.pointers) : (m.modified v f).Sound s where
  toSafe := h.toSafe.modified_body hf
  coherent room :=
    (h.coherent ((Memory.later_modify m.memory v _).addressable room)).of_cell rfl fun _ =>
      Memory.cell_congr (Memory.shape_modify m.memory v _ hf)
  frame := h.frame

/-- The registers may be loaded with proper values. -/
theorem Safe.withRegisters {r : Registers} (h : m.Safe s) (context : m.Proper r.context)
    (home : m.Proper r.home) (method : m.Proper r.method) (receiver : m.Proper r.receiver) :
    (m.withRegisters r).Safe s := by
  refine h.update rfl (.refl _) h.stocked id (fun _ => id) (fun v c ps hs x hx =>
    h.proper_of_shape hs hx) fun v hv => ?_
  simp only [held, Machine.withRegisters, List.mem_append, List.mem_cons, List.not_mem_nil,
    or_false] at hv
  rcases hv with ((rfl | rfl | rfl | rfl | rfl | rfl | rfl | rfl) | hv) | hv
  · exact h.proper_of_held (by simp [held])
  · exact h.proper_of_held (by simp [held])
  · exact h.proper_of_held (by simp [held])
  · exact h.proper_of_held (by simp [held])
  · exact context
  · exact home
  · exact method
  · exact receiver
  · exact h.proper_of_held (List.mem_append_left _ (List.mem_append_right _ hv))
  · exact h.proper_of_held (List.mem_append_right _ hv)

/-- Moving the stack pointer is safe. -/
theorem Safe.withSp (h : m.Safe s) (sp : Nat) : (m.withRegisters { m.registers with sp }).Safe s :=
  h.withRegisters (h.proper_of_held (by simp [held])) (h.proper_of_held (by simp [held]))
    (h.proper_of_held (by simp [held])) (h.proper_of_held (by simp [held]))

theorem Sound.withSp (h : m.Sound s) (sp : Nat) : (m.withRegisters { m.registers with sp }).Sound s :=
  ⟨h.toSafe.withSp sp, fun room => (h.coherent room).of_cell rfl fun _ => rfl, h.frame⟩

/-- Two machines that differ in nothing that is held. -/
structure Alike (m m' : Machine) : Prop where
  memory : m'.memory = m.memory
  specials : m'.specials = m.specials
  registers : m'.registers = m.registers
  pool : m'.pool.roots = m.pool.roots

theorem Alike.held (h : Alike m m') : m'.held = m.held := by
  rw [Machine.held, Machine.held, h.memory, h.specials, h.registers, h.pool]

theorem Safe.alike (h : m.Safe s) (e : Alike m m') : m'.Safe s := by
  refine h.update e.specials (.of_slots (by rw [e.memory])) (e.memory ▸ h.stocked) (by rw [e.memory]; exact id)
    (fun _ live => by rw [e.memory]; exact live) (fun v c ps hs x hx => ?_) fun v hv => ?_
  · rw [e.memory] at hs
    exact h.proper_of_shape hs hx
  · rw [e.held] at hv
    exact h.proper_of_held hv

theorem Sound.alike (h : m.Sound s) (e : Alike m m') : m'.Sound s where
  toSafe := h.toSafe.alike e
  coherent room := by
    rw [e.memory] at room
    exact (h.coherent room).of_cell e.specials fun i => by rw [e.memory]
  frame := by
    rw [e.registers, e.specials]
    exact h.frame

theorem Anchored.alike (hv : m.Anchored v) (e : Alike m m') : m'.Anchored v := by
  intro room
  rw [e.memory] at room
  rw [e.memory, anchors, e.memory, e.specials, e.registers]
  exact hv room

/-! ### Allocating -/

/-- What is reachable from the anchors stays so while the anchors and the shapes of what is
reachable stay. -/
theorem Anchored.keep (hv : m.Anchored v) (later : m.memory.Later m'.memory)
    (anchors : m'.anchors = m.anchors)
    (kept : ∀ w, m.memory.Reachable m.anchors w → m'.memory.shape w = m.memory.shape w) :
    m'.Anchored v := by
  intro room
  rcases hv (later.addressable room) with hsmall | hreach
  · exact .inl hsmall
  · rw [anchors]
    exact .inr (hreach.of_shape kept)

theorem Coherent.keep (h : m.Coherent) (specials : m'.specials = m.specials)
    (kept : ∀ w, m.memory.Reachable m.anchors w → m'.memory.shape w = m.memory.shape w) :
    m'.Coherent := by
  have hreach : m.memory.Reachable m.anchors m.specials.array :=
    .root (by simp [Machine.anchors]) (Memory.isLive_of_cell h.nil)
  exact h.of_cell specials fun i => Memory.cell_congr (kept _ hreach)

end Machine

namespace Trims

variable {m m' : Machine} {s : SpecialObjects} {v : Value}

theorem specials (h : Trims m m') : m'.specials = m.specials := by rw [h.frame]

theorem registers (h : Trims m m') : m'.registers = m.registers := by rw [h.frame]

theorem shape (h : Trims m m') {w : Value} (hw : m.memory.Reachable m.anchors w) :
    m'.memory.shape w = m.memory.shape w :=
  Memory.shape_congr (h.kept w (hw.mono (List.subset_append_left _ _)))

theorem anchored (h : Trims m m') (hv : m.Anchored v) : m'.Anchored v :=
  hv.keep h.later h.anchors fun _ hw => h.shape hw

/-- Making room leaves a sound machine sound. -/
theorem sound (ht : Trims m m') (h : m.Sound s) : m'.Sound s := by
  have coherent : m'.memory.Addressable → m'.Coherent := fun room =>
    (h.coherent (ht.later.addressable room)).keep ht.specials fun _ hw => ht.shape hw
  refine ⟨⟨ht.specials.trans h.specials, ht.stocked h.stocked, fun room => ?_⟩, coherent, ?_⟩
  · have hsec := h.secure (ht.later.addressable room)
    have fields : ∀ v c ps, m'.memory.shape v = some (c, ps) → ∀ x ∈ c :: ps.toList,
        m'.memory.Resolves x := by
      intro v c ps hs x hx
      obtain ⟨o, ho, rfl, rfl⟩ := Memory.shape_eq_some.1 hs
      have hx' := hsec.fields v _ _ (Memory.shape_of_get? (ht.object v o ho)) x hx
      exact hx'.imp_right (ht.fields hsec.wellFormed v o ho x hx)
    have known : ∀ {i : Nat} {x : Value}, m'.memory.cell m'.specials.array i = some x →
        m'.memory.Resolves x := by
      intro i x hx
      obtain ⟨c, ps, hs, hmem⟩ := Memory.mem_of_cell hx
      exact fields _ c ps hs x hmem
    have root : ∀ v ∈ m.anchors ++ m'.pool.roots, v ∈ m.held → m'.memory.Resolves v := by
      intro v hv hheld
      refine (hsec.held v hheld).imp_right fun live => ?_
      rw [Memory.isLive, ht.kept v (.root hv live)]
      exact live
    refine ⟨ht.wellFormed hsec.wellFormed, fields, fun v hv => ?_⟩
    rw [Machine.held, ht.pins, ht.registers] at hv
    simp only [List.mem_append, List.mem_cons, List.not_mem_nil, or_false] at hv
    rcases hv with ((rfl | rfl | rfl | rfl | rfl | rfl | rfl | rfl) | hv) | hv
    · rw [ht.specials]
      exact root _ (by simp [Machine.anchors]) (by simp [Machine.held])
    · exact known (coherent room).nil
    · exact known (coherent room).falseObject
    · exact known (coherent room).trueObject
    · exact root _ (by simp [Machine.anchors]) (by simp [Machine.held])
    · exact root _ (by simp [Machine.anchors]) (by simp [Machine.held])
    · exact root _ (by simp [Machine.anchors]) (by simp [Machine.held])
    · exact root _ (by simp [Machine.anchors]) (by simp [Machine.held])
    · exact root v (List.mem_append_left _ (List.mem_append_right _ hv))
        (List.mem_append_left _ (List.mem_append_right _ hv))
    · exact root v (List.mem_append_right _ hv) (List.mem_append_right _ (ht.pool_roots hv))
  · rw [ht.registers, ht.specials]
    exact h.frame

end Trims

namespace Machine

variable {m m' : Machine} {s : SpecialObjects} {v x : Value} {o : Object}

theorem place_pins (memory : Memory) (o : Object) : (memory.place o).2.pins = memory.pins := by
  cases hf : memory.free with
  | nil => simp [Memory.place, hf]
  | cons i free => simp [Memory.place, hf]

theorem shape_placed (h : m.memory.Stocked) (live : m.memory.isLive v = true) :
    (Action.placed m o).memory.shape v = m.memory.shape v := by
  rcases h.get?_place o v with e | ⟨-, e, -⟩
  · exact Memory.shape_congr e
  · rw [Memory.get?_eq_none.1 e] at live
    exact absurd live (by simp)

/-- A new object with proper fields. -/
theorem Sound.placed (h : m.Sound s) (ho : ∀ x ∈ o.cls :: o.pointers.toList, m.Proper x) :
    (Action.placed m o).Sound s := by
  have hpins := place_pins m.memory o
  have live : ∀ w, m.memory.isLive w = true → (Action.placed m o).memory.isLive w = true := by
    intro w hw
    rw [Memory.isLive_iff_shape, shape_placed h.stocked hw]
    exact Memory.isLive_iff_shape.1 hw
  have later : m.memory.Later (Action.placed m o).memory := Memory.later_place m.memory o
  have coherent : (Action.placed m o).memory.Addressable → (Action.placed m o).Coherent := by
    intro room
    have known := h.coherent (later.addressable room)
    exact known.of_cell rfl fun i =>
      Memory.cell_congr (shape_placed h.stocked (Memory.isLive_of_cell known.nil))
  have fields : ∀ v c ps, (Action.placed m o).memory.shape v = some (c, ps) →
      ∀ x ∈ c :: ps.toList, m.Proper x := by
    intro v c ps hs x hx
    rcases h.stocked.get?_place o v with e | ⟨-, -, e⟩
    · rw [Action.placed, Memory.shape_congr e] at hs
      exact h.proper_of_shape hs hx
    · rw [Action.placed, Memory.shape, e, Option.map_some, Option.some.injEq, Prod.mk.injEq] at hs
      obtain ⟨rfl, rfl⟩ := hs
      exact ho x hx
  refine ⟨⟨h.specials, h.stocked.place, fun room => ⟨?_, ?_, ?_⟩⟩, coherent, h.frame⟩
  · exact (h.secure (later.addressable room)).wellFormed.place room
  · exact fun v c ps hs x hx => (fields v c ps hs x hx).mono later live room
  · intro v hv
    rw [Machine.held, Action.placed, hpins] at hv
    exact (h.proper_of_held hv).mono later live room

/-- What an allocation of the value `v` leaves behind. -/
structure Allots (s : SpecialObjects) (m : Machine) (v : Value) (m' : Machine) : Prop where
  sound : m'.Sound s
  proper : m'.Proper v
  fresh : m'.memory.Addressable → ∀ w, m.memory.Reachable m.anchors w → w ≠ v
  later : m.memory.Later m'.memory
  kept : ∀ w, m.memory.Reachable m.anchors w → m'.memory.shape w = m.memory.shape w
  registers : m'.registers = m.registers
  specials : m'.specials = m.specials
  pins : m'.memory.pins = m.memory.pins

theorem Allots.anchors (h : Allots s m v m') : m'.anchors = m.anchors := by
  rw [Machine.anchors, h.registers, h.specials, h.pins]
  rfl

theorem Allots.anchored (h : Allots s m v m') (hx : m.Anchored x) : m'.Anchored x :=
  hx.keep h.later h.anchors h.kept

theorem allots_placed (h : m.Sound s) (ho : ∀ x ∈ o.cls :: o.pointers.toList, m.Proper x) :
    Allots s m (m.memory.place o).1 (Action.placed m o) where
  sound := h.placed ho
  proper room := by
    have hwf := (h.secure ((Memory.later_place m.memory o).addressable room)).wellFormed
    refine .inr (Memory.isLive_of_get? (o := o) ?_)
    rw [Action.placed, Memory.get?_place (hwf.placeable room), if_pos rfl]
  fresh room w hw e := by
    have hwf := (h.secure ((Memory.later_place m.memory o).addressable room)).wellFormed
    have hfresh := Memory.place_fresh (o := o) (hwf.placeable room)
    rw [← e, hw.live] at hfresh
    exact absurd hfresh (by simp)
  later := Memory.later_place m.memory o
  kept w hw := shape_placed h.stocked hw.live
  registers := rfl
  specials := rfl
  pins := place_pins m.memory o

/-- Allocating an object whose fields are anchored. -/
theorem allocate_allots (h : m.Sound s) (ho : ∀ x ∈ o.cls :: o.pointers.toList, m.Anchored x)
    (hrun : Action.allocate o m = .ok v m') : Allots s m v m' := by
  obtain ⟨m₁, hash, ht, rfl, rfl⟩ := Action.allocate_ok hrun
  have hplaced := allots_placed (o := { o with hash }) (ht.sound h) fun x hx =>
    (ht.anchored (ho x hx)).proper
  have reach : ∀ {w}, m.memory.Reachable m.anchors w → m₁.memory.Reachable m₁.anchors w := by
    intro w hw
    rw [ht.anchors]
    exact hw.of_shape fun _ hw => ht.shape hw
  refine ⟨hplaced.sound, hplaced.proper, fun room w hw => hplaced.fresh room w (reach hw),
    ht.later.trans hplaced.later, fun w hw => ?_, hplaced.registers.trans ht.registers,
    hplaced.specials.trans ht.specials, hplaced.pins.trans ht.pins⟩
  rw [hplaced.kept w (reach hw), ht.shape hw]

end Machine

end Smalltalk
