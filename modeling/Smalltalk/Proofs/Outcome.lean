import Mathlib.Tactic.Common
import Smalltalk.Bytecode.Execute
import Smalltalk.Proofs.Memory

/-!
# How actions end

What it means for an action to end with an answer, for the building blocks the others are made of.
An action that only looks leaves the machine as it was; the fields of the objects are seen through
`cell`, and a store changes one cell.
-/

namespace Smalltalk

/-- Pointer field `i` of the object a value refers to. -/
def Memory.cell (m : Memory) (v : Value) (i : Nat) : Option Value :=
  (m.get? v).bind fun o => o.pointers[i]?

theorem Memory.cell_eq_some {m : Memory} {v x : Value} {i : Nat} :
    m.cell v i = some x ↔ ∃ o, m.get? v = some o ∧ o.pointers[i]? = some x := by
  rw [cell, Option.bind_eq_some_iff]

theorem Memory.isLive_of_cell {m : Memory} {v x : Value} {i : Nat} (h : m.cell v i = some x) :
    m.isLive v = true := by
  obtain ⟨o, ho, -⟩ := cell_eq_some.1 h
  exact isLive_of_get? ho

/-- A store changes one cell. -/
theorem Memory.cell_setField (m : Memory) (v w : Value) (i j : Nat) (x : Value) :
    (m.setField v i x).cell w j =
      if w = v ∧ j = i then (m.cell v i).map fun _ => x else m.cell w j := by
  rw [cell, get?_setField]
  by_cases hw : w = v
  · subst hw
    cases ho : m.get? w with
    | none => simp [cell, ho]
    | some o =>
      by_cases hj : j = i
      · subst hj
        by_cases hlt : j < o.pointers.size
        · simp [cell, ho, Object.setPointer, hlt]
        · simp [cell, ho, Object.setPointer, hlt]
      · simp [cell, ho, hj, Object.setPointer, Array.getElem?_setIfInBounds_ne (Ne.symm hj)]
  · simp [hw, cell]

/-- Storing what is there changes nothing. -/
theorem Memory.setField_self {m : Memory} {v x : Value} {i : Nat} (h : m.cell v i = some x) :
    m.setField v i x = m := by
  obtain ⟨o, ho, hx⟩ := cell_eq_some.1 h
  have ho' := ho
  obtain ⟨index, generation, slot, rfl, hslot, -, hobject⟩ := get?_eq_some.1 ho
  have hpointer : o.setPointer i x = o := by
    obtain ⟨hi, rfl⟩ := Array.getElem?_eq_some_iff.1 hx
    rw [Object.setPointer, Array.setIfInBounds_def, dif_pos hi, Array.set_getElem_self]
  have hslots : m.slots.modify index.toNat
      (fun slot => { slot with object := slot.object.map fun o => o.setPointer i x }) = m.slots := by
    refine Array.ext_getElem? fun j => ?_
    rw [Array.getElem?_modify]
    split
    · rename_i hj
      subst hj
      rw [hslot, Option.map_some, hobject, Option.map_some, hpointer, ← hobject]
    · rfl
  rw [setField, modify, if_pos (isLive_of_get? ho'), modifyAt, hslots]

/-- The machine with one cell changed. -/
def Machine.setCell (m : Machine) (v : Value) (i : Nat) (x : Value) : Machine :=
  { m with memory := m.memory.setField v i x }

/-- Between two steps time goes by, devices take input, and the user may ask for an interrupt. -/
def Machine.Elapses (m m' : Machine) : Prop :=
  ∃ clock interrupts devices, m' = { m with clock, interrupts, devices }

/-- The machine with other registers. -/
def Machine.withRegisters (m : Machine) (r : Registers) : Machine := { m with registers := r }

@[simp] theorem Machine.withRegisters_registers (m : Machine) (r : Registers) :
    (m.withRegisters r).registers = r := rfl

@[simp] theorem Machine.withRegisters_memory (m : Machine) (r : Registers) :
    (m.withRegisters r).memory = m.memory := rfl

@[simp] theorem Machine.withRegisters_specials (m : Machine) (r : Registers) :
    (m.withRegisters r).specials = m.specials := rfl

@[simp] theorem Machine.withRegisters_twice (m : Machine) (r s : Registers) :
    (m.withRegisters r).withRegisters s = m.withRegisters s := rfl

@[simp] theorem Machine.setCell_registers (m : Machine) (v : Value) (i : Nat) (x : Value) :
    (m.setCell v i x).registers = m.registers := rfl

@[simp] theorem Machine.setCell_specials (m : Machine) (v : Value) (i : Nat) (x : Value) :
    (m.setCell v i x).specials = m.specials := rfl

/-- The number is where the active context stands: its instruction pointer or its stack pointer, as
they are stored. -/
def Registers.Stored (r : Registers) (n : Int) : Prop :=
  n = Context.encodePc r.pc r.literalCount ∨ n = Context.encodeSp r.sp

/-- Whether the instruction pointer and the stack pointer can be stored in a context. -/
def Registers.Storable (r : Registers) : Prop :=
  Value.InRange (Context.encodePc r.pc r.literalCount) ∧ Value.InRange (Context.encodeSp r.sp)

instance (r : Registers) : Decidable r.Storable := inferInstanceAs (Decidable (_ ∧ _))

/-- All pointer fields of a memory, as `Memory.cell` reads them. -/
abbrev Cells := Value → Nat → Option Value

/-- The fields with one of them changed. -/
def Cells.set (c : Cells) (v : Value) (i : Nat) (x : Value) : Cells := fun w j =>
  if w = v ∧ j = i then some x else c w j

@[simp] theorem Cells.set_same (c : Cells) (v : Value) (i : Nat) (x : Value) :
    c.set v i x v i = some x := if_pos ⟨rfl, rfl⟩

theorem Cells.set_of_ne {c : Cells} {v w x : Value} {i j : Nat} (h : w ≠ v) :
    c.set v i x w j = c w j := if_neg fun e => h e.1

theorem Cells.set_of_index_ne {c : Cells} {v w x : Value} {i j : Nat} (h : j ≠ i) :
    c.set v i x w j = c w j := if_neg fun e => h e.2

/-- Storing into a field that is there sets it. -/
theorem Machine.cell_setCell {m : Machine} {v x : Value} {i : Nat}
    (h : ∃ y, m.memory.cell v i = some y) :
    (m.setCell v i x).memory.cell = Cells.set m.memory.cell v i x := by
  obtain ⟨y, hy⟩ := h
  funext w j
  rw [setCell, Memory.cell_setField, hy, Cells.set, Option.map_some]

namespace Outcome

variable {ε σ α β : Type} {x : EStateM ε σ α} {s s' : σ}

theorem bind_ok {f : α → EStateM ε σ β} {b : β} :
    (x >>= f) s = .ok b s' ↔ ∃ a s₁, x s = .ok a s₁ ∧ f a s₁ = .ok b s' := by
  change EStateM.bind x f s = _ ↔ _
  rw [EStateM.bind]
  cases h : x s with
  | ok a s₁ => simp
  | error e s₁ => simp

theorem bind_error {f : α → EStateM ε σ β} {e : ε} :
    (x >>= f) s = .error e s' ↔
      x s = .error e s' ∨ ∃ a s₁, x s = .ok a s₁ ∧ f a s₁ = .error e s' := by
  change EStateM.bind x f s = _ ↔ _
  rw [EStateM.bind]
  cases h : x s with
  | ok a s₁ => simp
  | error e s₁ => simp

theorem bind_of_ok {f : α → EStateM ε σ β} {a : α} (h : x s = .ok a s') : (x >>= f) s = f a s' := by
  change EStateM.bind x f s = _
  rw [EStateM.bind, h]

theorem bind_of_error {f : α → EStateM ε σ β} {e : ε} (h : x s = .error e s') :
    (x >>= f) s = .error e s' := bind_error.2 (.inl h)

theorem pure_ok {a b : α} : (pure a : EStateM ε σ α) s = .ok b s' ↔ a = b ∧ s = s' := by
  change EStateM.Result.ok a s = .ok b s' ↔ _
  simp

theorem throw_ok {e : ε} {a : α} : (throw e : EStateM ε σ α) s = .ok a s' ↔ False := by
  change EStateM.Result.error e s = .ok a s' ↔ _
  simp

theorem get_ok {a : σ} : (get : EStateM ε σ σ) s = .ok a s' ↔ s = a ∧ s = s' := by
  change EStateM.Result.ok s s = .ok a s' ↔ _
  simp

theorem modify_ok {f : σ → σ} {u : Unit} :
    (modify f : EStateM ε σ Unit) s = .ok u s' ↔ f s = s' := by
  change EStateM.Result.ok () (f s) = .ok u s' ↔ _
  simp

end Outcome

open Outcome

namespace Action

variable {m m' : Machine} {v x : Value} {i n : Nat} {o : Object} {u : Unit}

@[simp] theorem ofExcept_ok {α : Type} {e : Except Fault α} {a : α} :
    ofExcept e m = .ok a m' ↔ e = .ok a ∧ m = m' := by
  cases e with
  | ok b => simp only [ofExcept, pure_ok, Except.ok.injEq]
  | error f => simp only [ofExcept, throw_ok, reduceCtorEq, false_and]

@[simp] theorem immediate_ok {n : Int} :
    immediate n m = .ok x m' ↔ Value.InRange n ∧ .small n = x ∧ m = m' := by
  by_cases h : Value.InRange n
  · simp [immediate, Value.immediate, h]
  · simp [immediate, Value.immediate, h]

@[simp] theorem modifyMemory_ok {f : Memory → Memory} :
    modifyMemory f m = .ok u m' ↔ { m with memory := f m.memory } = m' := by
  simp [modifyMemory]

@[simp] theorem modifyRegisters_ok {f : Registers → Registers} :
    modifyRegisters f m = .ok u m' ↔ m.withRegisters (f m.registers) = m' := by
  simp [modifyRegisters, Machine.withRegisters]

@[simp] theorem modifyCounters_ok {f : Counters → Counters} :
    modifyCounters f m = .ok u m' ↔ { m with counters := f m.counters } = m' := by
  simp [modifyCounters]

@[simp] theorem registers_ok {r : Registers} :
    registers m = .ok r m' ↔ m.registers = r ∧ m = m' := by
  change EStateM.Result.ok m.registers m = _ ↔ _
  simp

@[simp] theorem nil_ok : nil m = .ok v m' ↔ m.specials.nil = v ∧ m = m' := by
  change EStateM.Result.ok m.specials.nil m = _ ↔ _
  simp

@[simp] theorem truth_ok {b : Bool} :
    truth b m = .ok v m' ↔ m.specials.truth b = v ∧ m = m' := by
  change EStateM.Result.ok (m.specials.truth b) m = _ ↔ _
  simp

@[simp] theorem special_ok :
    special i m = .ok v m' ↔ m.specials.get m.memory i = v ∧ m = m' := by
  change EStateM.Result.ok (m.specials.get m.memory i) m = _ ↔ _
  simp

@[simp] theorem object_ok : object v m = .ok o m' ↔ m.memory.get? v = some o ∧ m = m' := by
  simp only [object, bind_ok, get_ok, ofExcept_ok]
  constructor
  · rintro ⟨_, _, ⟨rfl, rfl⟩, h, rfl⟩
    refine ⟨?_, rfl⟩
    cases ho : m.memory.get? v with
    | none => simp [Memory.object, ho] at h
    | some o' => simpa [Memory.object, ho] using h
  · rintro ⟨h, rfl⟩
    exact ⟨m, m, ⟨rfl, rfl⟩, by simp [Memory.object, h], rfl⟩

@[simp] theorem object?_ok {found : Option Object} :
    object? v m = .ok found m' ↔ m.memory.get? v = found ∧ m = m' := by
  change EStateM.Result.ok (m.memory.get? v) m = _ ↔ _
  simp

theorem field_ok {memory : Memory} {flaw : Flaw} :
    memory.field flaw v i = .ok x ↔ memory.cell v i = some x := by
  cases ho : memory.get? v with
  | none => simp [Memory.field, Memory.cell, ho]
  | some o =>
    cases hx : o.pointers[i]? with
    | none => simp [Memory.field, Memory.cell, ho, hx]
    | some y => simp [Memory.field, Memory.cell, ho, hx]

@[simp] theorem fetch_ok : fetch v i m = .ok x m' ↔ m.memory.cell v i = some x ∧ m = m' := by
  simp [fetch, bind_ok, get_ok, field_ok, and_comm]

@[simp] theorem store_ok :
    store v i x m = .ok u m' ↔ (∃ y, m.memory.cell v i = some y) ∧ m.setCell v i x = m' := by
  simp only [store, bind_ok, fetch_ok, modifyMemory_ok, Machine.setCell]
  constructor
  · rintro ⟨y, _, ⟨h, rfl⟩, rfl⟩
    exact ⟨⟨y, h⟩, rfl⟩
  · rintro ⟨⟨y, h⟩, rfl⟩
    exact ⟨y, m, ⟨h, rfl⟩, rfl⟩

@[simp] theorem fetchInt_ok {k : Int} :
    fetchInt v i m = .ok k m' ↔ m.memory.cell v i = some (.small k) ∧ m = m' := by
  simp only [fetchInt, bind_ok, fetch_ok]
  constructor
  · rintro ⟨y, _, ⟨h, rfl⟩, hy⟩
    cases y with
    | small n =>
      obtain ⟨rfl, rfl⟩ := pure_ok.1 hy
      exact ⟨h, rfl⟩
    | ref index generation => exact absurd hy (by simp [throw_ok])
  · rintro ⟨h, rfl⟩
    exact ⟨_, m, ⟨h, rfl⟩, pure_ok.2 ⟨rfl, rfl⟩⟩

theorem assertFrame_ok : assertFrame v m = .ok u m' ↔
    (∃ o, m.memory.get? v = some o ∧ Context.frameStart ≤ o.pointers.size) ∧ m = m' := by
  simp only [assertFrame, bind_ok, object_ok]
  constructor
  · rintro ⟨o, _, ⟨ho, rfl⟩, h⟩
    split at h
    · exact (throw_ok.1 h).elim
    · exact ⟨⟨o, ho, by omega⟩, (pure_ok.1 h).2⟩
  · rintro ⟨⟨o, ho, hsize⟩, rfl⟩
    refine ⟨o, m, ⟨ho, rfl⟩, ?_⟩
    rw [if_neg (by omega)]
    exact pure_ok.2 ⟨rfl, rfl⟩

/-- The class of a value, as a machine sees it. -/
theorem classOf_ok {c : Value} : classOf v m = .ok c m' ↔
    ((v.isSmall = true ∧ m.specials.get m.memory Special.classSmallInteger = c) ∨
      ∃ o, m.memory.get? v = some o ∧ o.cls = c) ∧ m = m' := by
  cases v with
  | small n => simp [classOf, Value.isSmall]
  | ref index generation =>
    simp only [classOf, bind_ok, object_ok, pure_ok, Value.isSmall]
    constructor
    · rintro ⟨o, _, ⟨h, rfl⟩, rfl, rfl⟩
      exact ⟨.inr ⟨o, h, rfl⟩, rfl⟩
    · rintro ⟨⟨h, -⟩ | ⟨o, h, rfl⟩, rfl⟩
      · exact absurd h (by simp)
      · exact ⟨o, m, ⟨h, rfl⟩, rfl, rfl⟩

/-- An action ends with a panic. -/
def Panics {α : Type} (y : Action α) (m : Machine) : Prop := ∃ p m', y m = .error (.panic p) m'

theorem Panics.bind {α β : Type} {y : Action α} {f : α → Action β} (h : y.Panics m) :
    (y >>= f).Panics m := by
  obtain ⟨p, m', hrun⟩ := h
  exact ⟨p, m', bind_of_error hrun⟩

theorem Panics.of_ok {α β : Type} {y : Action α} {f : α → Action β} {a : α} (hrun : y m = .ok a m')
    (h : (f a).Panics m') : (y >>= f).Panics m := by
  rwa [Panics, bind_of_ok hrun]

/-- Whether an action ends with an answer and leaves a machine that passes a test. -/
def leads {α : Type} (x : Action α) (m : Machine) (test : α → Machine → Bool) : Bool :=
  match x m with
  | .ok a m' => test a m'
  | .error .. => false

theorem exists_of_leads {α : Type} {y : Action α} {test : α → Machine → Bool}
    (h : leads y m test = true) : ∃ a m', y m = .ok a m' ∧ test a m' = true := by
  rw [leads] at h
  split at h
  · exact ⟨_, _, by assumption, h⟩
  · exact absurd h (by simp)

/-! ### Reclaiming -/

theorem onMemory_ok {α : Type} {y : Memory.Change α} {a : α} : onMemory y m = .ok a m' ↔
    ∃ memory, y m.memory = .ok a memory ∧ { m with memory } = m' := by
  simp only [onMemory]
  cases y m.memory with
  | ok b memory => simp [and_assoc]
  | error e memory => simp

theorem onMemory_grow_ok : onMemory Memory.grow m = .ok u m' ↔
    m.memory.GrowthFits ∧ { m with memory := m.memory.grown } = m' := by
  rw [onMemory_ok, Memory.grow_eq]
  by_cases h : m.memory.GrowthFits
  · simp [h]
  · simp [h]

theorem onMemory_grow_of_not (h : ¬ m.memory.GrowthFits) :
    onMemory Memory.grow m = .error m.memory.growthPanic m := by
  simp only [onMemory, Memory.grow_eq, if_neg h]

/-- The machine after the objects that nothing can reach are freed. -/
def swept (m : Machine) (scope : Scope) : Machine :=
  { m with memory := (m.memory.reclaim m.roots scope).2 }.flushCaches

/-- The machine after it has noted how much space is left. -/
def noted (m : Machine) (left : Int) : Machine :=
  if left < m.lowSpaceThreshold then
    { m with interrupts := { m.interrupts with signalLowSpace := true } }
  else m

theorem sweep_eq (m : Machine) (scope : Scope) :
    sweep scope m = .ok (m.memory.reclaim m.roots scope).1 (swept m scope) := rfl

/-- What a note of low space changes. -/
theorem noted_frame (m : Machine) (left : Int) :
    noted m left = { m with interrupts := (noted m left).interrupts } := by
  rw [noted]
  split <;> rfl

theorem reclaim_eq (m : Machine) (scope : Scope) : reclaim scope m =
    match (swept m scope).memory.spaceLeft with
    | .ok left => .ok (m.memory.reclaim m.roots scope).1 (noted (swept m scope) left)
    | .error e => .error e (swept m scope) := by
  refine (bind_of_ok (sweep_eq m scope)).trans ((bind_of_ok (get_ok.2 ⟨rfl, rfl⟩)).trans ?_)
  cases hleft : (swept m scope).memory.spaceLeft with
  | error e => rfl
  | ok left =>
    refine Eq.trans (bind_of_ok (pure_ok.2 ⟨rfl, rfl⟩)) ?_
    refine (bind_of_ok (get_ok.2 ⟨rfl, rfl⟩)).trans ?_
    dsimp only
    by_cases hlow : left < (swept m scope).lowSpaceThreshold
    · rw [if_pos hlow, noted, if_pos hlow]
      rfl
    · rw [if_neg hlow, noted, if_neg hlow]
      rfl

theorem reclaim_ok {scope : Scope} {freed : Nat} : reclaim scope m = .ok freed m' ↔
    ∃ left, (swept m scope).memory.spaceLeft = .ok left ∧
      (m.memory.reclaim m.roots scope).1 = freed ∧ noted (swept m scope) left = m' := by
  rw [reclaim_eq]
  cases (swept m scope).memory.spaceLeft with
  | ok left => simp
  | error e => simp

theorem reclaim_error {scope : Scope} {e : Fault} (h : reclaim scope m = .error e m') :
    ¬ (swept m scope).memory.SpaceFits ∧ (swept m scope).memory.spacePanic = e ∧
      swept m scope = m' := by
  rw [reclaim_eq, Memory.spaceLeft_eq] at h
  by_cases hfits : (swept m scope).memory.SpaceFits
  · rw [if_pos hfits] at h
    exact nomatch h
  · rw [if_neg hfits] at h
    exact ⟨hfits, EStateM.Result.error.inj h⟩

/-! ### The stack -/

@[simp] theorem stackValue_ok {depth : Nat} : stackValue depth m = .ok x m' ↔
    depth ≤ m.registers.sp ∧
      m.memory.cell m.registers.context (m.registers.sp - depth) = some x ∧ m = m' := by
  simp only [stackValue, bind_ok, registers_ok]
  constructor
  · rintro ⟨_, _, ⟨rfl, rfl⟩, h⟩
    split at h
    · obtain ⟨_, _, h, -⟩ := bind_ok.1 h
      exact absurd h (by simp [throw_ok])
    · obtain ⟨hx, rfl⟩ := fetch_ok.1 h
      exact ⟨by omega, hx, rfl⟩
  · rintro ⟨hd, hx, rfl⟩
    refine ⟨_, m, ⟨rfl, rfl⟩, ?_⟩
    rw [if_neg (by omega)]
    exact fetch_ok.2 ⟨hx, rfl⟩

@[simp] theorem top_ok : top m = .ok x m' ↔
    m.memory.cell m.registers.context m.registers.sp = some x ∧ m = m' := by
  simp [top]

@[simp] theorem popN_ok : popN n m = .ok u m' ↔
    n ≤ m.registers.sp ∧
      m.withRegisters { m.registers with sp := m.registers.sp - n } = m' := by
  simp only [popN, bind_ok, registers_ok]
  constructor
  · rintro ⟨_, _, ⟨rfl, rfl⟩, h⟩
    split at h
    · obtain ⟨_, _, h, -⟩ := bind_ok.1 h
      exact absurd h (by simp [throw_ok])
    · exact ⟨by omega, modifyRegisters_ok.1 h⟩
  · rintro ⟨hd, h⟩
    refine ⟨_, m, ⟨rfl, rfl⟩, ?_⟩
    rw [if_neg (by omega)]
    exact modifyRegisters_ok.2 h

@[simp] theorem pop_ok : pop m = .ok x m' ↔
    m.memory.cell m.registers.context m.registers.sp = some x ∧ 0 < m.registers.sp ∧
      m.withRegisters { m.registers with sp := m.registers.sp - 1 } = m' := by
  simp only [pop, bind_ok, top_ok, registers_ok]
  constructor
  · rintro ⟨y, _, ⟨hy, rfl⟩, _, _, ⟨rfl, rfl⟩, h⟩
    split at h
    · obtain ⟨_, _, h, -⟩ := bind_ok.1 h
      exact absurd h (by simp [throw_ok])
    · obtain ⟨_, _, hset, hx⟩ := bind_ok.1 h
      obtain rfl := modifyRegisters_ok.1 hset
      obtain ⟨rfl, rfl⟩ := pure_ok.1 hx
      exact ⟨hy, by omega, rfl⟩
  · rintro ⟨hx, hsp, rfl⟩
    refine ⟨x, m, ⟨hx, rfl⟩, _, m, ⟨rfl, rfl⟩, ?_⟩
    rw [if_neg (by omega)]
    exact bind_ok.2 ⟨(), _, modifyRegisters_ok.2 rfl, rfl⟩

/-- The machine with a value stored above the top of the stack and counted. -/
def pushed (m : Machine) (x : Value) : Machine :=
  (m.setCell m.registers.context (m.registers.sp + 1) x).withRegisters
    { m.registers with sp := m.registers.sp + 1 }

@[simp] theorem push_ok : push x m = .ok u m' ↔
    (∃ y, m.memory.cell m.registers.context (m.registers.sp + 1) = some y) ∧
      pushed m x = m' := by
  simp only [push, bind_ok, registers_ok, store_ok, modifyRegisters_ok]
  constructor
  · rintro ⟨_, _, ⟨rfl, rfl⟩, _, _, ⟨hy, rfl⟩, rfl⟩
    exact ⟨hy, rfl⟩
  · rintro ⟨hy, rfl⟩
    exact ⟨_, m, ⟨rfl, rfl⟩, (), _, ⟨hy, rfl⟩, rfl⟩

/-- The machine with `n` values off the stack. -/
def popped (m : Machine) (n : Nat) : Machine :=
  m.withRegisters { m.registers with sp := m.registers.sp - n }

/-- What was taken off the stack can be put back onto it. -/
theorem push_popped (hn : n < m.registers.sp)
    (hx : m.memory.cell m.registers.context (m.registers.sp - n) = some x) :
    push x (popped m (n + 1)) = .ok () (popped m n) := by
  have hsp : m.registers.sp - (n + 1) + 1 = m.registers.sp - n := by omega
  have hcell : (popped m (n + 1)).memory.cell (popped m (n + 1)).registers.context
      ((popped m (n + 1)).registers.sp + 1) = some x := by
    simp only [popped, Machine.withRegisters_memory, Machine.withRegisters_registers, hsp, hx]
  refine push_ok.2 ⟨⟨x, hcell⟩, ?_⟩
  rw [pushed, Machine.setCell, Memory.setField_self hcell]
  simp only [popped, Machine.withRegisters, hsp]

@[simp] theorem popThenPush_ok : popThenPush n x m = .ok u m' ↔
    n ≤ m.registers.sp ∧
      (∃ y, m.memory.cell m.registers.context (m.registers.sp - n + 1) = some y) ∧
      pushed (popped m n) x = m' := by
  simp only [popThenPush, bind_ok, popN_ok, push_ok]
  constructor
  · rintro ⟨_, _, ⟨hn, rfl⟩, hy, rfl⟩
    exact ⟨hn, hy, rfl⟩
  · rintro ⟨hn, hy, rfl⟩
    exact ⟨(), _, ⟨hn, rfl⟩, hy, rfl⟩

/-- Each of the topmost values stands in a cell of the active context. -/
theorem stackValues_ok {xs : List Value} (h : stackValues n m = .ok xs m') :
    m = m' ∧ xs.length = n ∧ ∀ x ∈ xs, ∃ depth < n, depth ≤ m.registers.sp ∧
      m.memory.cell m.registers.context (m.registers.sp - depth) = some x := by
  induction n generalizing xs m' with
  | zero =>
    obtain ⟨rfl, rfl⟩ := pure_ok.1 h
    exact ⟨rfl, rfl, fun x hx => absurd hx List.not_mem_nil⟩
  | succ n ih =>
    simp only [stackValues, bind_ok, stackValue_ok, pure_ok] at h
    obtain ⟨x, _, ⟨hd, hx, rfl⟩, rest, _, hrest, rfl, rfl⟩ := h
    obtain ⟨rfl, hlen, hmem⟩ := ih hrest
    refine ⟨rfl, by rw [List.length_cons, hlen], fun y hy => ?_⟩
    rcases List.mem_cons.1 hy with rfl | hy
    · exact ⟨n, Nat.lt_succ_self n, hd, hx⟩
    · obtain ⟨depth, hlt, hle, hc⟩ := hmem y hy
      exact ⟨depth, Nat.lt_succ_of_lt hlt, hle, hc⟩

/-! ### Context registers -/

/-- What the registers of a context are: block contexts take home, method and receiver from their
home. -/
structure Loaded (memory : Memory) (context : Value) (r : Registers) : Prop where
  home : ∃ slot, memory.cell context Context.method = some slot ∧
    ((slot.isSmall = true ∧ memory.cell context Context.home = some r.home ∧
        memory.cell r.home Context.method = some r.method) ∨
      (slot.isSmall = false ∧ r.home = context ∧ r.method = slot))
  receiver : memory.cell r.home Context.receiver = some r.receiver
  literalCount : ∃ header, MethodHeader.of memory r.method = .ok header ∧
    r.literalCount = header.literalCount
  pc : ∃ k, memory.cell context Context.instructionPointer = some (.small k) ∧
    Context.decodePc? k r.literalCount = some r.pc
  sp : ∃ k, memory.cell context Context.stackPointer = some (.small k) ∧
    Context.decodeSp? k = some r.sp

/-- Both kinds of context end in the same steps. -/
theorem loadFrame_ok {context home method : Value} (h : loadFrame context home method m = .ok u m') :
    ∃ r, m' = m.withRegisters r ∧ r.context = m.registers.context ∧ r.home = home ∧
      r.method = method ∧ m.memory.cell home Context.receiver = some r.receiver ∧
      (∃ header, MethodHeader.of m.memory method = .ok header ∧
        r.literalCount = header.literalCount) ∧
      (∃ k, m.memory.cell context Context.instructionPointer = some (.small k) ∧
        Context.decodePc? k r.literalCount = some r.pc) ∧
      (∃ k, m.memory.cell context Context.stackPointer = some (.small k) ∧
        Context.decodeSp? k = some r.sp) := by
  simp only [loadFrame, bind_ok, modifyRegisters_ok, fetch_ok, get_ok, ofExcept_ok, fetchInt_ok] at h
  obtain ⟨_, _, rfl, receiver, _, ⟨hr, rfl⟩, _, _, rfl, _, _, ⟨rfl, rfl⟩, header, _, ⟨hh, rfl⟩,
    _, _, rfl, pcStored, _, ⟨hpc, rfl⟩, h⟩ := h
  cases hdec : Context.decodePc? pcStored header.literalCount with
  | none => simp [hdec, throw_ok, bind_ok] at h
  | some pc =>
    simp only [hdec, bind_ok, modifyRegisters_ok, fetchInt_ok] at h
    obtain ⟨_, _, rfl, spStored, _, ⟨hsp, rfl⟩, h⟩ := h
    cases hdec' : Context.decodeSp? spStored with
    | none => simp [hdec', throw_ok] at h
    | some sp =>
      simp only [hdec', modifyRegisters_ok] at h
      subst h
      exact ⟨_, rfl, rfl, rfl, rfl, hr, ⟨header, hh, rfl⟩, ⟨_, hpc, hdec⟩, ⟨_, hsp, hdec'⟩⟩

theorem loadRegisters_ok {context : Value} (h : loadRegisters context m = .ok u m') :
    ∃ r, m' = m.withRegisters r ∧ r.context = m.registers.context ∧
      Loaded m.memory context r := by
  obtain ⟨slot, _, hs, h⟩ := bind_ok.1 h
  obtain ⟨hslot, rfl⟩ := fetch_ok.1 hs
  cases slot with
  | small k =>
    obtain ⟨home, _, h₁, h⟩ := bind_ok.1 h
    obtain ⟨hhome, rfl⟩ := fetch_ok.1 h₁
    obtain ⟨method, _, h₁, h⟩ := bind_ok.1 h
    obtain ⟨hmethod, rfl⟩ := fetch_ok.1 h₁
    obtain ⟨r, rfl, hctx, rfl, rfl, hr, hlit, hpc, hsp⟩ := loadFrame_ok h
    exact ⟨r, rfl, hctx, ⟨_, hslot, .inl ⟨rfl, hhome, hmethod⟩⟩, hr, hlit, hpc, hsp⟩
  | ref index generation =>
    obtain ⟨r, rfl, hctx, hhome, hmethod, hr, hlit, hpc, hsp⟩ := loadFrame_ok h
    refine ⟨r, rfl, hctx, ⟨_, hslot, .inr ⟨rfl, hhome, hmethod⟩⟩, ?_, ?_, hpc, hsp⟩
    · rw [hhome]; exact hr
    · rw [hmethod]; exact hlit

/-- The machine with the instruction pointer and the stack pointer stored in the active context. -/
def saved (m : Machine) : Machine :=
  (m.setCell m.registers.context Context.instructionPointer
    (.small (Context.encodePc m.registers.pc m.registers.literalCount))).setCell
    m.registers.context Context.stackPointer (.small (Context.encodeSp m.registers.sp))

@[simp] theorem saved_specials (m : Machine) : (saved m).specials = m.specials := rfl

theorem saveRegisters_ok (h : saveRegisters m = .ok u m') :
    (∃ y, m.memory.cell m.registers.context Context.instructionPointer = some y) ∧
      (∃ y, m.memory.cell m.registers.context Context.stackPointer = some y) ∧ saved m = m' := by
  simp only [saveRegisters, bind_ok, registers_ok, immediate_ok, store_ok] at h
  obtain ⟨_, _, ⟨rfl, rfl⟩, _, _, ⟨-, rfl, rfl⟩, _, _, ⟨-, rfl, rfl⟩, _, _, ⟨hpc, rfl⟩, ⟨y, hy⟩, rfl⟩ := h
  refine ⟨hpc, ?_, rfl⟩
  rw [Machine.setCell, Memory.cell_setField, if_neg fun e => absurd e.2 (by decide)] at hy
  exact ⟨y, hy⟩

theorem saveRegisters_of (hpc : ∃ y, m.memory.cell m.registers.context Context.instructionPointer = some y)
    (hsp : ∃ y, m.memory.cell m.registers.context Context.stackPointer = some y)
    (storable : m.registers.Storable) : saveRegisters m = .ok () (saved m) := by
  refine (bind_of_ok (registers_ok.2 ⟨rfl, rfl⟩)).trans ?_
  refine (bind_of_ok (immediate_ok.2 ⟨storable.1, rfl, rfl⟩)).trans ?_
  refine (bind_of_ok (immediate_ok.2 ⟨storable.2, rfl, rfl⟩)).trans ?_
  refine (bind_of_ok (a := ()) (store_ok.2 ⟨hpc, rfl⟩)).trans ?_
  refine store_ok.2 ⟨?_, rfl⟩
  obtain ⟨y, hy⟩ := hsp
  exact ⟨y, by rw [Machine.setCell, Memory.cell_setField, if_neg fun e => absurd e.2 (by decide), hy]⟩

/-- Where a pointer does not fit nothing is saved. -/
theorem saveRegisters_panics (h : ¬m.registers.Storable) : ∃ n, m.registers.Stored n ∧
    ¬Value.InRange n ∧ saveRegisters m = .error (.panic (.notImmediate n)) m := by
  have hpanic {n : Int} (hn : ¬Value.InRange n) :
      immediate n m = .error (.panic (.notImmediate n)) m := by
    rw [immediate, Value.immediate, if_neg hn]
    rfl
  by_cases hpc : Value.InRange (Context.encodePc m.registers.pc m.registers.literalCount)
  · have hsp : ¬Value.InRange (Context.encodeSp m.registers.sp) := fun hsp => h ⟨hpc, hsp⟩
    refine ⟨_, .inr rfl, hsp, (bind_of_ok (registers_ok.2 ⟨rfl, rfl⟩)).trans ?_⟩
    exact (bind_of_ok (immediate_ok.2 ⟨hpc, rfl, rfl⟩)).trans (bind_of_error (hpanic hsp))
  · exact ⟨_, .inl rfl, hpc, (bind_of_ok (registers_ok.2 ⟨rfl, rfl⟩)).trans (bind_of_error (hpanic hpc))⟩

/-- Saving the registers changes the active context only. -/
theorem saved_of_ne {w : Value} (h : w ≠ m.registers.context) (j : Nat) :
    (saved m).memory.cell w j = m.memory.cell w j := by
  simp only [saved, Machine.setCell]
  rw [Memory.cell_setField, if_neg fun e => h e.1, Memory.cell_setField, if_neg fun e => h e.1]

/-- A context that has just been entered stands where an immediate integer can tell. -/
theorem storable_start (context home method receiver : Value) (header : MethodHeader) :
    Registers.Storable {
      context, home, method, receiver, pc := 0, sp := Context.receiver + header.tempCount
      literalCount := header.literalCount } := by
  have hliterals := header.literalCount_lt
  have htemps := header.tempCount_lt
  have hreceiver : Context.receiver = 5 := rfl
  have hencoded : Context.encodePc 0 header.literalCount = (0 + (header.literalCount + 1) * 4 + 1 : Nat) :=
    signedWord_of_lt (by omega)
  simp only [Registers.Storable, hencoded, Context.encodeSp, Value.InRange, Value.smallMin,
    Value.smallMax]
  omega

/-- The machine with `n` values off the stack, and with one more context counted. -/
def counted (m : Machine) (n : Nat) : Machine :=
  { popped m n with reclaimable := m.reclaimable + 1 }

/-- The last steps into a new context: the operands are taken off the stack, the context is counted,
and the registers are set. -/
theorem counted_ok {r : Registers} (h : (do
      popN n
      modify fun m => { m with reclaimable := m.reclaimable + 1 }
      saveRegisters
      modifyRegisters fun _ => r
      saveRegisters : Action Unit) m = .ok u m') :
    n ≤ m.registers.sp ∧
      (∃ y, m.memory.cell m.registers.context Context.instructionPointer = some y) ∧
      (∃ y, m.memory.cell m.registers.context Context.stackPointer = some y) ∧
      (∃ y, (saved (counted m n)).memory.cell r.context Context.instructionPointer = some y) ∧
      (∃ y, (saved (counted m n)).memory.cell r.context Context.stackPointer = some y) ∧
      saved ((saved (counted m n)).withRegisters r) = m' := by
  obtain ⟨_, m₁, hpop, hrest⟩ := bind_ok.1 h
  obtain ⟨hdepth, rfl⟩ := popN_ok.1 hpop
  obtain ⟨_, m₂, hcount, hrest⟩ := bind_ok.1 hrest
  obtain rfl := modify_ok.1 hcount
  obtain ⟨_, m₃, hsave, hrest⟩ := bind_ok.1 hrest
  obtain ⟨hpc, hsp, rfl⟩ := saveRegisters_ok hsave
  obtain ⟨_, m₄, hset, hend⟩ := bind_ok.1 hrest
  obtain rfl := modifyRegisters_ok.1 hset
  obtain ⟨hpc', hsp', rfl⟩ := saveRegisters_ok hend
  exact ⟨hdepth, hpc, hsp, hpc', hsp', rfl⟩

/-- Switching to a context saves the registers of the one that was active. -/
theorem activate_ok {context : Value} (h : activate context m = .ok u m') :
    (∃ y, m.memory.cell m.registers.context Context.instructionPointer = some y) ∧
      ∃ r, m' = (saved m).withRegisters r ∧ r.context = context ∧
        Loaded (saved m).memory context r := by
  simp only [activate, bind_ok, modifyRegisters_ok] at h
  obtain ⟨_, m₁, hsave, _, _, rfl, hload⟩ := h
  obtain ⟨hpc, -, rfl⟩ := saveRegisters_ok hsave
  obtain ⟨r, hm, hctx, hr⟩ := loadRegisters_ok hload
  rw [Machine.withRegisters_twice] at hm
  rw [Machine.withRegisters_memory] at hr
  exact ⟨hpc, r, hm, hctx, hr⟩

end Action

end Smalltalk
