import Smalltalk.Proofs.Observing
import Smalltalk.Proofs.Tagging
import Smalltalk.Proofs.Trials

/-!
# Immediate integers in the heap

An immediate integer can be made of numbers below `2^30` only, and where one is made of another number
the machine panics. So every place that makes one has a reason why the number is small enough. All of the
reasons hold as long as the integers that are read are small enough, with one exception: nothing bounds
the count of signals that nobody waited for. What is kept here says so of both endings of an action: an
answer leaves a machine in range, and a fault says which numbers can have been rejected.

What else is left behind by a fault is described less closely: nothing but the heap is looked at then.
-/

namespace Smalltalk

open Outcome Rejects

/-! ### What is small enough -/

/-- If the value is an integer, it is in the range of immediate integers. -/
def Value.Ranged (v : Value) : Prop := ∀ n, v = .small n → InRange n

instance (v : Value) : Decidable v.Ranged :=
  match v with
  | .small n => decidable_of_iff (Value.InRange n) ⟨by rintro h k ⟨⟩; exact h, fun h => h n rfl⟩
  | .ref .. => isTrue nofun

/-- The range of immediate integers in numbers. -/
theorem Value.inRange_iff {n : Int} : InRange n ↔ -0x40000000 ≤ n ∧ n < 0x40000000 := by
  simp only [InRange, smallMin, smallMax]
  omega

theorem Value.Ranged.inRange {n : Int} (h : (Value.small n).Ranged) : Value.InRange n := h n rfl

theorem Value.ranged_small {n : Int} (h : InRange n) : (small n).Ranged := by
  rintro k ⟨⟩
  exact h

theorem Value.ranged_of_ofInt? {n : Int} {v : Value} (h : Value.ofInt? n = some v) : v.Ranged := by
  obtain ⟨hrange, rfl⟩ := Value.ofInt?_eq_some.1 h
  exact Value.ranged_small hrange

/-- A count that is small enough. -/
theorem Value.inRange_count {n : Nat} (h : n < 0x40000000) : InRange n :=
  inRange_iff.2 (by omega)

theorem Value.ranged_count {n : Nat} (h : n < 0x40000000) : (small n).Ranged :=
  ranged_small (inRange_count h)

theorem Value.Ranged.of_isReference {v : Value} (h : v.isReference = true) : v.Ranged := by
  rintro n rfl
  cases h

theorem Value.Ranged.of_isLive {m : Memory} {v : Value} (h : m.isLive v = true) : v.Ranged := by
  rintro n rfl
  cases h

/-- The number of fields that an image has room for. -/
def maxFields : Nat := 0x40000000

/-- The integers in the fields of an object are in range. -/
structure Object.Ranged (o : Object) : Prop where
  cls : o.cls.Ranged
  size : o.pointers.size ≤ maxFields
  fields : ∀ x ∈ o.pointers, x.Ranged

instance (o : Object) : Decidable o.Ranged :=
  decidable_of_iff (o.cls.Ranged ∧ o.pointers.size ≤ maxFields ∧ ∀ x ∈ o.pointers, x.Ranged)
    ⟨fun h => ⟨h.1, h.2.1, h.2.2⟩, fun h => ⟨h.cls, h.size, h.fields⟩⟩

/-- Every object in the heap is in range. -/
def Memory.Ranged (m : Memory) : Prop := ∀ v o, m.get? v = some o → o.Ranged

namespace Object

variable {o : Object} {i : Nat} {x : Value}

theorem Ranged.field (h : o.Ranged) (hx : o.pointers[i]? = some x) : x.Ranged :=
  h.fields x (Array.mem_of_getElem? hx)

theorem Ranged.setPointer (h : o.Ranged) (hx : x.Ranged) : (o.setPointer i x).Ranged where
  cls := h.cls
  size := by rw [Object.setPointer, Array.size_setIfInBounds]; exact h.size
  fields y hy := by
    rcases Array.mem_or_eq_of_mem_setIfInBounds hy with hy | rfl
    · exact h.fields y hy
    · exact hx

/-- Any raw part will do. -/
theorem Ranged.body (h : o.Ranged) {o' : Object} (hcls : o'.cls = o.cls)
    (hpointers : o'.pointers = o.pointers) : o'.Ranged where
  cls := hcls ▸ h.cls
  size := hpointers ▸ h.size
  fields := hpointers ▸ h.fields

end Object

namespace Memory

variable {m m' : Memory} {o : Object} {v x : Value} {i : Nat} {f : Object → Object}

theorem Ranged.cell (h : m.Ranged) (hx : m.cell v i = some x) : x.Ranged := by
  obtain ⟨o, ho, hx⟩ := cell_eq_some.1 hx
  exact (h v o ho).field hx

theorem Ranged.of_slots (h : m.Ranged) (hslots : m'.slots = m.slots) : m'.Ranged :=
  fun v o ho => h v o (get?_congr hslots ▸ ho)

/-- A change of an object that stays in range. -/
theorem Ranged.modify (h : m.Ranged) (hf : ∀ o, m.get? v = some o → (f o).Ranged) :
    (m.modify v f).Ranged := by
  intro w o ho
  rw [get?_modify] at ho
  split at ho
  · rename_i hw
    obtain ⟨before, hbefore, rfl⟩ := Option.map_eq_some_iff.1 ho
    exact hf before (hw ▸ hbefore)
  · exact h w o ho

theorem Ranged.setField (h : m.Ranged) (hx : x.Ranged) : (m.setField v i x).Ranged :=
  h.modify fun o ho => (h v o ho).setPointer hx

/-- What resolves to a new object, by whatever reference, resolved before otherwise. -/
theorem get?_of_place {w : Value} {o' : Object} (h : (m.place o).2.get? w = some o') :
    o' = o ∨ m.get? w = some o' := by
  obtain ⟨index, generation, slot, rfl, hs, hg, hobject⟩ := get?_eq_some.1 h
  cases hf : m.free with
  | nil =>
    simp only [place, hf, Array.getElem?_push] at hs
    split at hs
    · obtain rfl := Option.some.inj hs
      exact .inl (Option.some.inj hobject).symm
    · exact .inr (get?_eq_some.2 ⟨index, generation, slot, rfl, hs, hg, hobject⟩)
  | cons j free =>
    simp only [place, hf, Array.getElem?_modify] at hs
    split at hs
    · obtain ⟨old, -, rfl⟩ := Option.map_eq_some_iff.1 hs
      exact .inl (Option.some.inj hobject).symm
    · exact .inr (get?_eq_some.2 ⟨index, generation, slot, rfl, hs, hg, hobject⟩)

theorem Ranged.place (h : m.Ranged) (ho : o.Ranged) : (m.place o).2.Ranged := by
  intro w o' hw
  rcases get?_of_place hw with rfl | hw
  · exact ho
  · exact h w o' hw

theorem Ranged.reclaim (h : m.Ranged) (roots : List Value) (scope : Scope) :
    (m.reclaim roots scope).2.Ranged := by
  intro w o ho
  rw [reclaim_get?] at ho
  split at ho
  · cases ho
  · exact h w o ho

/-- A renaming to values in range. -/
theorem Ranged.rename (h : m.Ranged) {r : Renaming} (hr : ∀ v, v.Ranged → (r.apply v).Ranged) :
    (m.rename r).Ranged := by
  intro w o ho
  rw [Machine.get?_rename] at ho
  obtain ⟨before, hbefore, rfl⟩ := Option.map_eq_some_iff.1 ho
  have hranged := h w before hbefore
  refine ⟨hr _ hranged.cls, ?_, fun x hx => ?_⟩
  · rw [Renaming.applyObject, Array.size_map]
    exact hranged.size
  · obtain ⟨y, hy, rfl⟩ := Array.mem_map.1 hx
    exact hr y (hranged.fields y hy)

theorem Ranged.foldl_pin (h : m.Ranged) (values : List Value) : (values.foldl Memory.pin m).Ranged := by
  induction values generalizing m with
  | nil => exact h
  | cons v values ih => exact ih (h.of_slots rfl)

/-- A registration leaves a memory in range, whether it succeeds or not, and rejects no number. -/
theorem Ranged.register (h : m.Ranged) (ho : o.Ranged) :
    match Memory.register o m with
    | .ok v m' => v.isReference = true ∧ m'.Ranged
    | .error e m' => m'.Ranged ∧ rejected? e = none := by
  have hobject : ({ o with hash := seedHash (nextSeed m.hashSeed) } : Object).Ranged := ho.body rfl rfl
  have hplace : ∀ (o : Object) (m₁ : Memory), (m₁.place o).1.isReference = true := by
    intro o m₁
    simp only [Memory.place]
    split <;> rfl
  have hseeded : ({ m with hashSeed := nextSeed m.hashSeed } : Memory).Ranged := h.of_slots rfl
  unfold Memory.register
  dsimp only
  rw [registerHashed_eq]
  by_cases hrefused : (({ m with hashSeed := nextSeed m.hashSeed } : Memory).isFull &&
      !({ m with hashSeed := nextSeed m.hashSeed } : Memory).canGrow) = true
  · rw [if_pos hrefused]
    exact ⟨hseeded, rfl⟩
  rw [if_neg hrefused]
  by_cases hpanic : ({ m with hashSeed := nextSeed m.hashSeed } : Memory).isFull = true ∧
      ¬({ m with hashSeed := nextSeed m.hashSeed } : Memory).GrowthFits
  · rw [if_pos hpanic]
    exact ⟨hseeded, rfl⟩
  · rw [if_neg hpanic]
    exact ⟨hplace _ _, Ranged.place (hseeded.of_slots (readied_slots _)) hobject⟩

end Memory

/-! ### Both endings of a computation -/

namespace Outcome

variable {ε σ α β : Type} {E : ε → σ → Prop} {I J : σ → Prop} {x : EStateM ε σ α}
  {f : α → EStateM ε σ β} {Q R : α → σ → Prop} {P : α → Prop} {a : α}

/-- Started in a state with `I`, a computation ends with an answer as in `Q`, or with an error as in
`E`. -/
structure Ends (E : ε → σ → Prop) (I : σ → Prop) (x : EStateM ε σ α) (Q : α → σ → Prop) : Prop where
  run : ∀ s, I s → match x s with
    | .ok a s' => Q a s'
    | .error e s' => E e s'

/-- The state is as in `I`, and the answer as in `P`. -/
def keeping (I : σ → Prop) (P : α → Prop) : α → σ → Prop := fun a s => I s ∧ P a

namespace Ends

theorem ok {s s' : σ} (hx : Ends E I x Q) (hs : I s) (hrun : x s = .ok a s') : Q a s' := by
  have h := hx.run s hs
  rw [hrun] at h
  exact h

theorem error {s s' : σ} {e : ε} (hx : Ends E I x Q) (hs : I s) (hrun : x s = .error e s') : E e s' := by
  have h := hx.run s hs
  rw [hrun] at h
  exact h

theorem bind {Q : β → σ → Prop} (hx : Ends E I x R) (hf : ∀ a, Ends E (R a) (f a) Q) :
    Ends E I (x >>= f) Q := by
  refine ⟨fun s hs => ?_⟩
  change match EStateM.bind x f s with
    | .ok b s' => Q b s'
    | .error e s' => E e s'
  rw [EStateM.bind]
  cases hrun : x s with
  | ok a s₁ => exact (hf a).run s₁ (hx.ok hs hrun)
  | error e s₁ => exact hx.error hs hrun

/-- The state is kept, so only the answer matters for what follows. -/
theorem next {Q : β → σ → Prop} (hx : Ends E I x (keeping J P)) (hf : ∀ a, P a → Ends E J (f a) Q) :
    Ends E I (x >>= f) Q := .bind hx fun a => ⟨fun s hs => (hf a hs.2).run s hs.1⟩

theorem pre (hx : Ends E J x Q) (h : ∀ s, I s → J s) : Ends E I x Q := ⟨fun s hs => hx.run s (h s hs)⟩

/-- Nothing that follows an error matters. -/
theorem weaken {E' : ε → σ → Prop} (hx : Ends E' I x Q) (h : ∀ e s, E' e s → E e s) : Ends E I x Q := by
  refine ⟨fun s hs => ?_⟩
  cases hrun : x s with
  | ok a s' => exact hx.ok hs hrun
  | error e s' => exact h e s' (hx.error hs hrun)

/-- More is known about the answers. -/
theorem of_ok (hx : Ends E I x R) (h : ∀ s a s', I s → R a s' → x s = .ok a s' → Q a s') :
    Ends E I x Q := by
  refine ⟨fun s hs => ?_⟩
  cases hrun : x s with
  | ok a s' => exact h s a s' hs (hx.ok hs hrun) hrun
  | error e s' => exact hx.error hs hrun

theorem mono (hx : Ends E I x R) (h : ∀ a s, R a s → Q a s) : Ends E I x Q :=
  hx.of_ok fun _ a s' _ hR _ => h a s' hR

/-- An observation keeps everything. -/
theorem look [Rejects ε] [Observes x] (hE : ∀ e s, I s → rejected? e = none → E e s)
    (hP : ∀ a s, I s → x s = .ok a s → P a) : Ends E I x (keeping I P) := by
  refine ⟨fun s hs => ?_⟩
  cases hrun : x s with
  | ok a s' =>
    obtain rfl := Observes.of_ok hrun
    exact ⟨hs, hP a s' hs hrun⟩
  | error e s' =>
    obtain ⟨rfl, he⟩ := Observes.of_error hrun
    exact hE e s' hs he

theorem pure (h : ∀ s, I s → Q a s) : Ends E I (Pure.pure a : EStateM ε σ α) Q := ⟨h⟩

theorem answer (h : P a) : Ends E I (Pure.pure a : EStateM ε σ α) (keeping I P) := ⟨fun _ hs => ⟨hs, h⟩⟩

theorem throw {e : ε} (h : ∀ s, I s → E e s) : Ends E I (throw e : EStateM ε σ α) Q := ⟨h⟩

theorem ite {p : Prop} [Decidable p] {y : EStateM ε σ α} (hx : p → Ends E I x Q)
    (hy : ¬p → Ends E I y Q) : Ends E I (if p then x else y) Q := by
  split
  · exact hx ‹_›
  · exact hy ‹_›

/-- Where several branches go on in the same way, that way is looked at once. -/
theorem join {Q : β → σ → Prop} {y : EStateM ε σ β} (hy : (∀ a, Ends E (R a) (f a) Q) → Ends E I y Q)
    (hf : ∀ a, Ends E (R a) (f a) Q) : Ends E I y Q := hy hf

/-- Nothing has to be known about the answer. -/
theorem done (hx : Ends E I x (keeping J P)) : Ends E I x (keeping J fun _ => True) :=
  hx.mono fun _ _ h => ⟨h.1, trivial⟩

/-- What each turn keeps, the loop keeps. -/
theorem forM {xs : List α} {g : α → EStateM ε σ PUnit}
    (hg : ∀ a ∈ xs, Ends E I (g a) (keeping I fun _ => True)) :
    Ends E I (xs.forM g) (keeping I fun _ => True) := by
  induction xs with
  | nil => exact .answer trivial
  | cons a xs ih =>
    exact .next (hg a List.mem_cons_self) fun _ _ => ih fun b hb => hg b (List.mem_cons_of_mem a hb)

end Ends

end Outcome

/-! ### What a machine holds -/

/-- The numbers that the devices answer are in range. -/
structure Device.Devices.Ranged (d : Devices) : Prop where
  mouse : Value.InRange d.mouse.1 ∧ Value.InRange d.mouse.2
  buttons : Value.InRange d.buttons
  keys : ∀ key ∈ d.keys, Value.InRange key
  display : Value.InRange d.displaySize.1 ∧ Value.InRange d.displaySize.2

/-- What is stored for the registers is in range, the instruction pointer also if it is `slack` bytes
further on. -/
structure Registers.Ranged (slack : Nat) (r : Registers) : Prop where
  context : r.context.Ranged
  home : r.home.Ranged
  method : r.method.Ranged
  receiver : r.receiver.Ranged
  literals : r.literalCount < 256
  pc : r.pc + slack + (r.literalCount + 1) * 4 + 1 < 0x40000000
  sp : r.sp < 0x40000000 + Context.receiver

theorem Clock.inRange_milliseconds (c : Clock) : Value.InRange c.milliseconds := by
  have hlt := Nat.mod_lt c.elapsed (by decide : 0 < 0x20000000)
  rw [Value.inRange_iff, Clock.milliseconds]
  omega

/-- What the machine holds outside of the heap and the registers is in range. -/
structure Machine.Outfitted (m : Machine) : Prop where
  array : m.specials.array.Ranged
  nil : m.specials.nil.Ranged
  falseObject : m.specials.falseObject.Ranged
  trueObject : m.specials.trueObject.Ranged
  pool : ∀ v ∈ m.pool.roots, v.Ranged
  devices : m.devices.Ranged

/-- All integers that a machine holds are in range, and so are those that it will store for its
registers. -/
structure Machine.Ranged (slack : Nat) (m : Machine) : Prop where
  memory : m.memory.Ranged
  registers : m.registers.Ranged slack
  outfitted : m.Outfitted

/-- What is left by a fault: the heap is in range, and a number that was rejected is as in `R`. -/
def faulted (R : Int → Machine → Prop) (f : Fault) (m : Machine) : Prop :=
  m.memory.Ranged ∧ ∀ n, rejected? f = some n → R n m

theorem faulted_of_accepts {R : Int → Machine → Prop} {f : Fault} {m : Machine}
    (hm : m.memory.Ranged) (hf : rejected? f = none) : faulted R f m :=
  ⟨hm, fun n hn => by rw [hf] at hn; cases hn⟩

namespace Machine

variable {m m' : Machine} {slack slack' i : Nat} {v x : Value} {b : Bool}

theorem Outfitted.truth (h : m.Outfitted) (b : Bool) : (m.specials.truth b).Ranged := by
  cases b with
  | true => exact h.trueObject
  | false => exact h.falseObject

theorem Ranged.mono (h : m.Ranged slack) (hslack : slack' ≤ slack) : m.Ranged slack' where
  memory := h.memory
  registers := { h.registers with pc := by have := h.registers.pc; omega }
  outfitted := h.outfitted

theorem Outfitted.alike (h : m.Outfitted) (specials : m'.specials = m.specials)
    (pool : ∀ v ∈ m'.pool.roots, v ∈ m.pool.roots) (devices : m'.devices = m.devices) : m'.Outfitted where
  array := specials ▸ h.array
  nil := specials ▸ h.nil
  falseObject := specials ▸ h.falseObject
  trueObject := specials ▸ h.trueObject
  pool v hv := h.pool v (pool v hv)
  devices := devices ▸ h.devices

theorem Outfitted.of_heap (h : m.Outfitted) (memory : Memory) (r : Registers) :
    ({ m with memory, registers := r } : Machine).Outfitted := h.alike rfl (fun _ hv => hv) rfl

theorem Ranged.withRegisters (h : m.Ranged slack) {r : Registers} (hr : r.Ranged slack') :
    (m.withRegisters r).Ranged slack' := ⟨h.memory, hr, h.outfitted.of_heap ..⟩

theorem Ranged.withMemory (h : m.Ranged slack) {memory : Memory} (hmemory : memory.Ranged) :
    ({ m with memory } : Machine).Ranged slack := ⟨hmemory, h.registers, h.outfitted.of_heap ..⟩

/-- What else there is in a machine holds no integers. -/
theorem Ranged.alike (h : m.Ranged slack) (memory : m'.memory = m.memory)
    (registers : m'.registers = m.registers) (specials : m'.specials = m.specials)
    (pool : ∀ v ∈ m'.pool.roots, v ∈ m.pool.roots) (devices : m'.devices = m.devices) :
    m'.Ranged slack where
  memory := memory ▸ h.memory
  registers := registers ▸ h.registers
  outfitted := h.outfitted.alike specials pool devices

theorem Ranged.cell (h : m.Ranged slack) (hx : m.memory.cell v i = some x) :
    x.Ranged := h.memory.cell hx

/-- What has a field is no integer, and has not too many fields. -/
theorem Ranged.index_lt (h : m.Ranged slack) (hx : m.memory.cell v i = some x) :
    v.Ranged ∧ i < maxFields := by
  refine ⟨.of_isLive (Memory.isLive_of_cell hx), ?_⟩
  obtain ⟨o, ho, hx⟩ := Memory.cell_eq_some.1 hx
  obtain ⟨hi, -⟩ := Array.getElem?_eq_some_iff.1 hx
  exact hi.trans_le (h.memory v o ho).size

theorem Ranged.special (h : m.Ranged slack) (i : Nat) :
    (m.specials.get m.memory i).Ranged := by
  rw [SpecialObjects.get]
  cases hx : (m.memory.get? m.specials.array).bind fun o => o.pointers[i]? with
  | none => exact h.outfitted.nil
  | some x =>
    obtain ⟨o, ho, hx⟩ := Option.bind_eq_some_iff.1 hx
    exact (h.memory _ o ho).field hx

theorem Ranged.setCell (h : m.Ranged slack) (hx : x.Ranged) :
    (m.setCell v i x).Ranged slack :=
  h.withMemory (h.memory.setField hx)

/-- All that a machine holds is in range, whatever there is in its registers, and it takes up a context. -/
structure Poised (context : Value) (m : Machine) : Prop where
  memory : m.memory.Ranged
  outfitted : m.Outfitted
  active : context.Ranged
  context : m.registers.context = context

/-- The registers of a context are in range. -/
theorem Poised.loaded {context : Value} (h : m.Poised context) {r : Registers}
    (hcontext : r.context = context) (hr : Action.Loaded m.memory context r) : r.Ranged 0 where
  context := hcontext ▸ h.active
  home := by
    obtain ⟨slot, hslot, ⟨-, hhome, -⟩ | ⟨-, hhome, -⟩⟩ := hr.home
    · exact h.memory.cell hhome
    · exact hhome ▸ .of_isLive (Memory.isLive_of_cell hslot)
  method := by
    obtain ⟨slot, hslot, ⟨-, -, hmethod⟩ | ⟨-, -, hmethod⟩⟩ := hr.home
    · exact h.memory.cell hmethod
    · exact hmethod ▸ h.memory.cell hslot
  receiver := h.memory.cell hr.receiver
  literals := by
    obtain ⟨header, -, hcount⟩ := hr.literalCount
    exact hcount ▸ header.literalCount_lt
  pc := by
    obtain ⟨k, hk, hpc⟩ := hr.pc
    have hrange := Value.inRange_iff.1 (h.memory.cell hk).inRange
    simp only [Context.decodePc?] at hpc
    split at hpc
    · cases hpc
    · have hpc := Option.some.inj hpc
      omega
  sp := by
    obtain ⟨k, hk, hsp⟩ := hr.sp
    have hrange := Value.inRange_iff.1 (h.memory.cell hk).inRange
    simp only [Context.decodeSp?] at hsp
    split at hsp
    · cases hsp
    · have hsp := Option.some.inj hsp
      omega

end Machine

/-! ### Fields and registers -/

namespace Action

variable {R : Int → Machine → Prop} {α β : Type} {y : Action α} {f : α → Action β} {P : α → Prop}
  {S : α → Machine → Prop} {Q : β → Machine → Prop} {slack slack' i n : Nat} {v x context : Value}

/-- An action keeps a machine in range, and answers as in `P`. -/
abbrev Keeps (R : Int → Machine → Prop) (slack : Nat) (y : Action α) (P : α → Prop) : Prop :=
  Ends (faulted R) (Machine.Ranged slack) y (keeping (Machine.Ranged slack) P)

theorem keeps_look [Observes y] (hP : ∀ a m, m.Ranged slack → y m = .ok a m → P a) :
    Keeps R slack y P := .look (fun _ _ hm he => faulted_of_accepts hm.memory he) hP

theorem ends_throw {e : Fault} (he : rejected? e = none) :
    Ends (faulted R) (Machine.Ranged slack) (throw e : Action α) S :=
  .throw fun _ hm => faulted_of_accepts hm.memory he

theorem keeps_glance [Observes y] : Keeps R slack y fun _ => True := keeps_look fun _ _ _ _ => trivial

theorem keeps_get : Keeps R slack (get : Action Machine) fun m => m.Ranged slack :=
  keeps_look fun _ _ hm hrun => (get_ok.1 hrun).1 ▸ hm

theorem keeps_registers : Keeps R slack registers fun r => r.Ranged slack :=
  keeps_look fun _ _ hm hrun => (registers_ok.1 hrun).1 ▸ hm.registers

theorem keeps_nil : Keeps R slack nil fun v => v.Ranged :=
  keeps_look fun _ _ hm hrun => (nil_ok.1 hrun).1 ▸ hm.outfitted.nil

theorem keeps_truth {b : Bool} : Keeps R slack (truth b) fun v => v.Ranged :=
  keeps_look fun _ _ hm hrun => (truth_ok.1 hrun).1 ▸ hm.outfitted.truth b

theorem keeps_special : Keeps R slack (special i) fun v => v.Ranged :=
  keeps_look fun _ _ hm hrun => (special_ok.1 hrun).1 ▸ hm.special i

theorem keeps_object : Keeps R slack (object v) fun o => v.Ranged ∧ o.Ranged :=
  keeps_look fun _ _ hm hrun =>
    ⟨.of_isLive (Memory.isLive_of_get? (object_ok.1 hrun).1), hm.memory _ _ (object_ok.1 hrun).1⟩

theorem keeps_classOf : Keeps R slack (classOf v) fun cls => cls.Ranged := by
  cases v with
  | small k => exact keeps_special
  | ref index generation => exact .next keeps_object fun _ ho => .answer ho.2.cls

theorem keeps_fetch : Keeps R slack (fetch v i) fun x =>
    (v.Ranged ∧ i < maxFields) ∧ x.Ranged :=
  keeps_look fun _ _ hm hrun => ⟨hm.index_lt (fetch_ok.1 hrun).1, hm.cell (fetch_ok.1 hrun).1⟩

theorem keeps_fetchInt : Keeps R slack (fetchInt v i) fun n =>
    v.Ranged ∧ (Value.small n).Ranged :=
  keeps_look fun _ _ hm hrun => ⟨(hm.index_lt (fetchInt_ok.1 hrun).1).1, hm.cell (fetchInt_ok.1 hrun).1⟩

theorem keeps_store (hx : x.Ranged) :
    Keeps R slack (store v i x) fun _ => v.Ranged ∧ i < maxFields :=
  .next keeps_fetch fun _ hfield => ⟨fun _ hm => ⟨hm.setCell hx, hfield.1⟩⟩

theorem ends_modifyRegisters {g : Registers → Registers}
    (hg : ∀ r, r.Ranged slack → (g r).Ranged slack') :
    Ends (faulted R) (Machine.Ranged slack) (modifyRegisters g)
      (keeping (Machine.Ranged slack') fun _ => True) :=
  ⟨fun _ hm => ⟨hm.withRegisters (hg _ hm.registers), trivial⟩⟩

/-- A change of what holds no integers. -/
theorem keeps_modify {g : Machine → Machine}
    (hg : ∀ m, (g m).memory = m.memory ∧ (g m).registers = m.registers ∧ (g m).specials = m.specials ∧
      (∀ v ∈ (g m).pool.roots, v ∈ m.pool.roots) ∧ (g m).devices = m.devices) :
    Keeps R slack (modify g) fun _ => True := by
  refine ⟨fun m hm => ?_⟩
  obtain ⟨memory, registers, specials, pool, devices⟩ := hg m
  exact ⟨hm.alike memory registers specials pool devices, trivial⟩

theorem keeps_modifyCounters {g : Counters → Counters} :
    Keeps R slack (modifyCounters g) fun _ => True :=
  keeps_modify (g := fun m => { m with counters := g m.counters }) fun _ =>
    ⟨rfl, rfl, rfl, fun _ hv => hv, rfl⟩

/-- An immediate integer is made of a number in range. -/
theorem keeps_immediate {k : Int} (h : Value.InRange k) : Keeps R slack (immediate k) fun v => v.Ranged := by
  refine ⟨fun m hm => ?_⟩
  rw [immediate, Value.immediate_of_inRange h]
  exact ⟨hm, Value.ranged_small h⟩

/-- A method that is not too long has positions that can be stored. -/
theorem inRange_encodePc {pc literalCount : Nat} (h : pc + (literalCount + 1) * 4 + 1 < 0x40000000) :
    Value.InRange (Context.encodePc pc literalCount) := by
  rw [Context.encodePc, signedWord_of_lt (by omega)]
  exact Value.inRange_count h

/-- What is stored for the registers is in range. -/
theorem keeps_saveRegisters : Keeps R slack saveRegisters fun _ => True := by
  refine .next keeps_registers fun r hr => ?_
  have hpc : Value.InRange (Context.encodePc r.pc r.literalCount) :=
    inRange_encodePc (by have := hr.pc; omega)
  have hsp : Value.InRange (Context.encodeSp r.sp) := by
    have hsp := hr.sp
    have hreceiver : Context.receiver = 5 := rfl
    rw [Value.inRange_iff, Context.encodeSp]
    omega
  refine .next (keeps_immediate hpc) fun pc hpc => .next (keeps_immediate hsp) fun sp hsp => ?_
  exact .next (keeps_store hpc) fun _ _ => .done (keeps_store hsp)

/-- An action keeps the heap in range, whatever there is in the registers. -/
abbrev KeepsHeap (R : Int → Machine → Prop) (y : Action α) : Prop :=
  Ends (faulted R) (fun m => m.memory.Ranged) y (keeping (fun m => m.memory.Ranged) fun _ => True)

theorem heap_look [Observes y] : KeepsHeap R y :=
  .look (fun _ _ hm he => faulted_of_accepts hm he) fun _ _ _ _ => trivial

theorem heap_throw {e : Fault} (he : rejected? e = none) :
    Ends (faulted R) (fun m => m.memory.Ranged) (throw e : Action α) S :=
  .throw fun _ hm => faulted_of_accepts hm he

theorem heap_modifyRegisters {g : Registers → Registers} : KeepsHeap R (modifyRegisters g) :=
  ⟨fun _ hm => ⟨hm, trivial⟩⟩

theorem heap_loadFrame {home method : Value} : KeepsHeap R (loadFrame context home method) := by
  refine .next heap_modifyRegisters fun _ _ => .next heap_look fun receiver _ => ?_
  refine .next heap_modifyRegisters fun _ _ => .next heap_look fun memory _ => ?_
  refine .next heap_look fun header _ => .next heap_modifyRegisters fun _ _ => ?_
  refine .next heap_look fun stored _ => ?_
  dsimp only
  cases Context.decodePc? stored header.literalCount with
  | none => exact .bind (R := fun _ _ => False) (heap_throw rfl) fun _ => ⟨fun _ h => h.elim⟩
  | some pc =>
    refine .next heap_modifyRegisters fun _ _ => .next heap_look fun stored _ => ?_
    cases Context.decodeSp? stored with
    | none => exact heap_throw rfl
    | some sp => exact heap_modifyRegisters

theorem heap_loadRegisters : KeepsHeap R (loadRegisters context) := by
  refine .next heap_look fun slot _ => ?_
  cases slot with
  | small n => exact .next heap_look fun home _ => .next heap_look fun method _ => heap_loadFrame
  | ref index generation => exact heap_loadFrame

theorem ends_takeUp (hcontext : context.Ranged) : Ends (faulted R) (Machine.Ranged slack)
    (modifyRegisters fun r => { r with context }) (keeping (Machine.Poised context) fun _ => True) :=
  ⟨fun _ hm => ⟨⟨hm.memory, hm.outfitted.of_heap .., hcontext, rfl⟩, trivial⟩⟩

/-- The registers of a context are in range. -/
theorem ends_loadRegisters : Ends (faulted R) (Machine.Poised context) (loadRegisters context)
    (keeping (Machine.Ranged 0) fun _ => True) := by
  refine (heap_loadRegisters.pre fun _ hm => hm.memory).of_ok fun m u m' hm _ hrun => ?_
  obtain ⟨r, rfl, hcontext, hr⟩ := loadRegisters_ok hrun
  exact ⟨⟨hm.memory, hm.loaded (hcontext.trans hm.context) hr, hm.outfitted.of_heap ..⟩, trivial⟩

/-- Switching to a context. -/
theorem ends_activate (hcontext : context.Ranged) : Ends (faulted R) (Machine.Ranged slack)
    (activate context) (keeping (Machine.Ranged 0) fun _ => True) :=
  .next keeps_saveRegisters fun _ _ => .next (ends_takeUp hcontext) fun _ _ => ends_loadRegisters

/-! ### The stack -/

theorem keeps_stackValue : Keeps R slack (stackValue n) fun x => x.Ranged :=
  keeps_look fun _ _ hm hrun => hm.cell (stackValue_ok.1 hrun).2.1

/-- There is a field for what is pushed, so the stack pointer is no greater than there are fields. A fault
comes before anything is stored. -/
theorem ends_push : Ends (faulted R) (Machine.Ranged slack) (push x) fun _ m =>
    x.Ranged → m.Ranged slack := by
  have hheap : Ends (faulted R) (fun m => m.memory.Ranged) (push x) fun _ _ => True :=
    .next heap_look fun _ _ => .bind (R := fun _ _ => True) (.next heap_look fun _ _ => ⟨fun _ _ => trivial⟩)
      fun _ => ⟨fun _ _ => trivial⟩
  refine (hheap.pre fun _ hm => hm.memory).of_ok fun m u m' hm _ hrun hx => ?_
  obtain ⟨⟨y, hy⟩, rfl⟩ := push_ok.1 hrun
  have hlt := (hm.index_lt hy).2
  have hr := hm.registers
  refine (hm.setCell hx).withRegisters
    ⟨hr.context, hr.home, hr.method, hr.receiver, hr.literals, hr.pc, ?_⟩
  simp only [maxFields] at hlt
  exact hlt.trans_le (by omega)

theorem keeps_push (hx : x.Ranged) : Keeps R slack (push x) fun _ => True :=
  ends_push.mono fun _ _ h => ⟨h hx, trivial⟩

theorem keeps_popN : Keeps R slack (popN n) fun _ => True :=
  .next keeps_registers fun _ _ => .ite (fun _ => ends_throw rfl) fun _ =>
    ends_modifyRegisters fun _ hr => { hr with sp := (Nat.sub_le _ _).trans_lt hr.sp }

theorem keeps_pop : Keeps R slack pop fun x => x.Ranged := by
  have popped : ∀ {x : Value}, x.Ranged → Keeps R slack (do
      modifyRegisters fun r => { r with sp := r.sp - 1 }
      return x) fun x => x.Ranged := fun hx =>
    .next (ends_modifyRegisters fun _ hr => { hr with sp := (Nat.sub_le _ _).trans_lt hr.sp }) fun _ _ =>
      .answer hx
  refine .next keeps_stackValue fun x hx => .next keeps_registers fun r _ => .ite (fun _ => ?_) fun _ => ?_
  · exact .next (J := Machine.Ranged slack) (P := fun _ => True) (ends_throw rfl) fun _ _ => popped hx
  · exact popped hx

theorem ends_popThenPush : Ends (faulted R) (Machine.Ranged slack) (popThenPush n x) fun _ m =>
    x.Ranged → m.Ranged slack := .next keeps_popN fun _ _ => ends_push

theorem keeps_popThenPush (hx : x.Ranged) : Keeps R slack (popThenPush n x) fun _ => True :=
  ends_popThenPush.mono fun _ _ h => ⟨h hx, trivial⟩

/-- As many values as are on the stack. -/
theorem stackValues_le {xs : List Value} {m m' : Machine} (hrun : stackValues (n + 1) m = .ok xs m') :
    n ≤ m.registers.sp ∧ ∃ x, m.memory.cell m.registers.context m.registers.sp = some x := by
  induction n generalizing xs m' with
  | zero =>
    obtain ⟨x, m₁, hx, -⟩ := bind_ok.1 hrun
    exact ⟨Nat.zero_le _, x, (stackValue_ok.1 hx).2.1⟩
  | succ n ih =>
    obtain ⟨x, m₁, hx, hrest⟩ := bind_ok.1 hrun
    obtain ⟨hdepth, -, rfl⟩ := stackValue_ok.1 hx
    obtain ⟨rest, m₂, hrest, -⟩ := bind_ok.1 hrest
    exact ⟨hdepth, (ih hrest).2⟩

theorem keeps_stackValues : Keeps R slack (stackValues n) fun xs =>
    (∀ x ∈ xs, x.Ranged) ∧ xs.length ≤ maxFields := by
  refine keeps_look fun xs m hm hrun => ?_
  obtain ⟨-, hlength, hmem⟩ := stackValues_ok hrun
  refine ⟨fun x hx => ?_, ?_⟩
  · obtain ⟨depth, -, -, hcell⟩ := hmem x hx
    exact hm.cell hcell
  · cases n with
    | zero => exact hlength ▸ Nat.zero_le _
    | succ n =>
      obtain ⟨hle, x, hx⟩ := stackValues_le hrun
      have hlt := (hm.index_lt hx).2
      omega

end Action

end Smalltalk
