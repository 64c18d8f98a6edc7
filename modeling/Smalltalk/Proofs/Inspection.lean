import Smalltalk.Proofs.Elements
import Smalltalk.Proofs.Entering

/-!
# Elements of contexts

A debugger reads and writes the frame of a context by index. How many elements there are is said by the
stored stack pointer, which counts from the first argument or temporary on. Where they begin is said by
the format of the context: after the six fixed fields if the class is asked for them, but at the first
field, which is the sender, if the format has no named fields. A context out of an image has the one
format, a context that is made for a method has the other, and a block has the format of its home. A
context keeps its format, also when it waits in the pool and is reused.
-/

namespace Smalltalk

open Outcome

variable {m m' m₀ m₁ : Machine} {c v x y : Value} {f : Format} {o : Object} {k : Int} {i j n : Nat}

/-- Where the elements of a context of this format begin. -/
def Format.frameStart (f : Format) : Nat := if f = .indexable then 0 else Context.frameStart

/-- A context that can be asked for its elements: its class gives six named fields to its instances, it
has stored its stack pointer, and the selectors of the accesses are known. -/
structure Machine.Inspectable (m : Machine) (c : Value) (k : Int) : Prop where
  named : ∃ o word, m.memory.get? c = some o ∧
    m.memory.cell o.cls Class.format = some (.small word) ∧
    (InstanceSpec.decode word).instSize = Context.frameStart
  context : m.isContext c = true
  float : m.isInstance c Special.classFloat = false
  stored : m.memory.cell c Context.stackPointer = some (.small k)
  selectors : ∀ access, ∃ selector,
    Action.specialSelector (Action.selectorIndex access) m = .ok selector m

/-- What a context remembers of its bounds. -/
def Object.frameEntry (o : Object) (c : Value) (k : Int) : AtEntry where
  array := c
  size := k.toNat
  offset := min o.format.frameStart o.pointers.size
  asCharacters := false

namespace Machine.Inspectable

theorem named? (h : m.Inspectable c k) (ho : m.memory.get? c = some o)
    (hf : o.format = .indexable ∨ o.format = .fixedIndexable) :
    m.named? o = some (min o.format.frameStart o.pointers.size) := by
  obtain ⟨o', word, ho', hword, hspec⟩ := h.named
  obtain rfl := Option.some.inj (ho.symm.trans ho')
  rcases hf with hf | hf
  · simp [Machine.named?, Object.namedFields, Format.frameStart, hf]
  · simp [Machine.named?, Object.namedFields, Format.frameStart, hf, hword, Value.asSmall?, hspec]

/-- The bounds of a context are worked out, and not remembered. -/
theorem atEntry {access : Access} (h : m.Inspectable c k) (ho : m.memory.get? c = some o)
    (hf : o.format = .indexable ∨ o.format = .fixedIndexable) :
    Action.atEntry access c (.plain false) m = .ok (o.frameEntry c k) m := by
  have hpointers : o.format.isPointers = true := by rcases hf with hf | hf <;> rw [hf] <;> rfl
  have hsize : m.size? c = some (some k.toNat) := by
    rw [Machine.size?, Memory.isSmall_of_isLive (Memory.isLive_of_cell h.stored),
      if_neg Bool.false_ne_true, if_pos h.context, h.stored]
    rfl
  obtain ⟨cache, hcache, hentry⟩ :=
    Action.atEntry_of access (.plain false) ho (h.named? ho hf) hsize (h.selectors access)
  rw [hcache h.context, Object.bounds, Object.offset, if_pos hpointers] at hentry
  exact hentry

/-- The elements of a context are its fields from the start on. -/
theorem element? (ho : m.memory.get? c = some o)
    (hf : o.format = .indexable ∨ o.format = .fixedIndexable) :
    o.element? (o.frameEntry c k).offset false j =
      (m.memory.cell c (o.format.frameStart + j)).map .pointer := by
  have hpointers : o.format.isPointers = true := by rcases hf with hf | hf <;> rw [hf] <;> rfl
  have hoffset : (o.frameEntry c k).offset = min o.format.frameStart o.pointers.size := rfl
  rw [Object.element?_pointers hpointers, Memory.cell, ho, Option.bind_some, hoffset]
  by_cases hsize : o.format.frameStart ≤ o.pointers.size
  · rw [Nat.min_eq_left hsize, Nat.add_comm]
  · rw [Nat.min_eq_right (by omega), Array.getElem?_eq_none (by omega), Array.getElem?_eq_none (by omega)]

end Machine.Inspectable

/-- The elements of a context are its fields from `start` on, as many as it says: `basicAt:` answers the
field, and `basicAt:put:` changes that field and nothing else. -/
structure Machine.Inspects (m : Machine) (c : Value) (start : Nat) (k : Int) : Prop where
  read : ∀ {v y i}, 2 ≤ m.registers.sp → Action.stackValue 1 m = .ok c m →
    Action.stackValue 0 m = .ok v m → m.Denotes v i → 1 ≤ i → (i : Int) ≤ k →
    m.memory.cell c (start + (i - 1)) = some y →
    Action.tryPrimitive 60 1 m = .ok .handled (Action.pushed (Action.popped m 2) y)
  write : ∀ {v x y i}, 3 ≤ m.registers.sp → Action.stackValue 2 m = .ok c m →
    Action.stackValue 1 m = .ok v m → Action.stackValue 0 m = .ok x m → m.Denotes v i → 1 ≤ i →
    (i : Int) ≤ k → m.memory.cell c (start + (i - 1)) = some y →
    Action.tryPrimitive 61 2 m =
      .ok .handled (Action.pushed (Action.popped (m.setCell c (start + (i - 1)) x) 3) x)

namespace Machine.Inspectable

open Attempt

variable (h : m.Inspectable c k) (ho : m.memory.get? c = some o)
  (hf : o.format = .indexable ∨ o.format = .fixedIndexable)
include h ho hf

theorem indexedAt (hc : Action.stackValue 1 m = .ok c m) (hv : Action.stackValue 0 m = .ok v m)
    (hi : m.Denotes v i) (hlow : 1 ≤ i) (hhigh : (i : Int) ≤ k)
    (hy : m.memory.cell c (o.format.frameStart + (i - 1)) = some y) :
    indexedAt false (.plain false) m = .ok y m := by
  have hrange : 1 ≤ i ∧ i ≤ (o.frameEntry c k).size := ⟨hlow, by
    simp only [Object.frameEntry]
    omega⟩
  have hfound : o.element? (o.frameEntry c k).offset (o.frameEntry c k).asCharacters (i - 1) =
      some (.pointer y) := (element? ho hf).trans (by rw [hy]; rfl)
  rw [indexedAt_slow hc ho hv h.float, bind_of_ok (positive32Value_of hi),
    bind_of_ok (lift_ok.2 (h.atEntry ho hf)), bind_of_ok (require_of hrange), elementAt_eq ho, hfound]
  rfl

theorem indexedAtPut (hc : Action.stackValue 2 m = .ok c m) (hv : Action.stackValue 1 m = .ok v m)
    (hx : Action.stackValue 0 m = .ok x m) (hi : m.Denotes v i) (hlow : 1 ≤ i) (hhigh : (i : Int) ≤ k)
    (hy : m.memory.cell c (o.format.frameStart + (i - 1)) = some y) :
    indexedAtPut false (.plain false) m =
      .ok x (m.setCell c (o.format.frameStart + (i - 1)) x) := by
  have hrange : 1 ≤ i ∧ i ≤ (o.frameEntry c k).size := ⟨hlow, by
    simp only [Object.frameEntry]
    omega⟩
  have hfound : o.element? (o.frameEntry c k).offset (o.frameEntry c k).asCharacters (i - 1) =
      some (.pointer y) := (element? ho hf).trans (by rw [hy]; rfl)
  have hput : elementPut c (i - 1) x (o.frameEntry c k) (.plain false) m =
      .ok () (m.setCell c (o.format.frameStart + (i - 1)) x) := by
    have hpointers : o.format.isPointers = true := by rcases hf with hf | hf <;> rw [hf] <;> rfl
    have hplace : i - 1 + (o.frameEntry c k).offset = o.format.frameStart + (i - 1) := by
      obtain ⟨o', ho', hslot⟩ := Memory.cell_eq_some.1 hy
      obtain rfl := Option.some.inj (ho.symm.trans ho')
      obtain ⟨hlt, -⟩ := Array.getElem?_eq_some_iff.1 hslot
      simp only [Object.frameEntry]
      omega
    rw [elementPut_eq ho, hfound, elementFor_pointers hpointers]
    simp only [pure_bind, Object.setElement, hplace]
    rfl
  rw [indexedAtPut_slow hc ho hv hx, bind_of_ok (positive32Value_of hi),
    bind_of_ok (lift_ok.2 (h.atEntry ho hf)), bind_of_ok (require_of hrange), bind_of_ok hput]
  rfl

/-- The accesses to a context go by its format. -/
theorem inspects_frame : m.Inspects c o.format.frameStart k := by
  refine ⟨fun {v y i} hdeep hc hv hi hlow hhigh hy => ?_,
    fun {v x y i} hdeep hc hv hx hi hlow hhigh hy => ?_⟩
  · have hcell := (Action.stackValue_ok.1 hc).2.1
    have hrun : Primitive.basicAt 1 m = .ok .done (Action.pushed (Action.popped m 2) y) :=
      (bind_of_ok (h.indexedAt ho hf hc hv hi hlow hhigh hy)).trans (answer_of hdeep ⟨_, hcell⟩)
    exact (Action.tryPrimitive_of_mem (p := ⟨60, "basicAt:", Primitive.basicAt⟩)
      (by simp [Primitive.all]) (by decide)).1 _ hrun
  · have hput := h.indexedAtPut ho hf hc hv hx hi hlow hhigh hy
    generalize hm' : m.setCell c (o.format.frameStart + (i - 1)) x = m' at hput ⊢
    have hcell : ∃ w, m'.memory.cell m'.registers.context (m'.registers.sp - 2) = some w := by
      rw [← hm']
      exact Recycling.cell_setCell_isSome ⟨_, (Action.stackValue_ok.1 hc).2.1⟩
    have hdeep' : 3 ≤ m'.registers.sp := by rw [← hm']; exact hdeep
    have hrun : Primitive.basicAtPut 2 m = .ok .done (Action.pushed (Action.popped m' 3) x) :=
      (bind_of_ok hput).trans (answer_of hdeep' hcell)
    exact (Action.tryPrimitive_of_mem (p := ⟨61, "basicAt:put:", Primitive.basicAtPut⟩)
      (by simp [Primitive.all]) (by decide)).1 _ hrun

end Machine.Inspectable

/-! ### Where contexts come from -/

/-- The method context that a context belongs to. -/
def Machine.HomeOf (m : Machine) (context home : Value) : Prop :=
  ∃ slot, m.memory.cell context Context.method = some slot ∧
    if slot.isSmall then m.memory.cell context Context.home = some home else home = context

/-- How there comes to be a context of a format: it is in the memory already, as part of an image or
waiting in the pool, or it is made by the activation of a method, or as a block that has the format of its
home. -/
inductive Machine.Origin (m : Machine) (c : Value) : Format → Machine → Prop
  | present {o : Object} (ho : m.memory.get? c = some o) : m.Origin c o.format m
  | activated {receiver method : Value} {n : Nat} {m₁ m₂ : Machine}
      (enter : Action.enterMethod receiver method n m = .ok () m₁) (hc : m₁.registers.context = c)
      (new : m.memory.isLive c = false) (check : Action.checkInterrupts m₁ = .ok () m₂) :
      m.Origin c .indexable m₂
  | copied {context home : Value} {o : Object} {m₁ : Machine}
      (hcontext : Action.stackValue 1 m = .ok context m) (hhome : m.HomeOf context home)
      (ho : m.memory.get? home = some o) (copy : Action.tryPrimitive 80 1 m = .ok .handled m₁)
      (hc : Action.top m₁ = .ok c m₁) : m.Origin c o.format m₁

/-- Makes a block of a home, which starts behind the jump over it. -/
def Attempt.blockOf (home argCount : Value) : Attempt Value := do
  let o ← Action.object home
  let nil ← Action.nil
  let cls ← Action.special Special.classBlockContext
  let block ← Action.allocate (.ofPointers cls o.format (Array.replicate o.pointers.size nil))
  let r ← Action.registers
  let start ← Action.immediate (Context.encodePc (r.pc + 2) r.literalCount)
  Action.assertFrame block
  Action.store block Context.caller nil
  Action.store block Context.instructionPointer start
  Action.store block Context.stackPointer (.small 0)
  Action.store block Context.blockArgCount argCount
  Action.store block Context.initialPointer start
  Action.store block Context.home home
  modify fun m => { m with reclaimable := 0 }
  return block

namespace Machine

/-- Some time before, the context was an object of the format, and objects have lasted since. -/
def Tagged (c : Value) (f : Format) (m : Machine) : Prop :=
  ∃ m₁ o, m₁.memory.get? c = some o ∧ o.format = f ∧ m₁.memory.Stocked ∧ Endures Object.Fits m₁ m

theorem Tagged.endures (h : Tagged c f m) (h' : Endures Object.Fits m m') : Tagged c f m' :=
  let ⟨m₁, o, ho, hf, stocked, hendures⟩ := h
  ⟨m₁, o, ho, hf, stocked, hendures.trans .trans h'⟩

theorem Tagged.remains (h : Tagged c f m) (h' : Remains m m') : Tagged c f m' :=
  h.endures (h'.mono fun _ _ => Object.Remains.toFits)

theorem Tagged.format (h : Tagged c f m) (ho : m.memory.get? c = some o) : o.format = f := by
  obtain ⟨m₁, o₁, ho₁, rfl, stocked, hendures⟩ := h
  exact (hendures.object stocked c o₁ o ho₁ ho).format

theorem Tagged.of_get? (stocked : m.memory.Stocked) (ho : m.memory.get? c = some o) :
    Tagged c o.format m := ⟨m, o, ho, rfl, stocked, endures_refl m⟩

/-- A context that is supplied and did not come out of the pool has no named fields. -/
theorem tagged_of_supplied {large : Bool} (h : Action.Supplied large m c m')
    (stocked : m.memory.Stocked) (room : m'.memory.slots.size < 0x100000000)
    (new : m.memory.isLive c = false) (ho : m'.memory.get? c = some o) : o.format = .indexable := by
  cases h with
  | pooled hhead ho' hnext =>
    rw [Memory.isLive, ho'] at new
    cases new
  | @fresh m₁ hash o' t hhead ho' hc =>
    have hlater := Memory.later_place m₁.memory o'
    have room₁ : m₁.memory.slots.size < 0x100000000 := Nat.lt_of_le_of_lt hlater.size room
    obtain ⟨hfound, hlost⟩ := Memory.get?_place_self (t.stocked stocked) room₁ o'
    have ho : (m₁.memory.place o').2.get? (m₁.memory.place o').1 = some o := hc ▸ ho
    have hover : ¬ (m₁.memory.place o').2.Overrun (m₁.memory.place o').1 := fun hover => by
      rw [hlost hover] at ho
      cases ho
    rw [hfound hover] at ho
    rw [← Option.some.inj ho, ho']
    rfl

/-- A new context of a method has no named fields. -/
theorem tagged_of_enterMethod {receiver method : Value} (stocked : m.memory.Stocked)
    (h : Action.enterMethod receiver method n m = .ok () m') (room : m'.memory.slots.size < 0x100000000)
    (new : m.memory.isLive m'.registers.context = false) :
    Tagged m'.registers.context .indexable m' := by
  obtain ⟨_, _, hget, h⟩ := bind_ok.1 h
  obtain ⟨rfl, rfl⟩ := get_ok.1 hget
  obtain ⟨header, _, hheader, h⟩ := bind_ok.1 h
  obtain ⟨-, rfl⟩ := Action.ofExcept_ok.1 hheader
  obtain ⟨c, m₁, hsupply, h⟩ := bind_ok.1 h
  obtain ⟨nil, _, hnil, h⟩ := bind_ok.1 h
  obtain ⟨rfl, rfl⟩ := Action.nil_ok.1 hnil
  obtain ⟨r, _, hr, h⟩ := bind_ok.1 h
  obtain ⟨rfl, rfl⟩ := Action.registers_ok.1 hr
  obtain ⟨frame, _, hframe, h⟩ := bind_ok.1 h
  obtain ⟨rfl, -, -⟩ := Action.stackValues_ok hframe
  obtain ⟨o, _, hobject, h⟩ := bind_ok.1 h
  obtain ⟨ho, rfl⟩ := Action.object_ok.1 hobject
  split at h
  · obtain ⟨_, _, hthrow, -⟩ := bind_ok.1 h
    exact (throw_ok.1 hthrow).elim
  · rename_i hfits
    obtain ⟨_, m₂, hfill, h⟩ := bind_ok.1 h
    obtain rfl := Action.modifyMemory_ok.1 hfill
    have hremains : Remains m₁ m' := by
      refine Remains.trans (Remains.of_modified (m := m₁) (v := c) fun o' ho' => ?_)
        (Action.Within.bind Action.popN_within (fun _ => ?_) _ _ _ h)
      · obtain rfl := Option.some.inj (ho.symm.trans ho')
        exact Action.remains_fillFrame (Nat.le_of_not_lt hfits)
      · refine .bind Action.modifyReclaimable_within fun _ => .bind Action.saveRegisters_within fun _ => ?_
        exact .bind Action.modifyRegisters_within fun _ => Action.saveRegisters_within
    have stocked₁ : m₁.memory.Stocked :=
      (Action.withPins_remains Action.allocateContext_remains _ _ _ hsupply).stocked stocked
    obtain ⟨-, -, -, -, -, rfl⟩ := Action.counted_ok h
    obtain ⟨m₂, hinner, rfl⟩ := withPins_ok hsupply
    obtain ⟨m₃, t, hsupplied⟩ := Action.allocateContext_ok hinner
    have stocked₃ : m₃.memory.Stocked := t.stocked (stocked.of_slots rfl rfl)
    have hnew : m₃.memory.isLive c = false := Bool.eq_false_iff.2 fun hlive => by
      obtain ⟨o', ho'⟩ := Memory.isLive_iff.1 hlive
      exact absurd (Memory.isLive_of_get? (t.object _ _ ho')) (Bool.eq_false_iff.1 new)
    have hformat := tagged_of_supplied hsupplied stocked₃
      (Nat.lt_of_le_of_lt hremains.later.size room) hnew ho
    exact ⟨_, o, ho, hformat, stocked₁, hremains.mono fun _ _ => Object.Remains.toFits⟩

/-- An object that is allocated and then filled keeps the format it was given. -/
theorem tagged_of_allocate (stocked : m.memory.Stocked) (h : Action.allocate o m = .ok c m₁)
    (live : m₁.memory.isLive c = true) (filled : Remains m₁ m')
    (room : m'.memory.slots.size < 0x100000000) : Tagged c o.format m' := by
  obtain ⟨m₂, hash, t, rfl, rfl⟩ := Action.allocate_ok h
  have stocked₂ := t.stocked stocked
  have hlater := Memory.later_place m₂.memory { o with hash }
  have room₂ : m₂.memory.slots.size < 0x100000000 :=
    Nat.lt_of_le_of_lt (hlater.trans filled.later).size room
  obtain ⟨hfound, hlost⟩ := Memory.get?_place_self stocked₂ room₂ { o with hash }
  have hover : ¬ (m₂.memory.place { o with hash }).2.Overrun (m₂.memory.place { o with hash }).1 :=
    fun hover => by
      rw [Action.placed, Memory.isLive, hlost hover] at live
      cases live
  exact ⟨_, { o with hash }, hfound hover, rfl, stocked₂.place,
    filled.mono fun _ _ => Object.Remains.toFits⟩

/-- Stores keep what has lasted. -/
theorem gives_store_remains {Q : Unit → Machine → Prop} (h : Remains m₁ m)
    (hQ : ∀ m', Remains m₁ m' → Q () m') : Gives (Action.store v i x) m Q := fun _ m' hrun =>
  hQ m' (h.trans (Action.store_within _ _ _ hrun))

/-- A block has the format of its home. -/
theorem tagged_of_blockOf {home argCount : Value} (stocked : m.memory.Stocked)
    (ho : m.memory.get? home = some o) : Gives (Attempt.blockOf home argCount) m fun c m' =>
      m'.memory.slots.size < 0x100000000 → Tagged c o.format m' := by
  refine .bind (Attempt.gives_lift (gives_object fun o' ho' => ?_))
  obtain rfl := Option.some.inj (ho.symm.trans ho')
  refine .bind (Attempt.gives_lift (gives_nil (.bind (Attempt.gives_lift (gives_special ?_)))))
  refine .bind (Attempt.gives_lift fun block m₁ hrun => .bind (Attempt.gives_lift (gives_registers ?_)))
  refine .bind (Attempt.gives_lift (gives_immediate ?_))
  refine .bind (Attempt.gives_looks (.lift Action.assertFrame_within) fun _ => ?_)
  refine .bind (Attempt.gives_lift (gives_store fun y hy => ?_))
  have live := Memory.isLive_of_cell hy
  have filled : Remains m₁ (m₁.setCell block Context.caller m.specials.nil) := Fieldwork.setCell
  refine .bind (Attempt.gives_lift (gives_store_remains filled fun _ filled => ?_))
  refine .bind (Attempt.gives_lift (gives_store_remains filled fun _ filled => ?_))
  refine .bind (Attempt.gives_lift (gives_store_remains filled fun _ filled => ?_))
  refine .bind (Attempt.gives_lift (gives_store_remains filled fun _ filled => ?_))
  refine .bind (Attempt.gives_lift (gives_store_remains filled fun m₂ filled => ?_))
  have filled : Remains m₁ { m₂ with reclaimable := 0 } := filled.trans (.of_memory rfl)
  refine .bind (.modify (.pure fun room => ?_))
  have htagged := tagged_of_allocate stocked hrun live filled room
  exact htagged

/-- A block that a context asks for is one of its home. -/
theorem tagged_of_blockCopy {context home : Value} (stocked : m.memory.Stocked)
    (hcontext : Action.stackValue 1 m = .ok context m) (hhome : m.HomeOf context home)
    (ho : m.memory.get? home = some o) : Gives Attempt.blockCopy m fun c m' =>
      m'.memory.slots.size < 0x100000000 → Tagged c o.format m' := by
  obtain ⟨-, hoperand, -⟩ := Action.stackValue_ok.1 hcontext
  obtain ⟨slot, hslot, hhome⟩ := hhome
  refine .bind (Recycling.gives_stackObject fun context' _ hcontext' => ?_)
  obtain rfl := Option.some.inj (hoperand.symm.trans hcontext')
  refine .bind (Recycling.gives_stackValue fun argCount _ _ => .bind (Attempt.gives_require fun _ => ?_))
  refine .bind (Attempt.gives_looks (.lift Action.isContext_within) fun _ => ?_)
  refine .bind (Attempt.gives_require fun _ => ?_)
  refine .bind (Attempt.gives_lift (gives_fetch fun slot' hslot' => ?_))
  obtain rfl := Option.some.inj (hslot.symm.trans hslot')
  have rest : Gives (Attempt.blockOf home argCount) m fun c m' =>
      m'.memory.slots.size < 0x100000000 → Tagged c o.format m' := tagged_of_blockOf stocked ho
  refine .ite (fun hsmall => .bind (Attempt.gives_lift (gives_fetch fun home' hhome' => ?_)))
    fun hsmall => .bind (.pure ?_)
  · rw [if_pos hsmall] at hhome
    obtain rfl := Option.some.inj (hhome.symm.trans hhome')
    exact rest
  · rw [if_neg hsmall] at hhome
    subst hhome
    exact rest

theorem Origin.tagged (h : m.Origin c f m') (stocked : m.memory.Stocked)
    (room : m'.memory.slots.size < 0x100000000) : Tagged c f m' := by
  cases h with
  | present ho => exact .of_get? stocked ho
  | activated enter hc new check =>
    have hchecked : Remains _ m' := Action.checkInterrupts_within _ _ _ check
    subst hc
    exact (tagged_of_enterMethod stocked enter (Nat.lt_of_le_of_lt hchecked.later.size room)
      new).remains hchecked
  | copied hcontext hhome ho copy hc =>
    rcases Action.tryPrimitive_ok (p := ⟨80, "blockCopy:", Primitive.blockCopy⟩)
      (by simp [Primitive.all]) (by decide) copy with ⟨-, hrun⟩ | ⟨_, _, _, hresend, -⟩ | ⟨hunhandled, -⟩
    · obtain ⟨block, m₁, hblock, hanswer⟩ := bind_ok.1 hrun
      obtain rfl : c = block := Attempt.answer_top hanswer hc
      obtain ⟨_, m₂, hpush, hend⟩ := bind_ok.1 hanswer
      obtain ⟨-, rfl⟩ := pure_ok.1 hend
      have hpushed : Remains m₁ m₂ := Action.popThenPush_within _ _ _ (Attempt.lift_ok.1 hpush)
      exact (tagged_of_blockCopy stocked hcontext hhome ho _ _ hblock
        (Nat.lt_of_le_of_lt hpushed.later.size room)).remains hpushed
    · cases hresend
    · cases hunhandled

/-! ### Every context -/

/-- The elements of a context begin where its format says, which is the format that it had when it came
to be: at the sender for a context that was made for a method and for the blocks in it, and after the
fixed fields for a context of an image whose format has named fields. -/
theorem Origin.inspects (stocked : m₀.memory.Stocked) (room : m.memory.slots.size < 0x100000000)
    (origin : m₀.Origin c f m₁) (hf : f = .indexable ∨ f = .fixedIndexable)
    (since : Relation.ReflTransGen GoesOn m₁ m) (h : m.Inspectable c k) :
    m.Inspects c f.frameStart k := by
  have hendures := endures_of_goesOn since
  have tagged := (origin.tagged stocked
    (Nat.lt_of_le_of_lt hendures.later.size room)).endures hendures
  obtain ⟨o, -, ho, -⟩ := h.named
  obtain rfl := tagged.format ho
  exact h.inspects_frame ho hf

/-- A method with one argument is about to be entered. It pushes its context and an index. -/
def lookingGlass : Machine :=
  let nil : Value := .ref 0 0
  let header args : Value := .small (MethodHeader.encode args args 0 false 0).word
  let pointers cls format fields := Object.ofPointers cls format (List.toArray fields)
  let objects := [pointers nil .empty [],
    pointers nil .indexable (List.replicate 9 nil ++ [nil, .ref 2 0, nil] ++ List.replicate 11 nil ++
      [.ref 3 0]),
    pointers nil .fixed [nil, nil, .small (InstanceSpec.encode 6 3)],
    pointers nil .indexable (List.replicate 36 nil),
    .ofMethod nil #[header 0] #[120],
    pointers (.ref 2 0) .fixedIndexable
      ([nil, .small 0, .small 0, .ref 4 0, nil, nil, .small 7, .small 9] ++
      List.replicate 15 nil),
    .ofMethod nil #[header 1] #[137, 118, 124]]
  let m := Machine.create (filled (.empty .standard) objects)
    { array := .ref 1 0, nil, falseObject := nil, trueObject := nil } {} default
  { m with
    registers := { m.registers with
      context := .ref 5 0
      home := .ref 5 0
      method := .ref 4 0
      sp := 7 } }

/-- The method asks its context for its first element, which should be the argument. It gets the context
that called it. -/
theorem inspects_lookingGlass : ∃ m₁ m₂ m₃ m,
    Action.enterMethod (.small 7) (.ref 6 0) 1 lookingGlass = .ok () m₁ ∧
    Action.checkInterrupts m₁ = .ok () m₂ ∧ Action.step m₂ = .ok () m₃ ∧ Action.step m₃ = .ok () m ∧
    m.Inspectable (.ref 7 0) 1 ∧ m.Inspects (.ref 7 0) 0 1 ∧
    m.memory.cell (.ref 7 0) Context.frameStart = some (.small 9) ∧
    Action.tryPrimitive 60 1 m = .ok .handled (Action.pushed (Action.popped m 2) (.ref 5 0)) := by
  have stocked : lookingGlass.memory.Stocked :=
    (wellFormed_filled (Memory.wellFormed_empty _) (by decide +kernel)).toStocked
  let word := InstanceSpec.encode 6 3
  have hrun : Action.leads (Action.enterMethod (.small 7) (.ref 6 0) 1) lookingGlass (fun _ m₁ =>
      decide (m₁.registers.context = .ref 7 0) && Action.leads Action.checkInterrupts m₁ fun _ m₂ =>
        Action.leads Action.step m₂ fun _ m₃ => Action.leads Action.step m₃ fun _ m =>
          decide (m.memory.slots.size < 0x100000000 ∧ 2 ≤ m.registers.sp ∧
            m.memory.cell m.registers.context (m.registers.sp - 1) = some (.ref 7 0) ∧
            m.memory.cell m.registers.context m.registers.sp = some (.small 1)) &&
          decide ((m.memory.get? (.ref 7 0)).map Object.cls = some (.ref 2 0) ∧
            m.memory.cell (.ref 2 0) Class.format = some (.small word) ∧
            m.isContext (.ref 7 0) = true ∧ m.isInstance (.ref 7 0) Special.classFloat = false) &&
          decide (m.memory.cell (.ref 7 0) Context.stackPointer = some (.small 1) ∧
            m.memory.cell (m.specials.get m.memory Special.specialSelectors) 32 = some (.ref 0 0) ∧
            m.memory.cell (m.specials.get m.memory Special.specialSelectors) 34 = some (.ref 0 0)) &&
          decide (m.memory.cell (.ref 7 0) Context.frameStart = some (.small 9) ∧
            m.memory.cell (.ref 7 0) Context.sender = some (.ref 5 0))) = true := by
    decide +kernel
  obtain ⟨⟨⟩, m₁, henter, hentered⟩ := Action.exists_of_leads hrun
  obtain ⟨hc, hchecked⟩ := Bool.and_eq_true_iff.1 hentered
  obtain ⟨⟨⟩, m₂, hcheck, hsteps⟩ := Action.exists_of_leads hchecked
  obtain ⟨⟨⟩, m₃, hstep, hlast⟩ := Action.exists_of_leads hsteps
  obtain ⟨⟨⟩, m, hstep', hend⟩ := Action.exists_of_leads hlast
  simp only [Bool.and_eq_true_iff] at hend
  obtain ⟨⟨⟨hstack, hobject⟩, hselectors⟩, hcells⟩ := hend
  obtain ⟨room, hdeep, hreceiver, hindex⟩ := of_decide_eq_true hstack
  obtain ⟨hcls, hword, hcontext, hfloat⟩ := of_decide_eq_true hobject
  obtain ⟨hstored, hat, hput⟩ := of_decide_eq_true hselectors
  obtain ⟨hargument, hsender⟩ := of_decide_eq_true hcells
  obtain ⟨o, ho, hcls⟩ := Option.map_eq_some_iff.1 hcls
  have hinspectable : m.Inspectable (.ref 7 0) 1 := by
    refine ⟨⟨o, word, ho, hcls ▸ hword, by decide⟩, hcontext, hfloat, hstored, fun access => ?_⟩
    cases access with
    | «at» => exact ⟨_, Action.fetch_special hat⟩
    | atPut => exact ⟨_, Action.fetch_special hput⟩
  have origin : lookingGlass.Origin (.ref 7 0) .indexable m₂ :=
    .activated henter (of_decide_eq_true hc) (by decide +kernel) hcheck
  have since : Relation.ReflTransGen GoesOn m₂ m :=
    .tail (.single (.advance (.step hstep))) (.advance (.step hstep'))
  have hinspects := Origin.inspects stocked room origin (.inl rfl) since hinspectable
  refine ⟨m₁, m₂, m₃, m, henter, hcheck, hstep, hstep', hinspectable, hinspects, hargument, ?_⟩
  exact hinspects.read hdeep (Action.stackValue_ok.2 ⟨by omega, hreceiver, rfl⟩)
    (Action.stackValue_ok.2 ⟨Nat.zero_le _, hindex, rfl⟩) (.immediate (k := 1) (by decide)) (by decide)
    (by decide) hsender

end Machine

end Smalltalk
