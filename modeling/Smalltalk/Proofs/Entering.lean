import Smalltalk.Proofs.Freshness
import Smalltalk.Proofs.Messages

/-!
# Entering a method

When the receiver and the arguments are on the stack and the frame fits a context, a method is entered
unless the memory is spent. Only two contexts change, the one that was active and the one that becomes
active, which waited in the pool or is new. Everything else that the machine can reach stays as it was.
-/

namespace Smalltalk

open Outcome Recycling

variable {m m₁ m' : Machine} {c receiver method v w : Value} {arguments : List Value}
  {header : MethodHeader} {large : Bool} {i j n : Nat}

namespace Machine

/-! ### A context -/

/-- A context has been supplied. -/
structure Provides (m : Machine) (c : Value) (m' : Machine) : Prop where
  registers : m'.registers = m.registers
  later : m.memory.Later m'.memory
  size : m'.memory.slots.size ≤ m.memory.slots.size + 1
  apart : m'.memory.isLive c = true → (∃ large, m.pool.head large = some c) ∨ ¬m.memory.Issued c
  lost : m'.memory.isLive c = false → m'.memory.Overrun c
  kept : ∀ v, m.memory.Reachable m.anchors v → (∀ large, m.pool.head large ≠ some v) →
    m'.memory.get? v = m.memory.get? v

/-- Room is made before the context is supplied. -/
theorem Provides.after_trims (p : Provides m₁ c m') (t : Trims m m₁)
    (size : m'.memory.slots.size ≤ m.memory.slots.size + 1) : Provides m c m' where
  registers := p.registers.trans t.registers
  later := t.later.trans p.later
  size := size
  apart live := (p.apart live).imp
    (fun ⟨large, hc⟩ => ⟨large, (Undone.of_trims t).toSpares.head hc⟩)
    fun hfresh hissued => hfresh (t.later.issued hissued)
  lost := p.lost
  kept v hv hne := by
    have same : ∀ w, m.memory.Reachable m.anchors w → m₁.memory.get? w = m.memory.get? w :=
      fun w hw => t.kept w (hw.mono (List.subset_append_left _ _))
    have hreach := hv.of_get? same
    rw [← t.anchors] at hreach
    have hwaits : ∀ large, m₁.pool.head large ≠ some v := fun large hhead =>
      hne large ((Undone.of_trims t).toSpares.head hhead)
    rw [p.kept v hreach hwaits, same v hv]

theorem provides_of_supplied (hs : Action.Supplied large m c m') (stocked : m.memory.Stocked)
    (size : m'.memory.slots.size ≤ m.memory.slots.size + 1)
    (room : m'.memory.slots.size < 0x100000000) : Provides m c m' := by
  cases hs with
  | @pooled o next hhead ho hnext =>
    have hget (w : Value) : (m.memory.replace c (Action.wiped o m.specials.nil)).get? w =
        if w = c then some (Action.wiped o m.specials.nil) else m.memory.get? w := by
      rw [Memory.replace, Memory.get?_modify, ho]
      rfl
    refine ⟨rfl, Memory.later_modify .., size, fun _ => .inl ⟨large, hhead⟩, fun dead => ?_,
      fun v _ hne => (hget v).trans (if_neg fun e : v = c => hne large (e ▸ hhead))⟩
    change (m.memory.replace c (Action.wiped o m.specials.nil)).isLive c = false at dead
    rw [Memory.isLive, hget, if_pos rfl] at dead
    cases dead
  | @fresh m₁ hash o t hhead ho hc =>
    have stocked₁ := t.stocked stocked
    have hlater := Memory.later_place m₁.memory o
    have room₁ : (m₁.memory.place o).2.slots.size < 0x100000000 := room
    obtain ⟨hfound, -⟩ := Memory.get?_place_self stocked₁ (Nat.lt_of_le_of_lt hlater.size room₁) o
    refine Provides.after_trims (?_ : Provides m₁ c _) t size
    refine ⟨rfl, hlater, ?_, fun live => .inr ?_, fun dead => ?_, fun v hv _ => ?_⟩
    · exact Action.size_place m₁.memory o
    · rw [hc] at live ⊢
      exact stocked₁.place_unissued (Nat.le_of_lt room₁) live
    · by_contra hover
      rw [hc] at dead hover
      rw [Memory.isLive, Action.placed, hfound hover] at dead
      cases dead
    · rcases stocked₁.get?_place o v with e | ⟨-, hnone, -⟩
      · exact e
      · have live := hv.live
        rw [Memory.isLive, hnone] at live
        cases live

end Machine

namespace Action

open Machine

theorem allocateContext_adds : Within Adds (allocateContext large) := by
  have supply : Within Adds (do
      let cls ← special Special.classMethodContext
      let nil ← nil
      onPool (ContextPool.allocate large cls nil)) := by
    intro m c m' hrun
    simp only [bind_ok, special_ok, nil_ok] at hrun
    obtain ⟨_, _, ⟨rfl, rfl⟩, _, _, ⟨rfl, rfl⟩, hrun⟩ := hrun
    simp only [onPool] at hrun
    split at hrun
    · rename_i hpool
      obtain ⟨-, rfl⟩ := EStateM.Result.ok.inj hrun
      rcases pool_allocate_ok hpool with ⟨o, -, -, rfl, rfl⟩ | ⟨-, rfl, hregister⟩
      · exact ⟨Nat.le_succ_of_le (Nat.le_of_eq (slots_size_modify ..)), fun _ => id⟩
      · exact ⟨size_register hregister, fun _ => id⟩
    · cases hrun
  intro m c m' hrun
  obtain ⟨_, _, hget, hrun⟩ := bind_ok.1 hrun
  obtain ⟨rfl, rfl⟩ := get_ok.1 hget
  split at hrun
  · obtain ⟨_, m₁, hroom, hrun⟩ := bind_ok.1 hrun
    exact .of_thins (makeRoom_thins _ _ _ hroom) (supply _ _ _ hrun)
  · exact supply _ _ _ hrun

/-- A context that waits in a pool that is ready can be taken. -/
theorem allocateContext_error {e : Fault} (stocked : m.memory.Stocked) (ready : m.Ready)
    (h : allocateContext large m = .error e m') : e.Exhausted m' := by
  have supply {m : Machine} (ready : m.Ready) (h : (do
      let cls ← special Special.classMethodContext
      let nil ← nil
      onPool (ContextPool.allocate large cls nil)) m = .error e m') : e.Exhausted m' := by
    have hspecial : special Special.classMethodContext m =
        .ok (m.specials.get m.memory Special.classMethodContext) m := rfl
    have hnil : nil m = .ok m.specials.nil m := rfl
    rw [bind_of_ok hspecial, bind_of_ok hnil] at h
    simp only [onPool, ContextPool.allocate, ContextPool.take] at h
    cases hhead : m.pool.head large with
    | none =>
      simp only [hhead] at h
      split at h
      · cases h
      · rename_i hregister
        obtain ⟨rfl, rfl⟩ := EStateM.Result.error.inj h
        split at hregister
        · cases hregister
        · rename_i hregister'
          obtain ⟨rfl, hstate⟩ := EStateM.Result.error.inj hregister
          obtain ⟨-, rfl⟩ := Prod.mk.inj hstate
          exact register_error (m := { m with pool := _, memory := _ }) hregister'
    | some context =>
      obtain ⟨-, o, ho, -⟩ := ready large context hhead
      simp only [hhead, ho] at h
      cases h
  rcases bind_error.1 h with h | ⟨_, m₁, hget, h⟩
  · cases h
  · obtain ⟨rfl, rfl⟩ := get_ok.1 hget
    split at h
    · rcases bind_error.1 h with h | ⟨_, m₂, hroom, h⟩
      · exact Raises.error h
      · exact supply ((Undone.of_trims (makeRoom_trims hroom)).toSpares.ready stocked ready) h
    · exact supply ready h

end Action

namespace Machine

theorem gives_context (stocked : m.memory.Stocked) (room : m.memory.slots.size + 1 < 0x100000000) :
    Gives (Action.allocateContext large) m fun c m' => Provides m c m' := by
  intro c m' hrun
  have hsize := (Action.allocateContext_adds _ _ _ hrun).size
  obtain ⟨m₁, t, hsupplied⟩ := Action.allocateContext_ok hrun
  have p := provides_of_supplied hsupplied (t.stocked stocked)
    (Nat.le_trans hsize (Nat.succ_le_succ t.later.size)) (Nat.lt_of_le_of_lt hsize room)
  exact p.after_trims t hsize

theorem Provides.unpin {values : Array Value}
    (p : Provides (m.withPins (m.memory.pins ++ values)) c m') :
    Provides m c (m'.withPins (m'.memory.pins.take m.memory.pins.size)) :=
  ⟨p.registers, ⟨p.later.size, p.later.slot⟩, p.size, p.apart, p.lost, fun v hv hne =>
    p.kept v (reachable_withPins (hv.mono (anchors_withPins m values))) hne⟩

/-- A context is supplied while the method is pinned. -/
theorem achieves_context (stocked : m.memory.Stocked) (ready : m.Ready)
    (live : m.memory.isLive m.registers.context = true)
    (room : m.memory.slots.size + 1 < 0x100000000) :
    Action.Achieves (Action.withPins [method] (Action.allocateContext large)) m fun c m' =>
      Provides m c m' ∧ (m'.memory.isLive c = true → Blank m large c m') := by
  have stocked' : (m.withPins (m.memory.pins ++ [method].toArray)).memory.Stocked :=
    stocked.of_slots rfl rfl
  have hprovides : Action.Achieves (Action.withPins [method] (Action.allocateContext large)) m
      fun c m' => Provides m c m' := by
    refine (Action.Achieves.withPins (.of_gives
      (fun _ _ hrun => .exhausted (Action.allocateContext_error stocked' ready hrun))
      (gives_context stocked' room))).mono ?_
    rintro c m' ⟨m₁, p, rfl⟩
    exact p.unpin
  refine (hprovides.and_gives (gives_blank stocked ready live)).mono fun c m' ⟨p, hblank⟩ => ⟨p, ?_⟩
  exact hblank (Nat.le_of_lt (Nat.lt_of_le_of_lt p.size room))

/-! ### The frame -/

/-- What entering a method leaves alone. -/
structure Enters (m m' : Machine) : Prop where
  later : m.memory.Later m'.memory
  size : m'.memory.slots.size ≤ m.memory.slots.size + 1
  kept : ∀ v, m.memory.Reachable m.anchors v → v ≠ m.registers.context →
    (∀ large, m.pool.head large ≠ some v) → m'.memory.get? v = m.memory.get? v

/-- An object that has a field has the fields before it. -/
theorem exists_cell_of_le (h : ∃ x, m.memory.cell v j = some x) (hle : i ≤ j) :
    ∃ x, m.memory.cell v i = some x := by
  obtain ⟨x, hx⟩ := h
  obtain ⟨o, ho, hj⟩ := Memory.cell_eq_some.1 hx
  exact Memory.exists_cell ho (Nat.lt_of_le_of_lt hle (Array.getElem?_eq_some_iff.1 hj).1)

theorem later_saved (m : Machine) : m.memory.Later (Action.saved m).memory :=
  (Memory.later_modify ..).trans (Memory.later_modify ..)

theorem get?_saved (h : v ≠ m.registers.context) :
    (Action.saved m).memory.get? v = m.memory.get? v := by
  simp only [Action.saved, setCell, Memory.get?_setField, if_neg h]

/-- The last steps into a new context can be made. -/
theorem counted_of {r : Registers} (deep : n ≤ m.registers.sp)
    (hactive : ∃ x, m.memory.cell m.registers.context Context.stackPointer = some x)
    (hnew : ∃ x, m.memory.cell r.context Context.stackPointer = some x)
    (storable : (Action.popped m n).registers.Storable) (hr : r.Storable) :
    (do
      Action.popN n
      modify fun m => { m with reclaimable := m.reclaimable + 1 }
      Action.saveRegisters
      Action.modifyRegisters fun _ => r
      Action.saveRegisters : Action Unit) m =
        .ok () (Action.saved ((Action.saved (Action.counted m n)).withRegisters r)) := by
  have hpop : Action.popN n m = .ok () (Action.popped m n) := Action.popN_ok.2 ⟨deep, rfl⟩
  have hcount : (modify fun m => { m with reclaimable := m.reclaimable + 1 } : Action Unit)
      (Action.popped m n) = .ok () (Action.counted m n) := rfl
  have hset : Action.modifyRegisters (fun _ => r) (Action.saved (Action.counted m n)) =
      .ok () ((Action.saved (Action.counted m n)).withRegisters r) := rfl
  have hpc := exists_cell_of_le hactive (i := Context.instructionPointer) (by decide)
  have hsave : Action.saveRegisters (Action.counted m n) = .ok () (Action.saved (Action.counted m n)) :=
    Action.saveRegisters_of hpc hactive storable
  have hsp := Action.saved_cell_isSome (m := Action.counted m n) hnew
  rw [bind_of_ok hpop, bind_of_ok hcount, bind_of_ok hsave, bind_of_ok hset]
  exact Action.saveRegisters_of (exists_cell_of_le hsp (by decide)) hsp hr

/-- If the active context stands where no immediate integer can tell nothing is entered. -/
theorem counted_panics {r : Registers} (deep : n ≤ m.registers.sp)
    (storable : ¬(Action.popped m n).registers.Storable) : ∃ e,
    (do
      Action.popN n
      modify fun m => { m with reclaimable := m.reclaimable + 1 }
      Action.saveRegisters
      Action.modifyRegisters fun _ => r
      Action.saveRegisters : Action Unit) m = .error e (Action.counted m n) ∧
        e.Spent (Action.counted m n) := by
  have hpop : Action.popN n m = .ok () (Action.popped m n) := Action.popN_ok.2 ⟨deep, rfl⟩
  have hcount : (modify fun m => { m with reclaimable := m.reclaimable + 1 } : Action Unit)
      (Action.popped m n) = .ok () (Action.counted m n) := rfl
  obtain ⟨place, stored, hplace, hsave⟩ := Action.saveRegisters_panics (m := Action.counted m n) storable
  refine ⟨_, ?_, .unstorable stored hplace⟩
  rw [bind_of_ok hpop, bind_of_ok hcount]
  exact bind_of_error hsave

/-- The frame is filled and the context becomes active. -/
theorem achieves_frame (p : Provides m c m₁)
    (b : m₁.memory.isLive c = true → Blank m header.largeFrame c m₁)
    (ready : m.Ready) (live : m.memory.isLive m.registers.context = true)
    (stack : Action.stackValues (arguments.length + 1) m = .ok (receiver :: arguments) m)
    (deep : arguments.length + 1 ≤ m.registers.sp)
    (fields : ∃ x, m.memory.cell m.registers.context Context.stackPointer = some x)
    (fits : Context.receiver + max (arguments.length + 1) (header.tempCount + 1) ≤
      Context.size header.largeFrame) :
    Action.Achieves (do
      let nil ← Action.nil
      let r ← Action.registers
      let frame ← Action.stackValues (arguments.length + 1)
      let o ← Action.object c
      if o.pointers.size < Context.receiver + max frame.length (header.tempCount + 1) then
        throw (.malformed .methodFrame method)
      Action.modifyMemory fun m =>
        m.modify c fun o => Action.fillFrame o r.context method nil frame.toArray header.tempCount
      Action.popN (arguments.length + 1)
      modify fun m => { m with reclaimable := m.reclaimable + 1 }
      Action.saveRegisters
      Action.modifyRegisters fun _ => {
        context := c
        home := c
        method
        receiver
        pc := 0
        sp := Context.receiver + header.tempCount
        literalCount := header.literalCount }
      Action.saveRegisters) m₁ fun _ m' => Enters m m' := by
  have hactive : m₁.memory.get? m.registers.context = m.memory.get? m.registers.context :=
    p.kept _ (.root (by simp [anchors]) live) fun large hhead => (ready large _ hhead).1 rfl
  have hcells (i : Nat) :
      m₁.memory.cell m.registers.context i = m.memory.cell m.registers.context i := by
    rw [Memory.cell, hactive, Memory.cell]
  refine .after rfl (.after rfl (.after (Action.stackValues_congr p.registers hcells stack) ?_))
  cases hlive : m₁.memory.isLive c with
  | false => exact .of_error (bind_of_error (Action.object_lost hlive)) (.lost (p.lost hlive))
  | true =>
    have b := b hlive
    obtain ⟨o, ho, hblank⟩ := b.blank
    have hsize : o.pointers.size = Context.size header.largeFrame := by
      rw [hblank, Array.size_replicate]
    refine .after (Action.object_ok.2 ⟨ho, rfl⟩) ?_
    rw [if_neg (by rw [hsize]; exact Nat.not_lt.2 fits)]
    have f : Framed m receiver method arguments header c _ := b.framed ho (hsize.symm ▸ fits)
    generalize hm₂ : m₁.modified c (fun o => Action.fillFrame o m₁.registers.context method
      m₁.specials.nil (receiver :: arguments).toArray header.tempCount) = m₂ at f
    have hfilled : m₂.memory.cell c Context.stackPointer = some m.specials.nil := f.frame _
    have hfields : ∃ x, m₂.memory.cell m₂.registers.context Context.stackPointer = some x := by
      rw [f.registers, f.kept]
      exact fields
    refine .after (congrArg (EStateM.Result.ok ()) hm₂) ?_
    by_cases storable : (Action.popped m₂ (arguments.length + 1)).registers.Storable
    rotate_left
    · obtain ⟨e, hpanic, he⟩ := counted_panics (f.registers ▸ deep) storable
      exact .of_error hpanic he
    refine .of_ok (counted_of (f.registers ▸ deep) hfields ⟨_, hfilled⟩ storable
      (Action.storable_start c c method receiver header)) ?_
    have hlater : m₁.memory.Later m₂.memory := hm₂ ▸ Memory.later_modify ..
    have hslots : m₂.memory.slots.size = m₁.memory.slots.size := hm₂ ▸ slots_size_modify ..
    refine ⟨?_, ?_, fun v hv hne hwaits => ?_⟩
    · have hcounted : m₂.memory.Later (Action.saved (Action.counted m₂ (arguments.length + 1))).memory :=
        later_saved (Action.counted m₂ _)
      refine .trans ?_ (later_saved _)
      exact (p.later.trans hlater).trans hcounted
    · rw [slots_size_saved, withRegisters_memory, slots_size_saved]
      exact Nat.le_trans (Nat.le_of_eq hslots) p.size
    · have hvc : v ≠ c := by
        rintro rfl
        rcases p.apart hlive with ⟨large, hhead⟩ | hfresh
        · exact hwaits large hhead
        · exact hfresh (Memory.issued_of_isLive hv.live)
      have hv₂ : m₂.memory.get? v = m₁.memory.get? v := by
        rw [← hm₂, modified, Memory.get?_modify, if_neg hvc]
      rw [get?_saved hvc, withRegisters_memory, get?_saved (m := Action.counted m₂ _)]
      · exact hv₂.trans (p.kept v hv hwaits)
      · change v ≠ m₂.registers.context
        rw [f.registers]
        exact hne

/-- A method whose frame fits a context is entered, unless the memory is spent. -/
theorem achieves_enterMethod (stocked : m.memory.Stocked) (ready : m.Ready)
    (room : m.memory.slots.size + 1 < 0x100000000)
    (headed : MethodHeader.of m.memory method = .ok header)
    (stack : Action.stackValues (arguments.length + 1) m = .ok (receiver :: arguments) m)
    (deep : arguments.length + 1 ≤ m.registers.sp)
    (fields : ∃ x, m.memory.cell m.registers.context Context.stackPointer = some x)
    (fits : Context.receiver + max (arguments.length + 1) (header.tempCount + 1) ≤
      Context.size header.largeFrame) :
    Action.Achieves (Action.enterMethod receiver method arguments.length) m fun _ m' =>
      Enters m m' ∧ Starts m receiver method arguments header m' ∧ m'.counters = m.counters ∧
        ∀ role, m.Cast role → m.Lends role → m'.Cast role ∧ role m'.registers.context = .context := by
  have live := Action.isLive_of_stackValues stack
  have henters : Action.Achieves (Action.enterMethod receiver method arguments.length) m
      fun _ m' => Enters m m' := by
    have hheader : Action.ofExcept (MethodHeader.of m.memory method) m = .ok header m :=
      Action.ofExcept_ok.2 ⟨headed, rfl⟩
    refine .after rfl (.after hheader (.bind ?_))
    refine (achieves_context stocked ready live room).mono fun c m₁ ⟨p, hblank⟩ => ?_
    exact achieves_frame p hblank ready live stack deep fields fits
  refine (henters.and_gives (gives_enterMethod stocked ready headed stack)).mono fun _ m' ⟨h, hstarts⟩ =>
    ⟨h, hstarts ?_⟩
  exact Nat.le_of_lt (Nat.lt_of_le_of_lt h.size room)

end Machine

end Smalltalk
