import Mathlib
import Smalltalk.Proofs.Frames

/-!
# Blocks

A block is an object that anybody may refer to, and it belongs to a home context that it refers to
itself. So making a block hands its home context out. Entering a block puts a context on the sender
chain that is not private; it is marked as shown, so that it is not counted among the contexts to
recycle, and being no method context it is declined by the pool when the count says otherwise.
-/

namespace Smalltalk.Recycling

open Outcome Machine

variable {T : Roles} {L : Ledger} {D : Deal} {m m' : Machine} {v w x c : Value} {i n : Nat}

/-! ### Looking at the stack -/

section Looks

variable {Q : Value → Machine → Prop}

theorem gives_stackValue (hQ : ∀ x, n ≤ m.registers.sp →
    m.memory.cell m.registers.context (m.registers.sp - n) = some x → Q x m) :
    Gives (Attempt.stackValue n) m Q := Attempt.gives_lift fun x m' hrun => by
  obtain ⟨hle, hx, rfl⟩ := Action.stackValue_ok.1 hrun
  exact hQ x hle hx

theorem gives_stackObject (hQ : ∀ x, n ≤ m.registers.sp →
    m.memory.cell m.registers.context (m.registers.sp - n) = some x → Q x m) :
    Gives (Attempt.stackObject n) m Q :=
  .bind (gives_stackValue fun x hle hx => .bind (Attempt.gives_require fun _ => .pure (hQ x hle hx)))

theorem gives_isInstanceOf {Q : Bool → Machine → Prop} (hQ : ∀ b, (b = true → ∃ o,
    m.memory.get? v = some o ∧ o.cls = m.specials.get m.memory i) → Q b m) :
    Gives (Action.isInstanceOf v i) m Q := by
  refine .bind (gives_object? ?_)
  split
  · exact .pure (hQ false fun e => absurd e (by decide))
  · rename_i o ho
    exact .bind (gives_special (.pure (hQ _ fun e => ⟨o, ho, by simpa using e⟩)))

end Looks

/-! ### Making blocks -/

/-- What stores into a context that stands on no line may do. -/
structure Fills (T : Roles) (L : Ledger) (v : Value) (m m' : Machine) : Prop where
  later : m.memory.Later m'.memory
  slots : m'.memory.slots.size = m.memory.slots.size
  registers : m'.registers = m.registers
  reclaimable : m'.reclaimable = m.reclaimable
  cls : ∀ {c ps}, m.memory.shape v = some (c, ps) → ∃ qs, m'.memory.shape v = some (c, qs)
  keeps : ∀ {D}, Sealed T L D m → Held D m → T.role v = .context → (∀ k, v ∉ D.line k) →
    Sealed T L D m' ∧ Held D m'

namespace Fills

theorem refl (T : Roles) (L : Ledger) (v : Value) (m : Machine) : Fills T L v m m :=
  ⟨.refl _, rfl, rfl, rfl, fun h => ⟨_, h⟩, fun h hheld _ _ => ⟨h, hheld⟩⟩

theorem setCell {m₁ : Machine} (f : Fills T L v m m₁) (hx : ∀ {D}, Sealed T L D m₁ → Open D m₁ x)
    (hi : i = Context.sender → x = T.nil) : Fills T L v m (m₁.setCell v i x) := by
  refine ⟨f.later.trans (Alters.setCell ..).later, (slots_size_modify ..).trans f.slots, f.registers,
    f.reclaimable, fun hs => ?_, fun h hheld hrole hout => ?_⟩
  · obtain ⟨qs, hqs⟩ := f.cls hs
    exact ⟨_, by rw [Machine.setCell, Memory.shape_setField, if_pos rfl, hqs]; rfl⟩
  obtain ⟨h₁, hheld₁⟩ := f.keeps h hheld hrole hout
  exact ⟨h₁.setCell (Roles.ne_nil hrole) (by rw [hrole]; decide)
    (Roles.fits_context hrole fun e => .inl (hi e)) (hx h₁) fun _ e => ⟨hout, fun _ => hi e⟩,
    hheld₁.setCell⟩

end Fills

/-- An object that is made for a block. -/
theorem Sealed.allocate {o : Object} (h : Sealed T L D m) (hheld : Held D m)
    (ho : ∀ x ∈ o.pointers, x = T.nil) : Gives (Action.allocate o) m fun v m' =>
      m'.registers = m.registers ∧
      (m'.memory.slots.size ≤ 0x100000000 → m'.memory.isLive v = true →
        ∃ D', D.Narrows D' ∧ Sealed T L D' m' ∧ Held D' m' ∧ Loose T L D' m' v) := by
  intro v m' hrun
  obtain ⟨m₁, hash, htrims, hv, rfl⟩ := Action.allocate_ok hrun
  have hspares := (Undone.of_trims htrims).toSpares
  refine ⟨htrims.registers, fun room live => ?_⟩
  obtain ⟨D₁, hnarrows, h₁⟩ := h.spares hspares hheld.context
  obtain ⟨h₂, l, -⟩ := h₁.placed hv ho room live
  have a : Alters m₁ (Action.placed m₁ { o with hash }) v := hv ▸ .placed h₁.stocked _
  have hheld₁ := hheld.spares h.stocked hspares hnarrows
  obtain ⟨y, hy⟩ := hheld₁.home_sender
  refine ⟨D₁, hnarrows, h₂, ⟨hheld₁.context, hheld₁.home.imp_right fun ho => ho.later a.later, ?_,
    hheld₁.receiver.later a.later⟩, l⟩
  exact ⟨y, (Memory.cell_congr (shape_placed h₁.stocked (Memory.isLive_of_cell hy))).trans hy⟩

/-- A block hands the context that it is made in out. -/
theorem Running.blockCopy (h : Running T L D m) : Gives Attempt.blockCopy m fun v m' =>
    m'.memory.slots.size ≤ 0x100000000 →
      ∃ D', D'.line .frames = [] ∧ Sealed T L D' m' ∧ Held D' m' ∧ Open D' m' v ∧
        m'.reclaimable = 0 := by
  have hs := h.toSealed.release
  have hheld := h.toHeld.release
  have hstack : ∀ {i x}, m.memory.cell m.registers.context i = some x → Open D.release m x := by
    intro i x hx
    rw [hheld.context] at hx
    exact hs.open_of_top (fun hne => absurd D.release_frames hne) hx
  refine .bind (gives_stackObject fun context _ hcontext => ?_)
  refine .bind (gives_stackValue fun argCount _ hcount => ?_)
  refine .bind (Attempt.gives_require fun _ => .bind (Attempt.gives_looks (.lift Action.isContext_within) ?_))
  refine fun _ => .bind (Attempt.gives_require fun _ => ?_)
  refine .bind (Attempt.gives_looks (.lift Action.fetch_within) fun _ => ?_)
  have rest : ∀ home, Open D.release m home → Gives (do
      let o ← Action.object home
      let nil ← Action.nil
      let cls ← Action.special Special.classBlockContext
      let block ← Action.allocate (.ofPointers cls o.format (Array.replicate o.pointers.size nil))
      let r ← Action.registers
      let start ← Action.immediate (Context.encodePc (r.pc + 2) r.literalCount)
      Action.assertFrame block
      Action.store block Context.caller nil
      Action.store block Context.instructionPointer start
      Action.store block Context.stackPointer (.small 0)
      Action.store block Context.blockArgCount argCount
      Action.store block Context.initialPointer start
      Action.store block Context.home home
      modify fun m => { m with reclaimable := 0 }
      return block : Attempt Value) m fun v m' => m'.memory.slots.size ≤ 0x100000000 →
        ∃ D', D'.line .frames = [] ∧ Sealed T L D' m' ∧ Held D' m' ∧ Open D' m' v ∧
          m'.reclaimable = 0 := by
    intro home hhome
    refine .bind (Attempt.gives_lift (gives_object fun o _ => .bind (Attempt.gives_lift (gives_nil ?_))))
    rw [h.nil]
    refine .bind (Attempt.gives_lift (gives_special (.bind ?_)))
    have hknown : Sealed T (L.know [home, argCount]) D.release m := by
      refine hs.know fun y hy => ?_
      simp only [List.mem_cons, List.not_mem_nil, or_false] at hy
      rcases hy with rfl | rfl
      · exact hhome
      · exact hstack hcount
    refine (Attempt.gives_lift (hknown.allocate hheld fun x hx => ?_)).mono ?_
    · simp only [Object.ofPointers, Array.mem_replicate] at hx
      exact hx.2
    rintro block m₁ ⟨-, hnew⟩
    refine .bind (Attempt.gives_lift (gives_registers (.bind (Attempt.gives_lift
      (gives_immediate ?_)))))
    refine .bind (Attempt.gives_looks (.lift Action.assertFrame_within) fun _ => ?_)
    refine .bind (Attempt.gives_lift (Machine.gives_store fun y hy => ?_))
    have live := Memory.isLive_of_cell hy
    have f := (Fills.refl T (L.know [home, argCount]) block m₁).setCell (i := Context.caller)
      (x := T.nil) (fun h => h.open_nil) fun _ => rfl
    refine .bind (Attempt.gives_lift (Machine.gives_store fun _ _ => ?_))
    have f := f.setCell (i := Context.instructionPointer)
      (fun h => h.open_small (Context.encodePc (m₁.registers.pc + 2) m₁.registers.literalCount))
      fun e => absurd e (by decide)
    refine .bind (Attempt.gives_lift (Machine.gives_store fun _ _ => ?_))
    have f := f.setCell (i := Context.stackPointer) (fun h => h.open_small 0) fun e =>
      absurd e (by decide)
    refine .bind (Attempt.gives_lift (Machine.gives_store fun _ _ => ?_))
    have f := f.setCell (i := Context.blockArgCount) (fun h => h.heard argCount (.inr (by simp))) fun e =>
      absurd e (by decide)
    refine .bind (Attempt.gives_lift (Machine.gives_store fun _ _ => ?_))
    have f := f.setCell (i := Context.initialPointer)
      (fun h => h.open_small (Context.encodePc (m₁.registers.pc + 2) m₁.registers.literalCount))
      fun e => absurd e (by decide)
    refine .bind (Attempt.gives_lift (Machine.gives_store fun _ _ => ?_))
    have f := f.setCell (i := Context.home) (fun h => h.heard home (.inr (by simp))) fun e =>
      absurd e (by decide)
    refine .bind (.modify (.pure fun room => ?_))
    obtain ⟨D₁, hnarrows, h₁, hheld₁, l⟩ := hnew (Nat.le_trans (Nat.le_of_eq f.slots.symm) room) live
    obtain ⟨h₂, hheld₂⟩ := f.keeps h₁ hheld₁ l.role l.line
    refine ⟨D₁, hnarrows.frames.trans D.release_frames, ?_, ?_, ⟨?_, ?_⟩, rfl⟩
    · have h₃ : Sealed T L D₁ _ :=
        h₂.recount (fun y hy => .inl (.inl hy)) fun y hy => .inl hy
      exact h₃.congr rfl rfl rfl rfl
    · exact ⟨hheld₂.context, hheld₂.home, hheld₂.home_sender, hheld₂.receiver⟩
    · exact f.later.issued (Memory.issued_of_isLive live)
    · rintro (⟨⟨k, hk⟩, -⟩ | hlost)
      · exact l.line k hk
      · exact l.lost hlost
  refine .ite (fun _ => .bind (Attempt.gives_lift fun home m₁ hrun => ?_)) fun _ =>
    .bind (.pure (rest context (hstack hcontext)))
  obtain ⟨hcell, rfl⟩ := Action.fetch_ok.1 hrun
  exact rest home (hs.open_of_cell hcell (by decide))

/-! ### Entering blocks -/

/-- A frame that is shown does not count. -/
theorem Deal.spare_shown (hv : v ∉ D.line .frames) :
    Deal.spare { D.setLine .frames (v :: D.line .frames) with shown := v :: D.shown } = D.spare := by
  have hrest : (D.line .frames).countP (· ∉ v :: D.shown) = (D.line .frames).countP (· ∉ D.shown) := by
    refine List.countP_congr fun x hx => ?_
    have hxv : x ≠ v := fun e => hv (e ▸ hx)
    simp [hxv]
  simp only [Deal.spare, Deal.setLine_self]
  rw [List.countP_cons, hrest]
  simp

namespace Sealed

/-- What may be known stands on no line but the frames. -/
theorem not_line_of_open (h : Sealed T L D m) (hv : Open D m v) (hframes : v ∉ D.line .frames) :
    ∀ k, v ∉ D.line k := by
  intro k hk
  cases k with
  | frames => exact hframes hk
  | waiting large => exact hv.2 (h.private_of_hidden (.inl ⟨large, hk⟩))

/-- A block that is not on the sender chain may be put on top of it. -/
theorem enterBlock {ps : Array Value} (h : Sealed T L D m) (hrole : T.role v = .context)
    (hv : Open D m v) (hline : ∀ k, v ∉ D.line k) (hbase : v ≠ D.base)
    (hblock : m.memory.shape v = some (T.blockClass, ps))
    (hcell : ∃ y, m.memory.cell v Context.caller = some y) :
    Sealed T (L.enter v) { D.setLine .frames (v :: D.line .frames) with shown := v :: D.shown }
      (m.setCell v Context.caller D.top) := by
  refine h.hook (k := .frames) (.setCell m v _ _) hrole hbase hline
    (fun hlost => hv.2 (.inr hlost)) (fun x hx => by simp [hx])
    (fun hs => absurd List.mem_cons_self hs) (fun _ => ⟨rfl, hv.1, fun qs hs => ?_⟩) ?_
    (fun i x hi hx => ⟨?_, fun _ => List.mem_cons_self⟩) fun large => ?_
  · obtain ⟨qs', hqs, -⟩ := shape_setCell hs
    rw [hblock] at hqs
    exact absurd (congrArg Prod.fst (Option.some.inj hqs)).symm T.classes
  · obtain ⟨y, hy⟩ := hcell
    change (m.setCell v Context.caller D.top).memory.cell v Context.caller = _
    rw [cell_setCell, if_pos ⟨rfl, rfl⟩, hy]
    rfl
  · rw [cell_setCell, if_neg fun e => hi e.2] at hx
    exact h.open_of_cell hx hi
  · rw [Deal.setLine_of_ne _ (by simp)]
    exact h.head large

end Sealed

/-- The stack of a block starts above its fixed fields. -/
theorem one_le_decodeSp {sp : Nat} (h : Context.decodeSp? n = some sp) : 1 ≤ sp := by
  have hle : ¬ ((n : Int) + (Context.receiver : Nat) < 0) := by omega
  rw [Context.decodeSp?, if_neg hle] at h
  have hsp := Option.some.inj h
  simp only [Context.receiver] at hsp
  omega

/-- The last steps into a block. That the stack is deep enough is seen in the second of them only. -/
theorem gives_enterBlock {ps : Array Value} (hrole : T.role v = .context)
    (hcontext : m.registers.context = D.top) (hspare : m.reclaimable ≤ D.spare)
    (hchain : ∀ x, x = D.base ∨ x ∈ D.line .frames → v ≠ x)
    (hblock : m.memory.shape v = some (T.blockClass, ps))
    (hstack : m.memory.cell v Context.stackPointer = some (.small n))
    (h : n + 1 ≤ m.registers.sp → Sealed T L D m ∧ Open D m v) : Gives (do
      Action.store v Context.caller D.top
      Action.popN (n + 1)
      Action.activate v : Attempt Unit) m fun _ m' => Runs T (L.enter m'.registers.context) m' := by
  refine .bind (Attempt.gives_lift (Machine.gives_store fun y hy => ?_))
  refine .bind (Attempt.gives_lift fun _ m₂ hpop => Attempt.gives_lift fun _ m₃ hactivate => ?_)
  obtain ⟨hsp, rfl⟩ := Action.popN_ok.1 hpop
  obtain ⟨-, r, rfl, hr, hloaded⟩ := Action.activate_ok hactivate
  obtain ⟨h, hopen⟩ := h hsp
  have hframes : v ∉ D.line .frames := fun hx => hchain v (.inr hx) rfl
  have h₁ := h.enterBlock hrole hopen (h.not_line_of_open hopen hframes) (hchain _ (.inl rfl))
    hblock ⟨y, hy⟩
  have hactive : T.role m.registers.context = .context := by
    rw [hcontext]
    exact h.role_top
  have h₂ := h₁.withRegisters (r := { m.registers with sp := m.registers.sp - (n + 1) }) |>.saved
    hactive
  have htop : r.context = Deal.top
      { D.setLine .frames (v :: D.line .frames) with shown := v :: D.shown } := by
    rw [hr, Deal.top]
    simp only [Deal.setLine_self]
    rfl
  have hheld := h₂.held_of_loaded htop (by rw [hr]; exact hloaded)
  refine ⟨_, h₂.withRegisters.recount (fun y hy => .inl hy) fun y hy => .inl ?_, hheld, ?_, fun _ => ?_⟩
  · obtain ⟨hy, hne⟩ := hy
    exact ⟨hy, fun e => hne (e.trans hr.symm)⟩
  · rw [Deal.spare_shown hframes]
    exact hspare
  · obtain ⟨k, hk, hdecode⟩ := hloaded.sp
    have hne : v ≠ m.registers.context := by
      rw [hcontext, Deal.top]
      refine hchain _ ?_
      cases D.line .frames with
      | nil => exact .inl rfl
      | cons c rest => exact .inr List.mem_cons_self
    have hk := (Action.saved_of_ne (by exact hne) _).symm.trans hk
    change (m.setCell v Context.caller D.top).memory.cell v Context.stackPointer = _ at hk
    rw [cell_setCell, if_neg fun e => absurd e.2 (by decide), hstack] at hk
    obtain rfl := Value.small.inj (Option.some.inj hk)
    exact one_le_decodeSp hdecode

/-- A block that is entered is one more frame, but not one that may be recycled. -/
theorem Running.blockValue (h : Running T L D m)
    (hchain : ∀ b, m.memory.cell m.registers.context (m.registers.sp - n) = some b →
      ¬ OnChain m.memory.cell m.registers.context b) :
    Gives (Attempt.blockValue n) m fun _ m' => Runs T (L.enter m'.registers.context) m' := by
  refine .bind (gives_stackValue fun block hle hblock => ?_)
  refine .bind (Attempt.gives_lift (gives_isInstanceOf fun b hb => .bind (Attempt.gives_require ?_)))
  intro he
  obtain ⟨o, ho, hcls⟩ := hb he
  refine .bind (Attempt.gives_looks (.lift Action.fetch_within) fun _ => ?_)
  refine .bind (Attempt.gives_looks .ofOption fun _ => .bind (Attempt.gives_require fun _ => ?_))
  refine .bind (Attempt.gives_looks (.lift Action.fetch_within) fun _ => ?_)
  refine .bind (Attempt.gives_looks (.lift Action.nil_within) fun _ => ?_)
  refine .bind (Attempt.gives_require fun _ => ?_)
  refine .bind (Attempt.gives_looks (.lift Action.object_within) fun _ => ?_)
  refine .bind (Attempt.gives_require fun _ => .bind (Attempt.gives_lift fun arguments _ hread => ?_))
  obtain ⟨rfl, -, hvalues⟩ := Action.stackValues_ok hread
  refine .bind (Attempt.gives_lift (Machine.gives_fetch fun start hstart => ?_))
  refine .bind (Attempt.gives_lift (gives_registers ?_))
  have hknown : Sealed T (L.know (start :: arguments)) D m := by
    refine h.toSealed.know fun y hy => ?_
    rcases List.mem_cons.1 hy with rfl | hy
    · exact h.open_of_cell hstart (by decide)
    · obtain ⟨depth, hlt, -, hy⟩ := hvalues y hy
      exact h.open_of_cell hy (by simp only [Context.sender]; omega)
  refine .bind ((Gives.forM (P := Fills T (L.know (start :: arguments)) block m)
    (fun p hp m₁ f => ?_) (.refl ..)).mono fun _ m₁ f => ?_)
  · obtain ⟨x, i⟩ := p
    have hx : x ∈ arguments := by
      obtain ⟨-, -, hx⟩ := List.mem_zipIdx hp
      rw [hx]
      exact List.getElem_mem _
    refine Attempt.gives_lift (Machine.gives_store fun _ _ => ?_)
    exact f.setCell (fun h => h.heard x (.inr (List.mem_cons_of_mem start hx))) fun e =>
      absurd e (by simp [Context.sender, Context.frameStart])
  refine .bind (Attempt.gives_lift (Machine.gives_store fun _ _ => ?_))
  have f := f.setCell (i := Context.instructionPointer) (fun h => h.heard start (.inr List.mem_cons_self))
    fun e => absurd e (by decide)
  refine .bind (Attempt.gives_lift (Machine.gives_store fun y hy => ?_))
  have f := f.setCell (i := Context.stackPointer) (fun h => h.open_small n) fun e =>
    absurd e (by decide)
  have hshape : m.memory.shape block = some (T.blockClass, o.pointers) := by
    rw [← h.blockClass, ← hcls]
    exact Memory.shape_of_get? ho
  have hrole : T.role block = .context := by
    refine h.block block o.pointers hshape fun e => ?_
    rw [Memory.cell, ho, Option.bind_some, e] at hstart
    exact absurd hstart (by simp)
  have hout : ∀ x, x = D.base ∨ x ∈ D.line .frames → block ≠ x := by
    rintro x hx rfl
    refine hchain block hblock ?_
    rw [h.context]
    exact .of_strung (h.strung .frames) hx
  obtain ⟨qs, hqs⟩ := f.cls hshape
  rw [h.context]
  refine Gives.mono (gives_enterBlock (L := L.know (start :: arguments)) hrole
    (by rw [f.registers, h.context]) (by rw [f.reclaimable]; exact h.spare) hout hqs ?_
    fun hsp => ?_) ?_
  · rw [cell_setCell, if_pos ⟨rfl, rfl⟩, hy]
    rfl
  · rw [f.registers] at hsp
    have hopen : Open D m block := h.open_of_cell hblock (by simp only [Context.sender]; omega)
    have hline := h.toSealed.not_line_of_open hopen fun hx => hout _ (.inr hx) rfl
    exact ⟨(f.keeps hknown h.toHeld hrole hline).1, hopen.later f.later⟩
  · rintro _ m₂ ⟨D₂, h₂⟩
    exact ⟨D₂, h₂.less (fun y hy => .inl hy) fun y hy => hy⟩

end Smalltalk.Recycling
