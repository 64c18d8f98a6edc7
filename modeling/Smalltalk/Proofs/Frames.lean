import Mathlib
import Smalltalk.Proofs.Dispatch
import Smalltalk.Proofs.Switching

/-!
# Frames come and go

What activating a method, making and entering a block, and returning do to a deal. A return leaves
the contexts on its way one by one: each is cut off from its sender, and as long as the machine has
contexts to recycle it is offered to the pool. What is offered is the first frame; if it is a method
context it is private, and if it is a block the pool declines it. So the count may be used up by
blocks, but it never exceeds the method contexts among the frames.
-/

namespace Smalltalk.Recycling

open Outcome Machine

variable {T : Roles} {L : Ledger} {D : Deal} {m m' : Machine} {v w x c target : Value} {i n : Nat}

/-! ### The pool -/

theorem head_setHead (p : ContextPool) (large side : Bool) (context : Option Value) :
    (p.setHead large context).head side = if side = large then context else p.head side := by
  cases large <;> cases side <;> rfl

theorem chainOf?_eq_some {memory : Memory} {cls : Value} {large : Bool}
    (h : ContextPool.chainOf? memory c cls = some large) :
    ∃ o, memory.get? c = some o ∧ o.cls = cls ∧ o.pointers.size = Context.size large := by
  simp only [ContextPool.chainOf?, Option.bind_eq_bind, Option.bind_eq_some_iff] at h
  obtain ⟨o, ho, _, hcls, hchain⟩ := h
  refine ⟨o, ho, by simpa [guard] using hcls, ?_⟩
  simp only [ContextPool.chainFor?] at hchain
  split at hchain
  · rename_i hsize
    rw [hsize, ← Option.some.inj hchain]
    rfl
  · rename_i hsize
    split at hchain
    · rename_i hsize
      rw [hsize, ← Option.some.inj hchain]
      rfl
    · exact absurd hchain (by simp)

/-- A context that is offered to the pool is left alone, or it is put in front of a chain. -/
theorem recycleContext_ok {u : Unit} (h : Action.recycleContext c m = .ok u m') :
    (ContextPool.chainOf? m.memory c (m.specials.get m.memory Special.classMethodContext) = none ∧
      m' = m) ∨
    ∃ large, ContextPool.chainOf? m.memory c
        (m.specials.get m.memory Special.classMethodContext) = some large ∧
      m' = { m.setCell c Context.sender ((m.pool.head large).getD m.specials.nil) with
        pool := { m.pool.setHead large (some c) with
          recycled := (m.pool.setHead large (some c)).recycled + 1 } } := by
  simp only [Action.recycleContext, bind_ok, Action.special_ok, Action.nil_ok] at h
  obtain ⟨_, _, ⟨rfl, rfl⟩, _, _, ⟨rfl, rfl⟩, h⟩ := h
  simp only [Action.onPool, ContextPool.recycle, EStateM.Result.ok.injEq] at h
  obtain ⟨-, rfl⟩ := h
  cases hchain : ContextPool.chainOf? m.memory c
      (m.specials.get m.memory Special.classMethodContext) with
  | none => exact .inl ⟨rfl, rfl⟩
  | some large => exact .inr ⟨large, rfl, rfl⟩

namespace Sealed

/-- The pool declines a block. -/
theorem recycle_shown {u : Unit} (h : Sealed T L D m) (hc : c ∈ D.shown)
    (hrun : Action.recycleContext c m = .ok u m') : m' = m := by
  rcases recycleContext_ok hrun with ⟨-, hm⟩ | ⟨large, hchain, -⟩
  · exact hm
  · obtain ⟨o, ho, hcls, hsize⟩ := chainOf?_eq_some hchain
    rw [h.methodClass] at hcls
    have hempty := (h.shown c hc).2 o.pointers (by rw [← hcls]; exact Memory.shape_of_get? ho)
    rw [hempty] at hsize
    cases large <;> exact absurd hsize (by decide)

/-- A loose context may be offered to the pool. -/
theorem recycle_loose {u : Unit} (h : Sealed T L D m) (l : Loose T L D m c)
    (hrun : Action.recycleContext c m = .ok u m') :
    ∃ D', Sealed T L D' m' ∧ D'.top = D.top ∧ D'.spare = D.spare ∧
      m'.reclaimable = m.reclaimable ∧ m'.registers = m.registers ∧ Alters m m' c := by
  rcases recycleContext_ok hrun with ⟨-, rfl⟩ | ⟨large, hchain, rfl⟩
  · exact ⟨D, h, rfl, rfl, rfl, rfl, rfl, .refl _, id, fun _ _ => rfl⟩
  · obtain ⟨o, ho, -, hsize⟩ := chainOf?_eq_some hchain
    obtain ⟨y, hy⟩ : ∃ y, m.memory.cell c Context.sender = some y := by
      have hlt : Context.sender < o.pointers.size := by
        rw [hsize]
        cases large <;> decide
      exact ⟨_, Memory.cell_eq_some.2 ⟨o, ho, Array.getElem?_eq_getElem hlt⟩⟩
    have hsame : ∀ (x : Value) (p : ContextPool),
        Alters m { m.setCell c Context.sender x with pool := p } c := fun x p =>
      have a := Alters.setCell m c Context.sender x
      ⟨a.specials, a.later, a.stocked, a.other⟩
    have hhooked := h.hook (k := .waiting large) (S := D.shown)
      (hsame ((m.pool.head large).getD m.specials.nil) { m.pool.setHead large (some c) with
          recycled := (m.pool.setHead large (some c)).recycled + 1 })
      l.role l.base l.line l.lost (fun _ _ => Iff.rfl) (fun _ => l) (fun hx => absurd hx l.shown)
      (by
        change (m.setCell c Context.sender _).memory.cell c Context.sender = _
        rw [cell_setCell, if_pos ⟨rfl, rfl⟩, hy, h.head, h.nil]
        rfl)
      (fun i x hi hx => by
        change (m.setCell c Context.sender _).memory.cell c i = some x at hx
        rw [cell_setCell, if_neg fun e => hi e.2] at hx
        refine ⟨h.open_of_cell hx hi, ?_⟩
        rintro rfl
        exact absurd hx (l.unheld x i))
      (fun side => by
        change (m.pool.setHead large (some c)).head side = _
        rw [head_setHead]
        by_cases hside : side = large
        · subst hside
          rw [if_pos rfl, Deal.setLine_self]
          rfl
        · rw [if_neg hside, Deal.setLine_of_ne _ (by simpa using hside)]
          exact h.head side)
    refine ⟨_, hhooked.recount (fun x hx => .inl hx) fun x hx => ?_, ?_, ?_, rfl, rfl, hsame ..⟩
    · by_cases hxc : x = c
      · exact .inr (.inl (.inl ⟨large, Deal.mem_setLine_cons.2 (.inl ⟨hxc, rfl⟩)⟩))
      · exact .inl ⟨hx, hxc⟩
    · simp only [Deal.top, Deal.setLine_of_ne D (k := .waiting large) (l := .frames) (by simp)]
      rfl
    · simp only [Deal.spare, Deal.setLine_of_ne D (k := .waiting large) (l := .frames) (by simp)]

/-! ### Returns -/

/-- The machine with a context cut off from its sender. -/
def severed (m : Machine) (c nil : Value) : Machine :=
  (m.setCell c Context.sender nil).setCell c Context.instructionPointer nil

theorem alters_severed (m : Machine) (c nil : Value) : Alters m (severed m c nil) c :=
  (Alters.setCell m ..).trans (Alters.setCell _ ..)

theorem cell_severed {nil : Value} (h : (severed m c nil).memory.cell c i = some x) :
    x = nil ∨ i ≠ Context.sender ∧ m.memory.cell c i = some x := by
  rw [severed, cell_setCell] at h
  split at h
  · obtain ⟨_, -, rfl⟩ := Option.map_eq_some_iff.1 h
    exact .inl rfl
  · rw [cell_setCell] at h
    split at h
    · obtain ⟨_, -, rfl⟩ := Option.map_eq_some_iff.1 h
      exact .inl rfl
    · rename_i hi
      exact .inr ⟨fun e => hi ⟨rfl, e⟩, h⟩

/-- The sender of a context that can be left is a context. -/
theorem role_sender {next : Value} (h : Sealed T L D m) (hc : T.role c = .context)
    (hnext : m.memory.cell c Context.sender = some next) (hnil : next ≠ T.nil) :
    T.role next = .context :=
  (h.allows_of_cell (r := .context) (.inr hc) rfl hnext).resolve_left hnil

/-- Below the frames a context is left to whoever refers to it. -/
theorem sever_base {next : Value} (h : Sealed T L D m) (hf : D.line .frames = [])
    (hc : D.base = c) (hnext : m.memory.cell c Context.sender = some next) (hnil : next ≠ T.nil) :
    Sealed T (L.leave [c]) { D with base := next } (severed m c T.nil) := by
  subst hc
  have hout : ∀ k, D.base ∉ D.line k := by
    intro k hk
    cases k with
    | frames => simp [hf] at hk
    | waiting large => exact h.base.1.2 (h.private_of_hidden (.inl ⟨large, hk⟩))
  have htop : D.top = D.base := by rw [Deal.top, hf]; rfl
  have hopen : Open D m next := h.open_of_top (fun hne => absurd hf hne) (by rw [htop]; exact hnext)
  have h₁ : Sealed T L D (m.setCell D.base Context.sender T.nil) :=
    h.setCell (Roles.ne_nil h.base.2) (by rw [h.base.2]; decide)
      (Roles.fits_context h.base.2 fun _ => .inl rfl) h.open_nil fun _ _ => ⟨hout, fun _ => rfl⟩
  have h₂ := h₁.setCell_context (i := Context.instructionPointer) h.base.2 (by decide) h₁.open_nil
  have h₃ := h₂.rebase hf (hopen.later (alters_severed m D.base T.nil).later)
    (h.role_sender h.base.2 hnext hnil)
  refine h₃.recount (fun x hx => .inl hx) fun x hx => ?_
  rcases hx with hx | hx
  · exact .inl hx
  · obtain rfl := List.mem_singleton.1 hx
    refine .inr (.inr ⟨⟨h₂.base.1.1, h₂.base.1.2⟩, h.base.2, fun y hy => ?_⟩)
    exact (cell_severed hy).resolve_right fun e => e.1 rfl

/-- The first frame may be left; if it is not a block, nothing refers to it then. -/
theorem sever_frame {rest : List Value} (h : Sealed T L D m) (hf : D.line .frames = c :: rest) :
    Sealed T (L.leave [c]) (D.setLine .frames rest) (severed m c T.nil) ∧
      (c ∉ D.shown → Loose T (L.leave [c]) (D.setLine .frames rest) (severed m c T.nil) c) := by
  have hwaiting : ∀ large, (D.setLine .frames rest).line (.waiting large) = D.line (.waiting large) :=
    fun large => D.setLine_of_ne (by simp) rest
  obtain ⟨h₁, -, hloose, hretired⟩ := h.unhook hf (alters_severed m c T.nil)
    (fun y hy => (cell_severed hy).resolve_right fun e => e.1 rfl)
    (fun i x _ hx => (cell_severed hx).imp_right And.right)
    (fun hs ps hshape => by
      obtain ⟨qs, hqs, he⟩ := shape_setCell hshape
      obtain ⟨qs', hqs', he'⟩ := shape_setCell hqs
      exact he.2 (he'.2 ((h.shown c hs).2 qs' hqs')))
    (fun large => by rw [hwaiting]; exact h.head large)
  refine ⟨h₁.recount (fun x hx => .inl hx) fun x hx => ?_, fun hs => ?_⟩
  · rcases hx with hx | hx
    · exact .inl hx
    · obtain rfl := List.mem_singleton.1 hx
      exact .inr hretired
  · exact (hloose hs).congr rfl rfl

/-- A return that leaves one context. -/
theorem sever {next : Value} (h : Sealed T L D m) (hc : D.top = c)
    (hnext : m.memory.cell c Context.sender = some next) (hnil : next ≠ T.nil)
    (hspare : m.reclaimable ≤ D.spare) : Gives (Action.sever c) m fun _ m' =>
      ∃ D', Sealed T (L.leave [c]) D' m' ∧ D'.top = next ∧ m'.reclaimable ≤ D'.spare ∧
        m'.registers = m.registers ∧ Alters m m' c := by
  refine .bind (gives_nil (.bind (Machine.gives_store fun _ _ => ?_)))
  refine .bind (Machine.gives_store fun _ _ => ?_)
  rw [h.nil]
  have a := alters_severed m c T.nil
  refine .bind (.get ?_)
  rcases top_cases D with ⟨hf, htop⟩ | ⟨rest, hf⟩
  · -- below the frames nothing is counted any more
    have hzero : m.reclaimable = 0 := by simpa [Deal.spare, hf] using hspare
    refine .ite (fun hpos => absurd hpos (by simp [Machine.setCell, hzero])) fun _ => .pure ?_
    refine ⟨_, h.sever_base hf (htop.symm.trans hc) hnext hnil, ?_, ?_, rfl, a⟩
    · rw [Deal.top, hf]
      rfl
    · exact Nat.le_trans (Nat.le_of_eq hzero) (Nat.zero_le _)
  · rw [hc] at hf
    obtain ⟨h₁, hloose⟩ := h.sever_frame hf
    have htop : (D.setLine .frames rest).top = next := by
      have hstrung := h.strung .frames
      rw [hf] at hstrung
      rw [Deal.top, Deal.setLine_self]
      exact Option.some.inj (hstrung.1.symm.trans hnext)
    have hcount : D.spare = (D.setLine .frames rest).spare + if c ∈ D.shown then 0 else 1 :=
      Deal.spare_of_cons hf (D.setLine_self ..) rfl
    refine .ite (fun hpos => .bind (.modify fun u m' hrun => ?_)) fun hzero => .pure ?_
    · have h₂ : Sealed T (L.leave [c]) (D.setLine .frames rest)
          { severed m c T.nil with reclaimable := (severed m c T.nil).reclaimable - 1 } :=
        h₁.congr rfl rfl rfl rfl
      by_cases hs : c ∈ D.shown
      · obtain rfl := h₂.recycle_shown hs hrun
        refine ⟨_, h₂, htop, ?_, rfl, a.specials, a.later, a.stocked, a.other⟩
        rw [if_pos hs] at hcount
        exact Nat.le_trans (Nat.sub_le ..) (Nat.le_trans hspare (Nat.le_of_eq hcount))
      · obtain ⟨D', h₃, htop', hspare', hcount', hregisters, a'⟩ :=
          h₂.recycle_loose ((hloose hs).congr rfl rfl) hrun
        have ha : Alters m { severed m c T.nil with
            reclaimable := (severed m c T.nil).reclaimable - 1 } c :=
          ⟨a.specials, a.later, a.stocked, a.other⟩
        refine ⟨D', h₃, htop'.trans htop, ?_, hregisters, ha.trans a'⟩
        rw [hcount', hspare']
        rw [if_neg hs] at hcount
        change m.reclaimable - 1 ≤ _
        omega
    · refine ⟨_, h₁, htop, ?_, rfl, a⟩
      exact Nat.le_trans (Nat.le_of_eq (Nat.eq_zero_of_not_pos hzero)) (Nat.zero_le _)

/-- A return leaves the contexts on its way one after the other. -/
theorem severAll {path : List Value} (h : Sealed T L D m) (htop : D.top = path.head?.getD target)
    (hpath : Strung m.memory.cell target path) (htarget : target ∉ path) (hnil : T.nil ∉ path)
    (hsome : target ≠ T.nil) (hspare : m.reclaimable ≤ D.spare) :
    Gives (path.forM Action.sever) m fun _ m' =>
      ∃ D', Sealed T (L.leave path) D' m' ∧ D'.top = target ∧ m'.reclaimable ≤ D'.spare ∧
        m'.registers = m.registers := by
  induction path generalizing L D m with
  | nil =>
    refine .pure ⟨D, h.recount (fun x hx => .inl hx) fun x hx => .inl ?_, htop, hspare, rfl⟩
    exact hx.resolve_right List.not_mem_nil
  | cons c path ih =>
    have hrest : target ∉ path := fun hx => htarget (List.mem_cons_of_mem c hx)
    have hnext : path.head?.getD target ≠ T.nil := by
      cases path with
      | nil => exact hsome
      | cons d path =>
        rintro rfl
        exact hnil (List.mem_cons_of_mem c List.mem_cons_self)
    refine .bind ((h.sever (c := c) htop hpath.1 hnext hspare).mono ?_)
    rintro _ m₁ ⟨D₁, h₁, htop₁, hspare₁, hregisters, a⟩
    have hc : c ∉ path := (List.nodup_cons.1 (hpath.nodup htarget)).1
    have hpath₁ : Strung m₁.memory.cell target path :=
      hpath.2.congr fun p hp => a.cell fun e => hc (e ▸ hp)
    refine (ih h₁ htop₁ hpath₁ hrest (fun hx => hnil (List.mem_cons_of_mem c hx)) hspare₁).mono ?_
    rintro _ m₂ ⟨D₂, h₂, htop₂, hspare₂, hregisters₂⟩
    refine ⟨D₂, h₂.recount (fun x hx => .inl hx) fun x hx => .inl ?_, htop₂, hspare₂,
      hregisters₂.trans hregisters⟩
    rcases hx with hx | hx
    · exact .inl (.inl hx)
    · exact (List.mem_cons.1 hx).imp (fun e => .inr (by simp [e])) id

/-- Whoever may be known may be pushed. -/
theorem running_pushed (h : Sealed T L D m) (hheld : Held D m) (hx : Open D m x)
    (hspare : m.reclaimable ≤ D.spare) : Running T L D (Action.pushed m x) := by
  have hrole : T.role m.registers.context = .context := by
    rw [hheld.context]
    exact h.role_top
  have h₁ := h.setCell_context (i := m.registers.sp + 1) hrole (Nat.succ_ne_zero _) hx
  have hheld₁ := hheld.setCell (v := m.registers.context) (i := m.registers.sp + 1) (x := x)
  exact ⟨h₁.withRegisters, ⟨hheld₁.context, hheld₁.home, hheld₁.home_sender, hheld₁.receiver⟩,
    hspare, fun _ => Nat.succ_le_succ (Nat.zero_le _)⟩

/-- A return recycles private contexts only. -/
theorem returnTo (h : Sealed T L D m) (hc : m.registers.context = D.top)
    (hspare : m.reclaimable ≤ D.spare) (hx : Open D m x) :
    Gives (Action.returnTo x target) m fun _ m' =>
      ∃ path, Way m m' path ∧ Runs T (L.leave path) m' := by
  refine .bind (gives_nil (.ite (fun _ => .bind .throw) fun hsome => ?_))
  refine .bind (Machine.gives_fetch fun _ _ => .ite (fun _ => .bind .throw) fun _ => ?_)
  refine .bind (.bind (.get (.bind (gives_registers ?_))))
  refine gives_senderPathWithin.mono fun path m₁ hpath => ?_
  obtain ⟨rfl, hhead, hstrung, htarget, hnil⟩ := hpath
  rw [h.nil] at hsome hnil
  -- the value that is answered stays known on the way
  have hknown : Sealed T (L.know [x]) D m := h.know fun y hy => by
    rwa [List.mem_singleton.1 hy]
  refine .bind ((hknown.severAll (by rw [hhead, hc]) hstrung htarget hnil hsome hspare).mono ?_)
  rintro _ m₂ ⟨D₂, h₂, htop, hspare₂, -⟩
  refine .bind (.modify (.bind fun _ m₃ hload => ?_))
  obtain ⟨r, rfl, hcontext, hloaded⟩ := Action.loadRegisters_ok hload
  have hcontext : r.context = target := hcontext
  have hheld := h₂.held_of_loaded (hcontext.trans htop.symm) (by rw [hcontext]; exact hloaded)
  intro _ m₄ hpush
  obtain ⟨-, rfl⟩ := Action.push_ok.1 hpush
  refine ⟨path, ?_, D₂, ?_⟩
  · change path.head?.getD r.context = _ ∧ Strung _ r.context path ∧ r.context ∉ path
    rw [hcontext]
    exact ⟨hhead, hstrung, htarget⟩
  · have hend := h₂.withRegisters (r := r) |>.running_pushed hheld
      (h₂.heard x (.inr (List.mem_singleton.2 rfl))) hspare₂
    exact hend.less (fun y hy => .inl hy) fun y hy => hy

/-! ### New contexts -/

/-- A method is not private, as its first field is no sender. -/
theorem open_of_header {method : Value} {header : MethodHeader} (h : Sealed T L D m)
    (hheader : MethodHeader.of m.memory method = .ok header) : Open D m method := by
  refine ⟨Memory.issued_of_isLive (isLive_of_header hheader), fun hp => ?_⟩
  unfold MethodHeader.of at hheader
  split at hheader
  · exact absurd hheader (by simp)
  · rename_i o ho
    split at hheader
    · rename_i word hword
      have hcell : m.memory.cell method Context.sender = some (.small word) :=
        Memory.cell_eq_some.2 ⟨o, ho, hword⟩
      rcases h.allows_of_cell (r := .context) (.inr (h.role_private hp)) rfl hcell with hnil | hrole
      · have hreference := T.nil_reference
        rw [← hnil] at hreference
        exact absurd hreference (by simp [Value.isReference])
      · rw [T.small_role] at hrole
        exact absurd hrole (by decide)
    · exact absurd hheader (by simp)

/-- What a context is supplied for: nothing refers to it, and it has nil in its fields. -/
structure Supply (T : Roles) (L : Ledger) (D : Deal) (m : Machine) (v : Value) (m' : Machine) : Prop where
  registers : m'.registers = m.registers
  reclaimable : m'.reclaimable = m.reclaimable
  provided : m'.memory.slots.size ≤ 0x100000000 → m'.memory.isLive v = true →
    ∃ D', D.Narrows D' ∧ Sealed T L D' m' ∧ Loose T L D' m' v ∧
      ∀ i x, m'.memory.cell v i = some x → x = T.nil

/-- A context from the pool. -/
theorem supply_pooled {large : Bool} {o : Object} {next : Value} (h : Sealed T L D m)
    (hhead : m.pool.head large = some v) (ho : m.memory.get? v = some o)
    (hnext : (o.pointers[Context.sender]?).getD m.specials.nil = next) :
    Supply T L D m v { m with
      pool := m.pool.setHead large (if next = m.specials.nil then none else some next)
      memory := m.memory.replace v (Action.wiped o m.specials.nil) } := by
  refine ⟨rfl, rfl, fun _ _ => ?_⟩
  obtain ⟨rest, hline⟩ : ∃ rest, D.line (.waiting large) = v :: rest := by
    rw [h.head] at hhead
    cases hline : D.line (.waiting large) with
    | nil => simp [hline] at hhead
    | cons c rest =>
      rw [hline] at hhead
      obtain rfl := Option.some.inj hhead
      exact ⟨rest, rfl⟩
  have hv : v ∈ D.line (.waiting large) := by rw [hline]; exact List.mem_cons_self
  have hrest : next = rest.head?.getD T.nil := by
    have hstrung := h.strung (.waiting large)
    rw [hline] at hstrung
    obtain ⟨o', ho', hsender⟩ := Memory.cell_eq_some.1 hstrung.1
    rw [ho] at ho'
    obtain rfl := Option.some.inj ho'
    rw [← hnext, hsender]
    rfl
  have a : Alters m { m with
      pool := m.pool.setHead large (if next = m.specials.nil then none else some next)
      memory := m.memory.replace v (Action.wiped o m.specials.nil) } v :=
    have a := Alters.modified m v fun _ => Action.wiped o m.specials.nil
    ⟨a.specials, a.later, a.stocked, a.other⟩
  have hcells : ∀ i x, (m.memory.replace v (Action.wiped o m.specials.nil)).cell v i = some x →
      x = T.nil := by
    intro i x hx
    rw [Memory.cell, Memory.replace, Memory.get?_modify, if_pos rfl, ho] at hx
    have hmem := Array.mem_of_getElem? hx
    rw [← h.nil]
    simp only [Action.wiped, Array.mem_replicate] at hmem
    exact hmem.2
  obtain ⟨h', -, hloose, -⟩ := h.unhook hline a (fun y hy => hcells _ y hy)
    (fun i x _ hx => .inl (hcells i x hx)) (fun hs => absurd hs (h.waiting large v hv)) (fun side => by
      change (m.pool.setHead large _).head side = _
      rw [head_setHead]
      by_cases hside : side = large
      · subst hside
        rw [if_pos rfl, Deal.setLine_self, hrest, h.nil]
        cases rest with
        | nil => exact if_pos rfl
        | cons c rest =>
          refine if_neg (Roles.ne_nil (h.role (.waiting side) c ?_))
          rw [hline]
          exact List.mem_cons_of_mem v List.mem_cons_self
      · rw [if_neg hside, Deal.setLine_of_ne _ (by simpa using hside)]
        exact h.head side)
  exact ⟨D.setLine (.waiting large) rest, ⟨rfl, D.setLine_of_ne (by simp) rest, rfl, fun x hx =>
    Deal.private_of_setLine_rest hline hx⟩, h', hloose (h.waiting large v hv), hcells⟩

/-- A context that is a new object. -/
theorem supply_fresh {m₁ : Machine} {o : Object} {pool : ContextPool}
    (h : Sealed T L D m) (hc : m.registers.context = D.top) (htrims : Trims m m₁)
    (hpool : m₁.pool.head = pool.head) (ho : ∀ x ∈ o.pointers, x = T.nil)
    (hv : v = (m₁.memory.place o).1) :
    Supply T L D m v { Action.placed m₁ o with pool := pool } := by
  refine ⟨htrims.registers, by rw [Action.placed, htrims.frame], fun room live => ?_⟩
  obtain ⟨D₁, hnarrows, h₁⟩ := h.spares (Undone.of_trims htrims).toSpares hc
  obtain ⟨h₂, hloose, hget⟩ := h₁.placed hv ho room live
  refine ⟨D₁, hnarrows, h₂.congr rfl rfl rfl hpool.symm,
    hloose.congr rfl rfl, fun i x hx => ?_⟩
  change (Action.placed m₁ o).memory.cell v i = some x at hx
  rw [Memory.cell, hget] at hx
  exact ho x (Array.mem_of_getElem? hx)

/-- A context is made while the method is pinned. -/
theorem pinnedContext {large : Bool} {method : Value} (h : Sealed T L D m)
    (hc : m.registers.context = D.top) :
    Gives (Action.withPins [method] (Action.allocateContext large)) m fun v m' =>
      Supply T L D m v m' := by
  intro v m' hrun
  obtain ⟨m₃, hinner, rfl⟩ := withPins_ok hrun
  obtain ⟨m₂, htrims, hsupplied⟩ := Action.allocateContext_ok hinner
  have hpinned : Sealed T L D (m.withPins (m.memory.pins ++ [method].toArray)) :=
    h.congr rfl rfl rfl rfl
  obtain ⟨D₂, hnarrows, h₂⟩ := hpinned.spares (Undone.of_trims htrims).toSpares hc
  have hregisters : m₂.registers = m.registers := htrims.registers
  have hc₂ : m₂.registers.context = D₂.top := by rw [hregisters, hc, hnarrows.top]
  have hreclaimable : m₂.reclaimable = m.reclaimable := by rw [htrims.frame]; rfl
  have hsupply : Supply T L D₂ m₂ v m₃ := by
    cases hsupplied with
    | pooled hhead ho hnext => exact h₂.supply_pooled hhead ho hnext
    | fresh htrims' hhead ho hv =>
      refine h₂.supply_fresh hc₂ htrims' (by rw [hhead.1]; rfl) (fun x hx => ?_) hv
      rw [ho] at hx
      simp only [Object.ofPointers, Array.mem_replicate] at hx
      exact hx.2.trans h₂.nil
  refine ⟨hsupply.registers.trans hregisters, hsupply.reclaimable.trans hreclaimable,
    fun room live => ?_⟩
  obtain ⟨D₃, hnarrows₃, h₃, l, hcells⟩ := hsupply.provided room live
  exact ⟨D₃, hnarrows.trans hnarrows₃, h₃.congr rfl rfl rfl rfl,
    l.congr rfl rfl, hcells⟩

end Sealed

/-! ### Activation -/

theorem fillFrame_sender {o : Object} {sender method nil : Value} {frame : Array Value} {count : Nat}
    (h : 0 < o.pointers.size) :
    (Action.fillFrame o sender method nil frame count).pointers[Context.sender]? = some sender := by
  have hlt : Context.sender < (o.pointers.extract 0 Context.receiver).size := by
    simp only [Array.size_extract, Context.sender, Context.receiver]
    omega
  simp only [Action.fillFrame, Array.append_assoc]
  rw [Array.getElem?_append_left (by simpa using hlt)]
  exact Array.getElem?_setIfInBounds_self_of_lt (by simpa using hlt)

/-- The sender of a new frame stands in its own field only. -/
theorem fillFrame_other {o : Object} {sender method nil : Value} {frame : Array Value} {count : Nat}
    (hi : i ≠ Context.sender)
    (hx : (Action.fillFrame o sender method nil frame count).pointers[i]? = some x) :
    x ∈ o.pointers ∨ x = nil ∨ x = method ∨ x ∈ frame := by
  have hsame : (Action.fillFrame o sender method nil frame count).pointers[i]? =
      (Action.fillFrame o nil method nil frame count).pointers[i]? := by
    simp only [Action.fillFrame, Array.getElem?_append, Array.size_append, Array.size_setIfInBounds,
      Array.getElem?_setIfInBounds_ne (Ne.symm hi)]
  rw [hsame] at hx
  rcases mem_fillFrame (Array.mem_of_getElem? hx) with hx | hx | hx | hx | hx
  · exact .inl hx
  · exact .inr (.inl hx)
  · exact .inr (.inr (.inl hx))
  · exact .inr (.inl hx)
  · exact .inr (.inr (.inr hx))

theorem slots_size_modify (memory : Memory) (v : Value) (f : Object → Object) :
    (memory.modify v f).slots.size = memory.slots.size := by
  cases v with
  | small n => rfl
  | ref index generation =>
    rw [Memory.modify]
    split
    · simp [Memory.modifyAt]
    · rfl

theorem slots_size_saved (m : Machine) :
    (Action.saved m).memory.slots.size = m.memory.slots.size :=
  (slots_size_modify ..).trans (slots_size_modify ..)

/-- A loose context becomes a frame when it is filled. -/
theorem Sealed.framed {o : Object} {method : Value} (h : Sealed T L D m) (frame : Array Value)
    (count : Nat) (l : Loose T L D m v) (ho : m.memory.get? v = some o)
    (hsize : 0 < o.pointers.size) (hnil : ∀ i x, m.memory.cell v i = some x → x = T.nil)
    (hmethod : L.known method) (hframe : ∀ x ∈ frame, Open D m x ∧ x ≠ v) :
    Sealed T (L.enter v) (D.setLine .frames (v :: D.line .frames))
      (m.modified v fun o => Action.fillFrame o D.top method T.nil frame count) := by
  have hcell : ∀ i, (m.modified v fun o => Action.fillFrame o D.top method T.nil frame count
      ).memory.cell v i = (Action.fillFrame o D.top method T.nil frame count).pointers[i]? := by
    intro i
    rw [Memory.cell, Machine.modified, Memory.get?_modify, if_pos rfl, ho]
    rfl
  refine h.hook (k := .frames) (S := D.shown) (.modified m v _) l.role l.base l.line l.lost
    (fun _ _ => Iff.rfl) (fun _ => l) (fun hs => absurd hs l.shown) ?_ (fun i x hi hx => ?_)
    fun large => ?_
  · rw [hcell, fillFrame_sender hsize]
    rfl
  · rw [hcell] at hx
    have hother : Open D m x ∧ x ≠ v := by
      rcases fillFrame_other hi hx with hx | rfl | rfl | hx
      · obtain ⟨j, hj, rfl⟩ := Array.mem_iff_getElem.1 hx
        rw [hnil j _ (Memory.cell_eq_some.2 ⟨o, ho, Array.getElem?_eq_getElem hj⟩)]
        exact ⟨h.open_nil, Ne.symm (Roles.ne_nil l.role)⟩
      · exact ⟨h.open_nil, Ne.symm (Roles.ne_nil l.role)⟩
      · exact ⟨h.heard _ hmethod, fun e => l.heard (e ▸ hmethod)⟩
      · exact hframe x hx
    exact ⟨hother.1, fun e => absurd e hother.2⟩
  · rw [Deal.setLine_of_ne _ (by simp)]
    exact h.head large

/-- Once a frame is filled, the arguments are taken off the stack and the registers are set. -/
theorem gives_switch {r : Registers} : Gives (do
      Action.popN (n + 1)
      modify fun m => { m with reclaimable := m.reclaimable + 1 }
      Action.saveRegisters
      Action.modifyRegisters fun _ => r
      Action.saveRegisters) m fun _ m' =>
        n + 1 ≤ m.registers.sp ∧ m'.registers = r ∧ m'.reclaimable = m.reclaimable + 1 ∧
        m'.memory.slots.size = m.memory.slots.size ∧
        ∀ L D, Sealed T L D m → T.role m.registers.context = .context →
          T.role r.context = .context → Sealed T L D m' := by
  intro _ m' hrun
  obtain ⟨hsp, -, -, -, -, rfl⟩ := Action.counted_ok hrun
  refine ⟨hsp, rfl, rfl, (slots_size_saved _).trans (slots_size_saved _),
    fun L D h hrole hr => ?_⟩
  have h₁ : Sealed T L D (Action.counted m (n + 1)) := h.congr rfl rfl rfl rfl
  exact ((h₁.saved hrole).withRegisters (r := r)).saved hr

/-- A method context that is entered is one more frame that may be recycled. -/
theorem Running.enterMethod {receiver method : Value} (h : Running T L D m)
    (hreceiver : n + 1 ≤ m.registers.sp → Open D m receiver) :
    Gives (Action.enterMethod receiver method n) m fun _ m' =>
      m'.memory.slots.size ≤ 0x100000000 → Runs T (L.enter m'.registers.context) m' := by
  refine .bind (.get (.bind fun header m₁ hread => ?_))
  obtain ⟨hheader, rfl⟩ := Action.ofExcept_ok.1 hread
  -- that the stack is deep enough is seen only when the arguments are taken off it
  have h₀ : Sealed T { L with known := fun y => L.known y ∨ y = method ∨
      n + 1 ≤ m.registers.sp ∧ y = receiver } D m := by
    refine h.toSealed.recount (fun y hy => ?_) fun y hy => .inl hy
    rcases hy with hy | rfl | ⟨hsp, rfl⟩
    · exact .inl hy
    · exact .inr (h.open_of_header hheader)
    · exact .inr (hreceiver hsp)
  refine .bind ((h₀.pinnedContext h.context).mono fun v m₁ hsupply => ?_)
  refine .bind (gives_nil (.bind (gives_registers (.bind fun frame m₂ hframe => ?_))))
  obtain ⟨rfl, hlength, hvalues⟩ := Action.stackValues_ok hframe
  refine .bind (gives_object fun o ho => .ite (fun _ => .bind .throw) fun hsize => ?_)
  refine .bind fun _ m₂ hfill => ?_
  have hm₂ : m₂ = m₁.modified v fun o => Action.fillFrame o m₁.registers.context method
      m₁.specials.nil frame.toArray header.tempCount := (Action.modifyMemory_ok.1 hfill).symm
  have hslots : m₂.memory.slots.size = m₁.memory.slots.size := by
    rw [hm₂]
    exact slots_size_modify ..
  have hregisters : m₂.registers = m₁.registers := by rw [hm₂]; rfl
  have hreclaimable : m₂.reclaimable = m₁.reclaimable := by rw [hm₂]; rfl
  refine (gives_switch (T := T)).mono fun _ m' ⟨hsp, hr, hcount, hsize', hkeeps⟩ room => ?_
  obtain ⟨D₁, hnarrows, h₁, l, hnil⟩ := hsupply.provided (by omega) (Memory.isLive_of_get? ho)
  have htop : m₁.registers.context = D₁.top := by
    rw [hsupply.registers, h.context, hnarrows.top]
  have hrole : T.role m₂.registers.context = .context := by
    rw [hregisters, htop]
    exact h₁.role_top
  rw [hregisters] at hsp
  have h₂ := h₁.framed frame.toArray header.tempCount l ho
    (by
      simp only [Context.receiver] at hsize
      omega) hnil (.inr (.inl rfl)) fun x hx => by
        obtain ⟨depth, hlt, hle, hx⟩ := hvalues x (List.mem_toArray.1 hx)
        refine ⟨h₁.open_of_cell hx (by simp only [Context.sender]; omega), ?_⟩
        rintro rfl
        exact l.unheld _ _ hx
  rw [← htop, ← h₁.nil, ← hm₂] at h₂
  have h₃ := hkeeps _ _ h₂ hrole l.role
  have hframes := D₁.setLine_self .frames (v :: D₁.line .frames)
  have hcontext : v = (D₁.setLine .frames (v :: D₁.line .frames)).top := by
    rw [Deal.top, hframes]
    rfl
  have hstrung := h₃.strung .frames
  rw [hframes] at hstrung
  refine ⟨_, h₃.recount (fun y hy => .inl (.inl hy)) fun y hy => .inl (by rwa [hr] at hy), ?_, ?_, ?_⟩
  · constructor
    · rw [hr]
      exact hcontext
    · rw [hr]
      exact .inl hcontext
    · rw [hr]
      exact ⟨_, hstrung.1⟩
    · rw [hr]
      refine h₃.heard receiver (.inr (.inr ⟨?_, rfl⟩))
      rwa [hsupply.registers] at hsp
  · have hspare := Deal.spare_of_cons hframes rfl rfl
    have hshown : v ∉ (D₁.setLine .frames (v :: D₁.line .frames)).shown := l.shown
    rw [if_neg hshown, hnarrows.spare] at hspare
    have hold := h.spare
    rw [hcount, hreclaimable, hsupply.reclaimable]
    omega
  · intro _
    rw [hr]
    simp only [Context.receiver]
    omega

end Smalltalk.Recycling
