import Mathlib
import Smalltalk.Proofs.Roles

/-!
# Who may be recycled

A method context goes back to the pool when it returns, unless something else may still refer to it.
The machine does not look for such references: it counts the contexts it has activated since one was
last handed out, and takes that many off the sender chain. This is right as long as those contexts
are private. A private context is referred to by the context above it only, through the sender field;
and so is each context of the pool, by the one before it.

A deal says which contexts are meant: the frames on top of the sender chain, and the contexts that
wait in the pool. A context that is put on or taken off one of these lines is always its first, and
so both are one lemma each, whichever the line is.
-/

namespace Smalltalk.Recycling

open Outcome Machine

/-! ### Deals -/

/-- Where private contexts stand. -/
inductive Line where
  /-- On top of the sender chain, the active context first. -/
  | frames
  /-- In the pool, on one of its two chains. -/
  | waiting (large : Bool)
  deriving DecidableEq

/-- The contexts that have been activated since one was last handed out, and those that wait in the
pool. -/
structure Deal where
  /-- The context below the frames. -/
  base : Value
  line : Line → List Value
  /-- The blocks that have been entered. Unlike the other frames they are known to others. -/
  shown : List Value
  /-- The contexts that were given up while they waited. -/
  lost : Value → Prop

namespace Deal

variable {D : Deal} {nil v w x : Value} {k : Line} {rest : List Value}

/-- What comes after a line. -/
def last (D : Deal) (nil : Value) : Line → Value
  | .frames => D.base
  | .waiting _ => nil

/-- The first context of a line, or what comes after it. -/
def first (D : Deal) (nil : Value) (k : Line) : Value := (D.line k).head?.getD (D.last nil k)

/-- The active context. -/
def top (D : Deal) : Value := (D.line .frames).head?.getD D.base

/-- Whether a context is out of use, waiting or given up. -/
def Hidden (D : Deal) (x : Value) : Prop := (∃ large, x ∈ D.line (.waiting large)) ∨ D.lost x

/-- Whether nothing may refer to a context but the one before it. -/
def Private (D : Deal) (x : Value) : Prop := (∃ k, x ∈ D.line k) ∧ x ∉ D.shown ∨ D.lost x

/-- Whether `w` may refer to the private context `x`. -/
def Before (D : Deal) (w x : Value) : Prop := (∃ k, [w, x] <:+: D.line k) ∨ D.lost w ∧ D.lost x

/-- How many of the frames may be recycled. -/
def spare (D : Deal) : Nat := (D.line .frames).countP (· ∉ D.shown)

/-- The deal with another line. -/
def setLine (D : Deal) (k : Line) (xs : List Value) : Deal :=
  { D with line := Function.update D.line k xs }

/-- The deal after a context was handed out. -/
def release (D : Deal) : Deal := { D.setLine .frames [] with base := D.top }

/-- The deal after the pool was given up. -/
def forget (D : Deal) : Deal :=
  { D with
    line := fun
      | .frames => D.line .frames
      | .waiting _ => []
    lost := D.Hidden }

@[simp] theorem setLine_self (D : Deal) (k : Line) (xs : List Value) :
    (D.setLine k xs).line k = xs := Function.update_self ..

theorem setLine_of_ne (D : Deal) {l : Line} (h : l ≠ k) (xs : List Value) :
    (D.setLine k xs).line l = D.line l := Function.update_of_ne h ..

/-- What holds of the new line and of the others holds of each line. -/
theorem forall_setLine {P : Line → List Value → Prop} {xs : List Value} (hxs : P k xs)
    (hline : ∀ l, l ≠ k → P l (D.line l)) (l : Line) : P l ((D.setLine k xs).line l) := by
  by_cases hl : l = k
  · rw [hl, setLine_self]
    exact hxs
  · rw [D.setLine_of_ne hl]
    exact hline l hl

/-! A context is put in front of a line. -/

theorem mem_setLine_cons {l : Line} :
    x ∈ (D.setLine k (v :: D.line k)).line l ↔ (x = v ∧ l = k) ∨ x ∈ D.line l := by
  by_cases hl : l = k
  · subst hl
    simp
  · rw [D.setLine_of_ne hl]
    simp [hl]

theorem pair_setLine_cons {l : Line} (h : [w, x] <:+: D.line l) :
    [w, x] <:+: (D.setLine k (v :: D.line k)).line l :=
  forall_setLine (P := fun l xs => [w, x] <:+: D.line l → [w, x] <:+: xs)
    (fun h => pair_cons.2 (.inr h)) (fun _ _ => id) l h

theorem nodup_setLine_cons (hv : ∀ l, v ∉ D.line l) (h : ∀ l, (D.line l).Nodup) (l : Line) :
    ((D.setLine k (v :: D.line k)).line l).Nodup :=
  forall_setLine (P := fun _ xs => xs.Nodup) (List.nodup_cons.2 ⟨hv k, h k⟩) (fun l _ => h l) l

theorem strung_setLine_cons {c : Cells} (hv : c v Context.sender = some (D.first nil k))
    (h : ∀ l, Strung c (D.last nil l) (D.line l)) (l : Line) :
    Strung c (D.last nil l) ((D.setLine k (v :: D.line k)).line l) := by
  refine forall_setLine (P := fun l xs => Strung c (D.last nil l) xs) ?_ (fun l _ => h l) l
  exact ⟨hv, h k⟩

/-! A line loses its first context. -/

section
variable (hk : D.line k = v :: rest)
include hk

theorem mem_setLine_rest {l : Line} (hl : k = l → x ≠ v) :
    x ∈ (D.setLine k rest).line l ↔ x ∈ D.line l := by
  by_cases hlk : l = k
  · rw [hlk, setLine_self, hk, List.mem_cons]
    exact (or_iff_right (hl hlk.symm)).symm
  · rw [D.setLine_of_ne hlk]

theorem pair_setLine_rest {l : Line} (hw : w ≠ v) (h : [w, x] <:+: D.line l) :
    [w, x] <:+: (D.setLine k rest).line l := by
  refine forall_setLine (P := fun l xs => [w, x] <:+: D.line l → [w, x] <:+: xs) (fun h => ?_)
    (fun _ _ => id) l h
  rw [hk] at h
  exact (pair_cons.1 h).resolve_left fun e => hw e.1

theorem nodup_setLine_rest (h : ∀ l, (D.line l).Nodup) (l : Line) :
    ((D.setLine k rest).line l).Nodup :=
  forall_setLine (P := fun _ xs => xs.Nodup) (List.nodup_cons.1 (hk ▸ h k)).2 (fun l _ => h l) l

theorem strung_setLine_rest {c : Cells} (h : ∀ l, Strung c (D.last nil l) (D.line l)) (l : Line) :
    Strung c (D.last nil l) ((D.setLine k rest).line l) := by
  have hstrung := h k
  rw [hk] at hstrung
  exact forall_setLine (P := fun l xs => Strung c (D.last nil l) xs) hstrung.2 (fun l _ => h l) l

/-- No context is private that was not before. -/
theorem private_of_setLine_rest (h : (D.setLine k rest).Private x) : D.Private x := by
  refine h.imp_left fun ⟨⟨l, hx⟩, hs⟩ => ⟨⟨l, ?_⟩, hs⟩
  refine forall_setLine (P := fun l xs => x ∈ xs → x ∈ D.line l) (fun hx => ?_) (fun _ _ => id) l hx
  exact hk ▸ List.mem_cons_of_mem v hx

end

@[simp] theorem release_frames (D : Deal) : D.release.line .frames = [] := D.setLine_self .frames []

@[simp] theorem release_waiting (D : Deal) (large : Bool) :
    D.release.line (.waiting large) = D.line (.waiting large) :=
  D.setLine_of_ne (k := .frames) (l := .waiting large) (by simp) []

@[simp] theorem release_top (D : Deal) : D.release.top = D.top := by
  rw [top, release_frames]
  rfl

theorem mem_release (h : x ∈ D.release.line k) : x ∈ D.line k ∧ k ≠ .frames := by
  cases k with
  | frames => simp at h
  | waiting large => exact ⟨by simpa using h, by simp⟩

theorem private_of_release (h : D.release.Private x) : D.Private x :=
  h.imp_left fun ⟨⟨k, hx⟩, hs⟩ => ⟨⟨k, (mem_release hx).1⟩, hs⟩

theorem private_of_forget (hwaiting : ∀ large x, x ∈ D.line (.waiting large) → x ∉ D.shown)
    (h : D.forget.Private x) : D.Private x := by
  rcases h with ⟨⟨k, hx⟩, hs⟩ | ⟨large, hx⟩ | hx
  · cases k with
    | frames => exact .inl ⟨⟨.frames, hx⟩, hs⟩
    | waiting large => exact absurd hx List.not_mem_nil
  · exact .inl ⟨⟨.waiting large, hx⟩, hwaiting large x hx⟩
  · exact .inr hx

/-- A frame counts unless it is a block. -/
theorem spare_of_cons {D' : Deal} (h : D.line .frames = v :: rest) (h' : D'.line .frames = rest)
    (hshown : D'.shown = D.shown) : D.spare = D'.spare + if v ∈ D.shown then 0 else 1 := by
  rw [spare, h, List.countP_cons, spare, h', hshown]
  by_cases hv : v ∈ D.shown <;> simp [hv]

/-- The second deal has the same frames, and no context is private in it only. -/
structure Narrows (D D' : Deal) : Prop where
  base : D'.base = D.base
  frames : D'.line .frames = D.line .frames
  shown : D'.shown = D.shown
  hides : ∀ x, D'.Private x → D.Private x

namespace Narrows

variable {D' D'' : Deal}

theorem refl (D : Deal) : Narrows D D := ⟨rfl, rfl, rfl, fun _ => id⟩

theorem trans (h : Narrows D D') (h' : Narrows D' D'') : Narrows D D'' :=
  ⟨h'.base.trans h.base, h'.frames.trans h.frames, h'.shown.trans h.shown,
    fun x hx => h.hides x (h'.hides x hx)⟩

theorem top (h : Narrows D D') : D'.top = D.top := by rw [Deal.top, Deal.top, h.frames, h.base]

theorem spare (h : Narrows D D') : D'.spare = D.spare := by
  rw [Deal.spare, Deal.spare, h.frames, h.shown]

end Narrows

end Deal

/-! ### Sealed machines -/

/-- What has been noticed about contexts. -/
structure Ledger where
  /-- Contexts and other values that somebody has got hold of. -/
  known : Value → Prop
  /-- Contexts that have returned and have not been entered again. -/
  returned : Value → Prop

namespace Ledger

def know (L : Ledger) (xs : List Value) : Ledger :=
  { L with known := fun y => L.known y ∨ y ∈ xs }

def enter (L : Ledger) (x : Value) : Ledger :=
  { L with returned := fun y => L.returned y ∧ y ≠ x }

def leave (L : Ledger) (path : List Value) : Ledger :=
  { L with returned := fun y => L.returned y ∨ y ∈ path }

end Ledger

/-- Whether a value may be known to anybody. -/
def Open (D : Deal) (m : Machine) (x : Value) : Prop := m.memory.Issued x ∧ ¬ D.Private x

/-- Whether a context has returned: nothing is left of its sender, or it is out of use. -/
def Retired (T : Roles) (D : Deal) (m : Machine) (x : Value) : Prop :=
  D.Hidden x ∨ Open D m x ∧ T.role x = .context ∧
    ∀ y, m.memory.cell x Context.sender = some y → y = T.nil

/-- A machine that keeps to a deal and to what has been noticed. -/
structure Sealed (T : Roles) (L : Ledger) (D : Deal) (m : Machine) : Prop extends Typed T m where
  guarded : ∀ w i x, m.memory.cell w i = some x → D.Private x → i = Context.sender ∧ D.Before w x
  strung : ∀ k, Strung m.memory.cell (D.last T.nil k) (D.line k)
  once : ∀ k, (D.line k).Nodup
  apart : ∀ {k l x}, x ∈ D.line k → x ∈ D.line l → k = l
  role : ∀ k x, x ∈ D.line k → T.role x = .context
  base : Open D m D.base ∧ T.role D.base = .context
  shown : ∀ x ∈ D.shown, m.memory.Issued x ∧
    ∀ ps, m.memory.shape x = some (T.methodClass, ps) → ps = #[]
  waiting : ∀ large x, x ∈ D.line (.waiting large) → x ∉ D.shown
  lost : ∀ x, D.lost x → m.memory.Issued x ∧ T.role x = .context ∧ ∀ k, x ∉ D.line k
  head : ∀ large, m.pool.head large = (D.line (.waiting large)).head?
  heard : ∀ x, L.known x → Open D m x
  gone : ∀ x, L.returned x → Retired T D m x

variable {T : Roles} {L L' : Ledger} {D D' : Deal} {m m' : Machine} {v w x y c : Value} {i : Nat}
  {k : Line} {rest : List Value}

namespace Sealed

theorem role_private (h : Sealed T L D m) (hx : D.Private x) : T.role x = .context := by
  rcases hx with ⟨⟨k, hx⟩, -⟩ | hx
  · exact h.role k x hx
  · exact (h.lost x hx).2.1

/-- What is not a context is not private. -/
theorem not_private (h : Sealed T L D m) (hx : T.role x ≠ .context) : ¬ D.Private x := fun hp =>
  hx (h.role_private hp)

theorem open_of_role (h : Sealed T L D m) (hx : T.role x ≠ .context) : Open D m x :=
  ⟨h.known x hx, h.not_private hx⟩

theorem open_nil (h : Sealed T L D m) : Open D m T.nil := h.open_of_role (by rw [T.nil_role]; decide)

theorem open_small (h : Sealed T L D m) (n : Int) : Open D m (.small n) :=
  h.open_of_role (by rw [T.small_role]; decide)

theorem issued_of_mem (h : Sealed T L D m) (hx : x ∈ D.line k) : m.memory.Issued x :=
  Memory.issued_of_isLive ((h.strung k).isLive hx)

theorem private_of_hidden (h : Sealed T L D m) (hx : D.Hidden x) : D.Private x := by
  rcases hx with ⟨large, hx⟩ | hx
  · exact .inl ⟨⟨_, hx⟩, h.waiting large x hx⟩
  · exact .inr hx

/-- A context of a line is out of use only if it waits. -/
theorem not_hidden_of_frame (h : Sealed T L D m) (hx : x ∈ D.line .frames) : ¬ D.Hidden x := by
  rintro (⟨large, hx'⟩ | hx')
  · exact absurd (h.apart hx hx') (by simp)
  · exact (h.lost x hx').2.2 _ hx

theorem top_cases (D : Deal) : (D.line .frames = [] ∧ D.top = D.base) ∨
    ∃ rest, D.line .frames = D.top :: rest := by
  rw [Deal.top]
  cases D.line .frames with
  | nil => exact .inl ⟨rfl, rfl⟩
  | cons c rest => exact .inr ⟨rest, rfl⟩

theorem role_top (h : Sealed T L D m) : T.role D.top = .context := by
  rcases top_cases D with ⟨-, htop⟩ | ⟨rest, hf⟩
  · rw [htop]
    exact h.base.2
  · exact h.role .frames _ (by rw [hf]; exact List.mem_cons_self)

theorem issued_top (h : Sealed T L D m) : m.memory.Issued D.top := by
  rcases top_cases D with ⟨-, htop⟩ | ⟨rest, hf⟩
  · rw [htop]
    exact h.base.1.1
  · exact h.issued_of_mem (k := .frames) (by rw [hf]; exact List.mem_cons_self)

theorem not_hidden_top (h : Sealed T L D m) : ¬ D.Hidden D.top := by
  rcases top_cases D with ⟨-, htop⟩ | ⟨rest, hf⟩
  · rw [htop]
    exact fun hx => h.base.1.2 (h.private_of_hidden hx)
  · exact h.not_hidden_of_frame (by rw [hf]; exact List.mem_cons_self)

/-- Only the sender field may hold something private. -/
theorem open_of_cell (h : Sealed T L D m) (hx : m.memory.cell w i = some x)
    (hi : i ≠ Context.sender) : Open D m x :=
  ⟨h.issued w i x hx, fun hp => hi (h.guarded w i x hx hp).1⟩

/-- Without frames the active context holds nothing private. -/
theorem open_of_top (h : Sealed T L D m) (hf : D.line .frames ≠ [] → i ≠ Context.sender)
    (hx : m.memory.cell D.top i = some x) : Open D m x := by
  rcases top_cases D with ⟨hframes, htop⟩ | ⟨rest, hframes⟩
  · refine ⟨h.issued _ i x hx, fun hp => ?_⟩
    rcases (h.guarded _ i x hx hp).2 with ⟨k, hpair⟩ | ⟨hlost, -⟩
    · have hmem := (mem_of_pair hpair).1
      cases k with
      | frames => simp [hframes] at hmem
      | waiting large => exact h.not_hidden_top (.inl ⟨large, hmem⟩)
    · exact h.not_hidden_top (.inr hlost)
  · exact h.open_of_cell hx (hf (by simp [hframes]))

/-- Whatever refers to a hidden context is hidden itself. -/
theorem hidden_of_cell (h : Sealed T L D m) (hx : m.memory.cell w i = some x) (hp : D.Hidden x) :
    i = Context.sender ∧ D.Hidden w := by
  obtain ⟨hi, hbefore⟩ := h.guarded w i x hx (h.private_of_hidden hp)
  refine ⟨hi, ?_⟩
  rcases hbefore with ⟨k, hpair⟩ | ⟨hlost, -⟩
  · obtain ⟨hw, hmem⟩ := mem_of_pair hpair
    cases k with
    | frames => exact absurd hp (h.not_hidden_of_frame hmem)
    | waiting large => exact .inl ⟨large, hw⟩
  · exact .inr hlost

/-- Nothing refers to the first context of a line while it is private. -/
theorem unheld_first (h : Sealed T L D m) (hk : D.line k = v :: rest) (hv : v ∉ D.shown)
    (w : Value) (i : Nat) : m.memory.cell w i ≠ some v := by
  intro hcell
  have hmem : v ∈ D.line k := by rw [hk]; exact List.mem_cons_self
  rcases (h.guarded w i v hcell (.inl ⟨⟨k, hmem⟩, hv⟩)).2 with ⟨l, hpair⟩ | ⟨-, hlost⟩
  · obtain rfl := h.apart (mem_of_pair hpair).2 hmem
    rw [hk] at hpair
    exact not_pair_head (hk ▸ h.once l) hpair
  · exact (h.lost v hlost).2.2 k hmem

/-! ### Changes that show nowhere -/

/-- The machine may change in what is neither objects nor pool. -/
theorem congr (h : Sealed T L D m) (slots : m'.memory.slots = m.memory.slots)
    (free : m'.memory.free = m.memory.free) (specials : m'.specials = m.specials)
    (pool : m'.pool.head = m.pool.head) : Sealed T L D m' := by
  have hget := Memory.get?_congr slots
  have hcell : m'.memory.cell = m.memory.cell := by
    funext w i
    rw [Memory.cell, Memory.cell, hget]
  have hshape : m'.memory.shape = m.memory.shape := by
    funext w
    rw [Memory.shape, Memory.shape, hget]
  have hissued : m'.memory.Issued = m.memory.Issued := by
    funext w
    cases w with
    | small n => rfl
    | ref index generation => rw [Memory.Issued, Memory.Issued, slots]
  have hspecial : ∀ i, m'.specials.get m'.memory i = m.specials.get m.memory i := fun i => by
    rw [special_eq, special_eq, hcell, specials]
  exact {
    nil := by rw [specials]; exact h.nil
    array := by rw [specials]; exact h.array
    truth := by rw [specials]; exact h.truth
    methodClass := by rw [hspecial]; exact h.methodClass
    blockClass := by rw [hspecial]; exact h.blockClass
    stocked := h.stocked.of_slots slots free
    bare := by rw [hcell]; exact h.bare
    fits := by rw [hcell]; exact h.fits
    issued := by rw [hcell, hissued]; exact h.issued
    known := by rw [hissued]; exact h.known
    block := by rw [hshape]; exact h.block
    guarded := by rw [hcell]; exact h.guarded
    strung := by rw [hcell]; exact h.strung
    once := h.once
    apart := h.apart
    role := h.role
    base := by rw [Open, hissued]; exact h.base
    shown := by rw [hissued, hshape]; exact h.shown
    waiting := h.waiting
    lost := by rw [hissued]; exact h.lost
    head := by rw [pool]; exact h.head
    heard := by simp only [Open, hissued]; exact h.heard
    gone := by simp only [Retired, Open, hissued, hcell]; exact h.gone }

/-- Less may be noticed, and what is known to be so. -/
theorem recount (h : Sealed T L D m) (heard : ∀ x, L'.known x → L.known x ∨ Open D m x)
    (gone : ∀ x, L'.returned x → L.returned x ∨ Retired T D m x) : Sealed T L' D m :=
  { h with
    heard := fun x hx => (heard x hx).elim (h.heard x) id
    gone := fun x hx => (gone x hx).elim (h.gone x) id }

theorem know {xs : List Value} (h : Sealed T L D m) (hxs : ∀ x ∈ xs, Open D m x) :
    Sealed T (L.know xs) D m :=
  h.recount (fun y hy => hy.imp_right (hxs y)) fun _ => .inl

/-- Handing the active context out gives up the frames. -/
theorem release (h : Sealed T L D m) : Sealed T L D.release m := by
  have hhidden : ∀ {x}, D.Hidden x → D.release.Hidden x := fun hx =>
    hx.imp_left fun ⟨large, hx⟩ => ⟨large, by simpa using hx⟩
  have hopen : ∀ {x}, Open D m x → Open D.release m x := fun hx =>
    ⟨hx.1, fun hp => hx.2 (Deal.private_of_release hp)⟩
  have htop : ¬ D.release.Private D.top := by
    rintro (⟨⟨k, hx⟩, -⟩ | hx)
    · obtain ⟨hx, hk⟩ := Deal.mem_release hx
      cases k with
      | frames => exact hk rfl
      | waiting large => exact h.not_hidden_top (.inl ⟨large, hx⟩)
    · exact h.not_hidden_top (.inr hx)
  refine { h with
    guarded := fun w i x hx hp => ?_
    strung := fun k => ?_
    once := fun k => ?_
    apart := fun hx hx' => h.apart (Deal.mem_release hx).1 (Deal.mem_release hx').1
    role := fun k x hx => h.role k x (Deal.mem_release hx).1
    base := ⟨⟨h.issued_top, htop⟩, h.role_top⟩
    waiting := fun large x hx => h.waiting large x (by simpa using hx)
    lost := fun x hx => ⟨(h.lost x hx).1, (h.lost x hx).2.1, fun k hk =>
      (h.lost x hx).2.2 k (Deal.mem_release hk).1⟩
    head := fun large => by rw [Deal.release_waiting]; exact h.head large
    heard := fun x hx => hopen (h.heard x hx)
    gone := fun x hx => (h.gone x hx).imp hhidden fun hx => ⟨hopen hx.1, hx.2⟩ }
  · obtain ⟨hi, hbefore⟩ := h.guarded w i x hx (Deal.private_of_release hp)
    refine ⟨hi, hbefore.imp_left fun ⟨k, hpair⟩ => ⟨k, ?_⟩⟩
    cases k with
    | frames =>
      have hmem := (mem_of_pair hpair).2
      rcases hp with ⟨⟨l, hl⟩, -⟩ | hp
      · obtain ⟨hl, hne⟩ := Deal.mem_release hl
        exact absurd (h.apart hl hmem) hne
      · exact absurd hmem ((h.lost x hp).2.2 _)
    | waiting large => rwa [Deal.release_waiting]
  · cases k with
    | frames => rw [Deal.release_frames]; trivial
    | waiting large => rw [Deal.release_waiting]; exact h.strung (.waiting large)
  · cases k with
    | frames => rw [Deal.release_frames]; exact List.nodup_nil
    | waiting large => rw [Deal.release_waiting]; exact h.once (.waiting large)

/-- Without frames any context that is known may be the one below them. -/
theorem rebase (h : Sealed T L D m) (hf : D.line .frames = []) (hc : Open D m c)
    (hrole : T.role c = .context) : Sealed T L { D with base := c } m :=
  { h with
    strung := fun k => by
      cases k with
      | frames => rw [hf]; trivial
      | waiting large => exact h.strung (.waiting large)
    base := ⟨hc, hrole⟩ }

/-- The contexts of the pool may be given up. -/
theorem forget (h : Sealed T L D m) (hpool : ∀ large, m'.pool.head large = none)
    (hm : m' = { m with pool := m'.pool }) : Sealed T L D.forget m' := by
  have hopen : ∀ {x}, Open D m x → Open D.forget m x := fun hx =>
    ⟨hx.1, fun hp => hx.2 (Deal.private_of_forget h.waiting hp)⟩
  have hmem : ∀ {k x}, x ∈ D.forget.line k → k = .frames ∧ x ∈ D.line k := by
    intro k x hx
    cases k with
    | frames => exact ⟨rfl, hx⟩
    | waiting large => exact absurd hx List.not_mem_nil
  rw [hm]
  refine { h with
    guarded := fun w i x hx hp => ?_
    strung := fun k => ?_
    once := fun k => ?_
    apart := fun hx hx' => h.apart (hmem hx).2 (hmem hx').2
    role := fun k x hx => h.role k x (hmem hx).2
    base := ⟨hopen h.base.1, h.base.2⟩
    waiting := fun large x hx => absurd hx List.not_mem_nil
    lost := fun x hx => ?_
    head := hpool
    heard := fun x hx => hopen (h.heard x hx)
    gone := fun x hx => (h.gone x hx).imp .inr fun hx => ⟨hopen hx.1, hx.2⟩ }
  · obtain ⟨hi, hbefore⟩ := h.guarded w i x hx (Deal.private_of_forget h.waiting hp)
    refine ⟨hi, ?_⟩
    rcases hbefore with ⟨k, hpair⟩ | ⟨hw, hx⟩
    · cases k with
      | frames => exact .inl ⟨.frames, hpair⟩
      | waiting large =>
        obtain ⟨hw, hx⟩ := mem_of_pair hpair
        exact .inr ⟨.inl ⟨large, hw⟩, .inl ⟨large, hx⟩⟩
    · exact .inr ⟨.inr hw, .inr hx⟩
  · cases k with
    | frames => exact h.strung .frames
    | waiting large => trivial
  · cases k with
    | frames => exact h.once .frames
    | waiting large => exact List.nodup_nil
  · rcases hx with ⟨large, hx⟩ | hx
    · refine ⟨h.issued_of_mem hx, h.role _ x hx, fun k hk => ?_⟩
      obtain ⟨rfl, hk⟩ := hmem hk
      exact absurd (h.apart hx hk) (by simp)
    · obtain ⟨hissued, hrole, hout⟩ := h.lost x hx
      exact ⟨hissued, hrole, fun k hk => hout k (hmem hk).2⟩

/-! ### Stores -/

/-- A store of what may be known. The sender of a context stays as it is as long as the context is in
use. -/
theorem setCell (h : Sealed T L D m) (hnil : v ≠ T.nil) (harray : T.role v ≠ .array)
    (hfits : T.Fits v i x) (hx : Open D m x)
    (hsender : T.role v = .context → i = Context.sender →
      (∀ k, v ∉ D.line k) ∧ (L.returned v → x = T.nil)) : Sealed T L D (m.setCell v i x) := by
  have a := Alters.setCell m v i x
  have hopen : ∀ {z}, Open D m z → Open D (m.setCell v i x) z := fun hz =>
    ⟨a.later.issued hz.1, hz.2⟩
  refine { h with
    toTyped := h.toTyped.setCell hnil harray hfits hx.1
    guarded := fun w j z hz hpz => ?_
    strung := fun k => (h.strung k).congr fun p hp => ?_
    base := ⟨hopen h.base.1, h.base.2⟩
    shown := fun z hz => ⟨a.later.issued (h.shown z hz).1, fun ps hs => ?_⟩
    lost := fun z hz => ⟨a.later.issued (h.lost z hz).1, (h.lost z hz).2⟩
    heard := fun z hz => hopen (h.heard z hz)
    gone := fun z hz => ?_ }
  · rw [cell_setCell] at hz
    split at hz
    · obtain ⟨_, -, rfl⟩ := Option.map_eq_some_iff.1 hz
      exact absurd hpz hx.2
    · exact h.guarded w j z hz hpz
  · rw [cell_setCell, if_neg]
    rintro ⟨rfl, he⟩
    exact (hsender (h.role k p hp) he.symm).1 k hp
  · obtain ⟨qs, hqs, he⟩ := shape_setCell hs
    exact he.2 ((h.shown z hz).2 qs hqs)
  · refine (h.gone z hz).imp_right fun ⟨hopened, hrole, hcell⟩ => ⟨hopen hopened, hrole, fun y hy => ?_⟩
    rw [cell_setCell] at hy
    split at hy
    · rename_i hw
      obtain ⟨rfl, he⟩ := hw
      obtain ⟨_, -, rfl⟩ := Option.map_eq_some_iff.1 hy
      exact (hsender hrole he.symm).2 hz
    · exact hcell y hy

/-- A store into a field of a context that is not its sender. -/
theorem setCell_context (h : Sealed T L D m) (hv : T.role v = .context) (hi : i ≠ Context.sender)
    (hx : Open D m x) : Sealed T L D (m.setCell v i x) :=
  h.setCell (Roles.ne_nil hv) (by rw [hv]; decide) (Roles.fits_context hv fun e => absurd e hi) hx
    fun _ e => absurd e hi

/-! ### Making room -/

theorem spares_kept (h : Sealed T L D m) (hs : Spares m m')
    (htop : m.registers.context = D.top)
    (hhead : ∀ large, m'.pool.head large = (D.line (.waiting large)).head?) :
    Sealed T L D m' := by
  have hopen : ∀ {x}, Open D m x → Open D m' x := fun hx => ⟨hs.later.issued hx.1, hx.2⟩
  -- the lines can be reached from the registers and from the pool
  have hkept : ∀ k, ∀ p ∈ D.line k, m'.memory.shape p = m.memory.shape p := by
    intro k p hp
    refine hs.kept h.stocked p ((h.strung k).reachable (fun c hc => ?_) hp)
    refine .root ?_ ((h.strung k).isLive (List.mem_of_head? hc))
    cases k with
    | frames =>
      have hc' : m.registers.context = c := by rw [htop, Deal.top, hc]; rfl
      rw [← hc']
      exact List.mem_append_left _ (List.mem_append_left _ (List.mem_cons_of_mem _ List.mem_cons_self))
    | waiting large =>
      exact List.mem_append_right _ (mem_roots_of_head ((hhead large).trans hc))
  exact { h with
    toTyped := h.toTyped.spares hs
    guarded := fun w i x hx hp => h.guarded w i x (h.cell_of_spares hs hx) hp
    strung := fun k => (h.strung k).congr fun p hp => Memory.cell_congr (hkept k p hp)
    base := ⟨hopen h.base.1, h.base.2⟩
    shown := fun x hx => ⟨hs.later.issued (h.shown x hx).1, fun ps hshape => by
      rcases hs.shape h.stocked x _ ps hshape with hold | hps
      · exact (h.shown x hx).2 ps hold
      · exact hps⟩
    lost := fun x hx => ⟨hs.later.issued (h.lost x hx).1, (h.lost x hx).2⟩
    head := hhead
    heard := fun x hx => hopen (h.heard x hx)
    gone := fun x hx => (h.gone x hx).imp_right fun ⟨hopened, hrole, hcell⟩ =>
      ⟨hopen hopened, hrole, fun y hy => hcell y (h.cell_of_spares hs hy)⟩ }

/-- Reclaiming objects keeps the frames, and either all waiting contexts or none. -/
theorem spares (h : Sealed T L D m) (hs : Spares m m') (htop : m.registers.context = D.top) :
    ∃ D', D.Narrows D' ∧ Sealed T L D' m' := by
  rcases hs.pool with e | e
  · exact ⟨D, .refl D, h.spares_kept hs htop fun large => by rw [e]; exact h.head large⟩
  · have hempty : ∀ large, m'.pool.head large = none := fun large => by cases large <;> rw [e] <;> rfl
    have hforget : Sealed T L D.forget { m with pool := m'.pool } := h.forget hempty rfl
    refine ⟨D.forget, ⟨rfl, rfl, rfl, fun x hx => Deal.private_of_forget h.waiting hx⟩, ?_⟩
    exact hforget.spares_kept ⟨hs.registers, hs.specials, hs.reclaimable, .inl rfl, hs.pins, hs.later,
      hs.stocked, hs.shape, hs.kept⟩ htop hempty

end Sealed

/-! ### Lines -/

/-- A context that nothing refers to and that stands on no line. -/
structure Loose (T : Roles) (L : Ledger) (D : Deal) (m : Machine) (v : Value) : Prop where
  role : T.role v = .context
  unheld : ∀ w i, m.memory.cell w i ≠ some v
  base : v ≠ D.base
  line : ∀ k, v ∉ D.line k
  lost : ¬ D.lost v
  shown : v ∉ D.shown
  heard : ¬ L.known v

theorem Loose.congr (l : Loose T L D m v) (cell : m'.memory.cell = m.memory.cell)
    (known : L'.known = L.known) : Loose T L' D m' v :=
  ⟨l.role, by rw [cell]; exact l.unheld, l.base, l.line, l.lost, l.shown, by rw [known]; exact l.heard⟩

namespace Sealed

/-- A new object with nil in its fields is loose. -/
theorem placed {o : Object} (h : Sealed T L D m) (hv : v = (m.memory.place o).1)
    (ho : ∀ x ∈ o.pointers, x = T.nil)
    (room : (Action.placed m o).memory.slots.size ≤ 0x100000000)
    (live : (Action.placed m o).memory.isLive v = true) :
    Sealed T L D (Action.placed m o) ∧ Loose T L D (Action.placed m o) v ∧
      (Action.placed m o).memory.get? v = some o := by
  have a : Alters m (Action.placed m o) v := hv ▸ .placed h.stocked o
  have hnew : ¬ m.memory.Issued v := by
    rw [hv]
    exact h.stocked.place_unissued room (hv ▸ live)
  have hne : ∀ {w}, m.memory.Issued w → w ≠ v := fun hw e => hnew (e ▸ hw)
  have hget : (Action.placed m o).memory.get? v = some o := by
    rcases h.stocked.get?_place o v with e | ⟨-, -, e⟩
    · rw [Memory.isLive, Action.placed, e] at live
      exact absurd (Memory.issued_of_isLive live) hnew
    · exact e
  have hcells : ∀ i x, (Action.placed m o).memory.cell v i = some x → x = T.nil := by
    intro i x hx
    rw [Memory.cell, hget] at hx
    exact ho x (Array.mem_of_getElem? hx)
  have hrole : T.role v = .context := by
    by_contra hrole
    exact hnew (h.known v hrole)
  have hopen : ∀ {x}, Open D m x → Open D (Action.placed m o) x := fun hx =>
    ⟨a.later.issued hx.1, hx.2⟩
  have htyped : Typed T (Action.placed m o) := by
    refine h.toTyped.alter_context a hrole fun i x hx => ?_
    rw [hcells i x hx]
    exact ⟨h.issued_nil, fun _ => .inl rfl⟩
  refine ⟨{ h with
    toTyped := htyped
    guarded := fun w i x hx hp => ?_
    strung := fun k => (h.strung k).congr fun p hp => a.cell (hne (h.issued_of_mem hp))
    base := ⟨hopen h.base.1, h.base.2⟩
    shown := fun x hx => ⟨a.later.issued (h.shown x hx).1, fun ps hs => ?_⟩
    lost := fun x hx => ⟨a.later.issued (h.lost x hx).1, (h.lost x hx).2⟩
    heard := fun x hx => hopen (h.heard x hx)
    gone := fun x hx => (h.gone x hx).imp_right fun hgone =>
      ⟨hopen hgone.1, hgone.2.1, fun y hy => ?_⟩ },
    ⟨hrole, fun w i hx => ?_, fun e => hne h.base.1.1 e.symm, fun k hx => hne (h.issued_of_mem hx) rfl,
      fun hx => hne (h.lost v hx).1 rfl, fun hx => hne (h.shown v hx).1 rfl,
      fun hx => hne (h.heard v hx).1 rfl⟩, hget⟩
  · by_cases hw : w = v
    · subst hw
      rw [hcells i x hx] at hp
      exact absurd hp h.open_nil.2
    · rw [a.cell hw] at hx
      exact h.guarded w i x hx hp
  · rw [a.other x (hne (h.shown x hx).1)] at hs
    exact (h.shown x hx).2 ps hs
  · rw [a.cell (hne hgone.1.1)] at hy
    exact hgone.2.2 y hy
  · by_cases hw : w = v
    · rw [hw] at hx
      exact Roles.ne_nil hrole (hcells i v hx)
    · rw [a.cell hw] at hx
      exact hnew (h.issued w i v hx)

section
variable (h : Sealed T L D m) (hk : D.line k = v :: rest)
include h hk

theorem mem_of_rest {l : Line} (hx : x ∈ (D.setLine k rest).line l) : x ∈ D.line l ∧ x ≠ v := by
  have hv : v ∈ D.line k := by rw [hk]; exact List.mem_cons_self
  refine Deal.forall_setLine (P := fun l xs => x ∈ xs → x ∈ D.line l ∧ x ≠ v) (fun hx => ?_)
    (fun l hl hx => ⟨hx, ?_⟩) l hx
  · refine ⟨hk ▸ List.mem_cons_of_mem v hx, ?_⟩
    rintro rfl
    exact (List.nodup_cons.1 (hk ▸ h.once k)).1 hx
  · rintro rfl
    exact hl (h.apart hx hv)

theorem not_lost_first : ¬ D.lost v := fun hx =>
  (h.lost v hx).2.2 k (by rw [hk]; exact List.mem_cons_self)

theorem role_first : T.role v = .context := h.role k v (by rw [hk]; exact List.mem_cons_self)

theorem not_private_rest : ¬ (D.setLine k rest).Private v := by
  rintro (⟨⟨l, hx⟩, -⟩ | hx)
  · exact (h.mem_of_rest hk hx).2 rfl
  · exact h.not_lost_first hk hx

omit h in
theorem open_rest (later : m.memory.Later m'.memory) (hx : Open D m x) :
    Open (D.setLine k rest) m' x :=
  ⟨later.issued hx.1, fun hp => hx.2 (Deal.private_of_setLine_rest hk hp)⟩

/-! The first context is cut off from its sender, and otherwise nothing new is stored into it. -/

variable (a : Alters m m' v)
  (hsender : ∀ y, m'.memory.cell v Context.sender = some y → y = T.nil)
  (hcells : ∀ i x, i ≠ Context.sender → m'.memory.cell v i = some x →
    x = T.nil ∨ m.memory.cell v i = some x)

include a hsender

theorem retired_first : Retired T (D.setLine k rest) m' v := by
  have hv : v ∈ D.line k := by rw [hk]; exact List.mem_cons_self
  exact .inr ⟨⟨a.later.issued (h.issued_of_mem hv), h.not_private_rest hk⟩, h.role_first hk, hsender⟩

theorem gone_rest (hx : L.returned x) : Retired T (D.setLine k rest) m' x := by
  by_cases hxv : x = v
  · rw [hxv]
    exact h.retired_first hk a hsender
  · refine (h.gone x hx).imp (fun hhidden => ?_) fun ⟨hopened, hctx, hcell⟩ =>
      ⟨open_rest hk a.later hopened, hctx, fun y hy => hcell y (by rwa [a.cell hxv] at hy)⟩
    exact hhidden.imp_left fun ⟨large, hx⟩ =>
      ⟨large, (Deal.mem_setLine_rest hk fun _ => hxv).2 hx⟩

include hcells

omit h hk a in
/-- What is in a field of the context is nil or was there before. -/
theorem cell_first (hx : m'.memory.cell v i = some x) :
    x = T.nil ∨ i ≠ Context.sender ∧ m.memory.cell v i = some x := by
  by_cases hi : i = Context.sender
  · exact .inl (hsender x (hi ▸ hx))
  · exact (hcells i x hi hx).imp_right fun hx => ⟨hi, hx⟩

theorem unheld_rest (hs : v ∉ D.shown) (w : Value) (i : Nat) : m'.memory.cell w i ≠ some v := by
  intro hx
  by_cases hw : w = v
  · rw [hw] at hx
    rcases cell_first hsender hcells hx with e | ⟨-, hx⟩
    · exact Roles.ne_nil (h.role_first hk) e
    · exact h.unheld_first hk hs v i hx
  · rw [a.cell hw] at hx
    exact h.unheld_first hk hs w i hx

theorem loose_first (hs : v ∉ D.shown) : Loose T L (D.setLine k rest) m' v := by
  have hprivate : D.Private v := .inl ⟨⟨k, by rw [hk]; exact List.mem_cons_self⟩, hs⟩
  refine ⟨h.role_first hk, h.unheld_rest hk a hsender hcells hs, ?_, fun l hx =>
    (h.mem_of_rest hk hx).2 rfl, h.not_lost_first hk, hs, fun hx => (h.heard v hx).2 hprivate⟩
  rintro rfl
  exact h.base.1.2 hprivate

theorem typed_rest : Typed T m' := by
  refine h.toTyped.alter_context a (h.role_first hk) fun i x hx => ?_
  rcases cell_first hsender hcells hx with rfl | ⟨hi, hx⟩
  · exact ⟨h.issued_nil, fun _ => .inl rfl⟩
  · exact ⟨h.issued v i x hx, fun e => absurd e hi⟩

theorem guarded_rest (hx : m'.memory.cell w i = some x) (hp : (D.setLine k rest).Private x) :
    i = Context.sender ∧ (D.setLine k rest).Before w x := by
  have hold := Deal.private_of_setLine_rest hk hp
  by_cases hw : w = v
  · subst hw
    rcases cell_first hsender hcells hx with rfl | ⟨hi, hx⟩
    · exact absurd hold h.open_nil.2
    · exact absurd (h.guarded w i x hx hold).1 hi
  · rw [a.cell hw] at hx
    obtain ⟨hi, hbefore⟩ := h.guarded w i x hx hold
    exact ⟨hi, hbefore.imp_left fun ⟨l, hpair⟩ => ⟨l, Deal.pair_setLine_rest hk hw hpair⟩⟩

/-- The first context of a line may be taken off it once it is cut off from its sender. -/
theorem unhook
    (hshown : v ∈ D.shown → ∀ ps, m'.memory.shape v = some (T.methodClass, ps) → ps = #[])
    (hhead : ∀ large, m'.pool.head large = ((D.setLine k rest).line (.waiting large)).head?) :
    Sealed T L (D.setLine k rest) m' ∧ (∀ l, v ∉ (D.setLine k rest).line l) ∧
      (v ∉ D.shown → Loose T L (D.setLine k rest) m' v) ∧
      Retired T (D.setLine k rest) m' v := by
  have hmem {x : Value} {l : Line} (hx : x ∈ (D.setLine k rest).line l) : x ∈ D.line l ∧ x ≠ v :=
    h.mem_of_rest hk hx
  refine ⟨{
    toTyped := h.typed_rest hk a hsender hcells
    guarded := fun _ _ _ => h.guarded_rest hk a hsender hcells
    strung := fun l =>
      (Deal.strung_setLine_rest hk h.strung l).congr fun p hp => a.cell (hmem hp).2
    once := Deal.nodup_setLine_rest hk h.once
    apart := fun hx hx' => h.apart (hmem hx).1 (hmem hx').1
    role := fun l x hx => h.role l x (hmem hx).1
    base := ⟨open_rest hk a.later h.base.1, h.base.2⟩
    shown := fun x hx => ⟨a.later.issued (h.shown x hx).1, fun ps hs => ?_⟩
    waiting := fun large x hx => h.waiting large x (hmem hx).1
    lost := fun x hx => ⟨a.later.issued (h.lost x hx).1, (h.lost x hx).2.1, fun l hl =>
      (h.lost x hx).2.2 l (hmem hl).1⟩
    head := hhead
    heard := fun x hx => open_rest hk a.later (h.heard x hx)
    gone := fun _ => h.gone_rest hk a hsender }, fun l hx => (hmem hx).2 rfl,
    h.loose_first hk a hsender hcells, h.retired_first hk a hsender⟩
  by_cases hxv : x = v
  · subst hxv
    exact hshown hx ps hs
  · rw [a.other x hxv] at hs
    exact (h.shown x hx).2 ps hs

end

/-! A context is linked to the first of a line. -/

theorem first_allowed (h : Sealed T L D m) (k : Line) :
    m.memory.Issued (D.first T.nil k) ∧ T.Allows .context (D.first T.nil k) := by
  rw [Deal.first]
  cases hl : D.line k with
  | nil =>
    cases k with
    | frames => exact ⟨h.base.1.1, .inr h.base.2⟩
    | waiting large => exact ⟨h.issued_nil, .inl rfl⟩
  | cons c rest =>
    have hc : c ∈ D.line k := by rw [hl]; exact List.mem_cons_self
    exact ⟨h.issued_of_mem hc, .inr (h.role k c hc)⟩

/-- What comes after a line is not private. -/
theorem head_of_private_first (h : Sealed T L D m) (hp : D.Private (D.first T.nil k)) :
    (D.line k).head? = some (D.first T.nil k) := by
  rw [Deal.first] at hp ⊢
  cases hl : D.line k with
  | nil =>
    rw [hl] at hp
    cases k with
    | frames => exact absurd hp h.base.1.2
    | waiting large => exact absurd hp h.open_nil.2
  | cons c rest => rfl

theorem first_ne (hrole : T.role v = .context) (hbase : v ≠ D.base) (hline : ∀ l, v ∉ D.line l) :
    D.first T.nil k ≠ v := by
  rw [Deal.first]
  cases hl : D.line k with
  | nil =>
    cases k with
    | frames => exact Ne.symm hbase
    | waiting large => exact Ne.symm (Roles.ne_nil hrole)
  | cons c rest =>
    rintro rfl
    exact hline k (by rw [hl]; exact List.mem_cons_self)

section
variable {S : List Value} (h : Sealed T L D m) (a : Alters m m' v) (hlost : ¬ D.lost v)
  (hsame : ∀ x, x ≠ v → (x ∈ S ↔ x ∈ D.shown))

include hsame in
theorem private_of_cons (hxv : x ≠ v)
    (hx : Deal.Private { D.setLine k (v :: D.line k) with shown := S } x) : D.Private x :=
  hx.imp_left fun ⟨⟨l, hl⟩, hs⟩ => ⟨⟨l, (Deal.mem_setLine_cons.1 hl).resolve_left fun e => hxv e.1⟩,
    fun hx => hs ((hsame x hxv).2 hx)⟩

include hlost in
theorem not_private_cons (hs : v ∈ S) :
    ¬ Deal.Private { D.setLine k (v :: D.line k) with shown := S } v := by
  rintro (⟨-, hn⟩ | hp)
  · exact hn hs
  · exact hlost hp

include a hsame in
theorem open_cons (hxv : x ≠ v) (hx : Open D m x) :
    Open { D.setLine k (v :: D.line k) with shown := S } m' x :=
  ⟨a.later.issued hx.1, fun hp => hx.2 (private_of_cons hsame hxv hp)⟩

variable (hrole : T.role v = .context) (hbase : v ≠ D.base) (hline : ∀ l, v ∉ D.line l)
  (hprivate : v ∉ S → Loose T L D m v)
  (hsender : m'.memory.cell v Context.sender = some (D.first T.nil k))
  (hcells : ∀ i x, i ≠ Context.sender → m'.memory.cell v i = some x → Open D m x ∧ (x = v → v ∈ S))

include h a hrole hsender hcells in
theorem typed_cons : Typed T m' := by
  refine h.toTyped.alter_context a hrole fun i x hx => ?_
  by_cases hi : i = Context.sender
  · subst hi
    obtain rfl := Option.some.inj (hsender.symm.trans hx)
    exact ⟨(h.first_allowed k).1, fun _ => (h.first_allowed k).2⟩
  · exact ⟨(hcells i x hi hx).1.1, fun e => absurd e hi⟩

include h a hlost hsame hrole hbase hline hprivate hsender hcells in
theorem guarded_cons (hx : m'.memory.cell w i = some x)
    (hp : Deal.Private { D.setLine k (v :: D.line k) with shown := S } x) :
    i = Context.sender ∧ Deal.Before { D.setLine k (v :: D.line k) with shown := S } w x := by
  by_cases hw : w = v
  · subst hw
    by_cases hi : i = Context.sender
    · -- the sender is private only if it stands on the line already
      subst hi
      obtain rfl := Option.some.inj (hsender.symm.trans hx)
      have hfirst := h.head_of_private_first
        (private_of_cons hsame (first_ne hrole hbase hline) hp)
      refine ⟨rfl, .inl ⟨k, ?_⟩⟩
      change [w, D.first T.nil k] <:+: (D.setLine k (w :: D.line k)).line k
      rw [Deal.setLine_self, pair_cons]
      exact .inl ⟨rfl, hfirst⟩
    · obtain ⟨hopened, hself⟩ := hcells i x hi hx
      by_cases hxw : x = w
      · subst hxw
        exact absurd hp (not_private_cons hlost (hself rfl))
      · exact absurd (private_of_cons hsame hxw hp) hopened.2
  · rw [a.cell hw] at hx
    have hxv : x ≠ v := by
      rintro rfl
      by_cases hs : x ∈ S
      · exact not_private_cons hlost hs hp
      · exact (hprivate hs).unheld w i hx
    obtain ⟨hi, hbefore⟩ := h.guarded w i x hx (private_of_cons hsame hxv hp)
    exact ⟨hi, hbefore.imp_left fun ⟨l, hpair⟩ => ⟨l, Deal.pair_setLine_cons hpair⟩⟩

include h a hsame in
theorem gone_cons (hx : (L.enter v).returned x) :
    Retired T { D.setLine k (v :: D.line k) with shown := S } m' x := by
  obtain ⟨hx, hxv⟩ := hx
  refine (h.gone x hx).imp (fun hhidden => ?_) fun ⟨hopened, hctx, hcell⟩ =>
    ⟨open_cons a hsame hxv hopened, hctx, fun y hy => hcell y (by rwa [a.cell hxv] at hy)⟩
  exact hhidden.imp_left fun ⟨large, hx⟩ => ⟨large, Deal.mem_setLine_cons.2 (.inr hx)⟩

end

/-- A context may be put in front of a line once its sender is the context there. It is either loose
and becomes private, or it is a block that others know. -/
theorem hook {S : List Value} (h : Sealed T L D m) (a : Alters m m' v)
    (hrole : T.role v = .context) (hbase : v ≠ D.base) (hline : ∀ l, v ∉ D.line l)
    (hlost : ¬ D.lost v) (hsame : ∀ x, x ≠ v → (x ∈ S ↔ x ∈ D.shown))
    (hprivate : v ∉ S → Loose T L D m v)
    (hpublic : v ∈ S → k = .frames ∧ m.memory.Issued v ∧
      ∀ ps, m'.memory.shape v = some (T.methodClass, ps) → ps = #[])
    (hsender : m'.memory.cell v Context.sender = some (D.first T.nil k))
    (hcells : ∀ i x, i ≠ Context.sender → m'.memory.cell v i = some x →
      Open D m x ∧ (x = v → v ∈ S))
    (hhead : ∀ large, m'.pool.head large =
      ((D.setLine k (v :: D.line k)).line (.waiting large)).head?) :
    Sealed T (L.enter v) { D.setLine k (v :: D.line k) with shown := S } m' := by
  have hne {x : Value} {l : Line} (hx : x ∈ D.line l) : x ≠ v := fun e => hline l (e ▸ hx)
  have hshown {x : Value} (hxv : x ≠ v) (hx : x ∈ S) : x ∈ D.shown := (hsame x hxv).1 hx
  refine {
    toTyped := h.typed_cons a hrole hsender hcells
    guarded := fun _ _ _ => h.guarded_cons a hlost hsame hrole hbase hline hprivate hsender hcells
    strung := Deal.strung_setLine_cons hsender fun l => (h.strung l).congr fun _ hp => a.cell (hne hp)
    once := Deal.nodup_setLine_cons hline h.once
    apart := fun {l l' x} hx hx' => ?_
    role := fun l x hx => ?_
    base := ⟨open_cons a hsame (Ne.symm hbase) h.base.1, h.base.2⟩
    shown := fun x hx => ?_
    waiting := fun large x hx hs => ?_
    lost := fun x hx => ?_
    head := hhead
    heard := fun x hx => ?_
    gone := fun _ => h.gone_cons a hsame }
  · rcases Deal.mem_setLine_cons.1 hx with ⟨rfl, rfl⟩ | hx
    · exact ((Deal.mem_setLine_cons.1 hx').resolve_right (hline l')).2.symm
    · exact h.apart hx ((Deal.mem_setLine_cons.1 hx').resolve_left fun e => hne hx e.1)
  · rcases Deal.mem_setLine_cons.1 hx with ⟨rfl, -⟩ | hx
    · exact hrole
    · exact h.role l x hx
  · by_cases hxv : x = v
    · subst hxv
      exact ⟨a.later.issued (hpublic hx).2.1, (hpublic hx).2.2⟩
    · obtain ⟨hissued, hshape⟩ := h.shown x (hshown hxv hx)
      exact ⟨a.later.issued hissued, fun ps hs => hshape ps (by rwa [a.other x hxv] at hs)⟩
  · rcases Deal.mem_setLine_cons.1 hx with ⟨rfl, hl⟩ | hx
    · exact absurd ((hpublic hs).1.symm.trans hl.symm) (by simp)
    · exact h.waiting large x hx (hshown (hne hx) hs)
  · obtain ⟨hissued, hctx, hout⟩ := h.lost x hx
    refine ⟨a.later.issued hissued, hctx, fun l hl => ?_⟩
    rcases Deal.mem_setLine_cons.1 hl with ⟨rfl, -⟩ | hl
    · exact hlost hx
    · exact hout l hl
  · by_cases hxv : x = v
    · subst hxv
      by_cases hs : x ∈ S
      · exact ⟨a.later.issued (h.heard x hx).1, not_private_cons hlost hs⟩
      · exact absurd hx (hprivate hs).heard
    · exact open_cons a hsame hxv (h.heard x hx)

end Sealed

end Smalltalk.Recycling
