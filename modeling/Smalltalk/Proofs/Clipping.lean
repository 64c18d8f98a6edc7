import Smalltalk.Proofs.Tolerance

/-!
# Clipping

A transfer is clipped to a rectangle of its own, which is first cut to the destination form. The two
axes are cut alike, each with 32-bit sums. As long as the far ends of the requested rectangle are 32-bit
integers no other sum leaves them, and what is left are exactly the pixels in the rectangle and in the
form. That is so for all integers that are immediate. But a coordinate may be any number with a 32-bit
integral part: then a far end may be none, and the transfer panics.
-/

namespace Smalltalk

open Outcome

/-! ### The integral part -/

namespace Double

/-- A number between two integers has its integral part between them. -/
theorem truncate_of_isBetween {low high : Int} {bits : UInt64} (h : isBetween low high bits = true) :
    low ≤ truncate bits ∧ truncate bits ≤ high := by
  simp only [isBetween] at h
  split at h
  · rw [Bool.and_eq_true, decide_eq_true_eq, decide_eq_true_eq] at h
    have hscale : (0 : Int) < (1 <<< (-(parts bits).2).toNat : Nat) := by
      rw [Nat.shiftLeft_eq]
      exact_mod_cast Nat.mul_pos Nat.one_pos (Nat.two_pow_pos _)
    have hlow := Int.tdiv_le_tdiv hscale h.1
    have hhigh := Int.tdiv_le_tdiv hscale h.2
    rw [Int.mul_tdiv_cancel _ (Int.ne_of_gt hscale)] at hlow hhigh
    exact ⟨hlow, hhigh⟩
  · cases h

end Double

/-! ### Cutting a rectangle -/

namespace Device

/-- Whether a pixel lies in a rectangle. -/
def Rect.Covers (r : Rect) (x y : Int) : Prop :=
  (r.x ≤ x ∧ x < r.x + r.width) ∧ r.y ≤ y ∧ y < r.y + r.height

/-- Where a rectangle ends on the two axes. -/
def Rect.farEnds (r : Rect) : List Int := [r.x + r.width, r.y + r.height]

/-- The sums and differences that are computed when a rectangle is cut to others bounds. -/
def Rect.sums (r bounds : Rect) : List Int :=
  r.farEnds ++ bounds.farEnds ++
    [min (r.x + r.width) (bounds.x + bounds.width) - max r.x bounds.x,
      min (r.y + r.height) (bounds.y + bounds.height) - max r.y bounds.y]

/-- The rectangle of all pixels of a form. -/
def Form.whole (form : Form) : Rect where
  x := 0
  y := 0
  width := form.width
  height := form.height

/-- All four numbers of a rectangle are 32-bit integers. -/
structure Rect.Fits (r : Rect) : Prop where
  x : Width.integer32.Holds r.x
  y : Width.integer32.Holds r.y
  width : Width.integer32.Holds r.width
  height : Width.integer32.Holds r.height

/-- The size of a form is a pair of 32-bit integers, and not negative. -/
structure Form.Sized (form : Form) : Prop where
  width : 0 ≤ form.width ∧ Width.integer32.Holds form.width
  height : 0 ≤ form.height ∧ Width.integer32.Holds form.height

theorem holds_zero : Width.integer32.Holds 0 := by decide

theorem Form.Sized.fits {form : Form} (h : form.Sized) : form.whole.Fits :=
  ⟨holds_zero, holds_zero, h.width.2, h.height.2⟩

section
variable {r bounds c : Rect} {form : Form}

theorem extent_of_holds {start stop : Int} (h : Width.integer32.Holds (stop - start)) :
    extent start stop = .ok (max (stop - start) 0) := by
  rw [extent, Width.check_of_holds h]
  rfl

/-- If all of its sums fit, a rectangle is cut to what it has in common with the bounds. -/
theorem Rect.clipTo_of_holds (h : ∀ n ∈ r.sums bounds, Width.integer32.Holds n) :
    ∃ c, r.clipTo bounds = .ok c ∧ (0 ≤ c.width ∧ 0 ≤ c.height) ∧
      ∀ x y, c.Covers x y ↔ r.Covers x y ∧ bounds.Covers x y := by
  simp only [sums, farEnds, List.cons_append, List.nil_append, List.mem_cons, List.not_mem_nil, or_false,
    forall_eq_or_imp, forall_eq] at h
  obtain ⟨hright, hbottom, hright', hbottom', hwidth, hheight⟩ := h
  refine ⟨⟨max r.x bounds.x, max r.y bounds.y,
    max (min (r.x + r.width) (bounds.x + bounds.width) - max r.x bounds.x) 0,
    max (min (r.y + r.height) (bounds.y + bounds.height) - max r.y bounds.y) 0⟩, ?_,
    ⟨Int.le_max_right _ _, Int.le_max_right _ _⟩, fun x y => ?_⟩
  · rw [clipTo, farEnd, farEnd, farEnd, farEnd, Width.check_of_holds hright, Width.check_of_holds hright',
      Width.check_of_holds hbottom, Width.check_of_holds hbottom']
    dsimp only [bind, Except.bind]
    rw [extent_of_holds hwidth, extent_of_holds hheight]
    rfl
  · simp only [Covers]
    omega

/-- The sums fit if the far ends do: a form is not too large, and a difference is no greater than the
width or the form, or less than the origin is negative. -/
theorem Rect.Fits.sums (h : r.Fits) (sized : form.Sized)
    (hends : ∀ n ∈ r.farEnds, Width.integer32.Holds n) :
    ∀ n ∈ r.sums form.whole, Width.integer32.Holds n := by
  obtain ⟨hx, hy, hwidth, hheight⟩ := h
  obtain ⟨hsize, hsize'⟩ := sized
  simp only [Rect.sums, farEnds, Form.whole, List.cons_append, List.nil_append, List.mem_cons,
    List.not_mem_nil, or_false, forall_eq_or_imp, forall_eq, Width.Holds, Width.least,
    Width.greatest] at *
  omega

/-- The far end that does not fit is the panic of a cut. -/
theorem Rect.clipTo_of_not (sized : form.Sized)
    (hends : ¬∀ n ∈ r.farEnds, Width.integer32.Holds n) :
    ∃ n ∈ r.farEnds, ¬Width.integer32.Holds n ∧
      r.clipTo form.whole = .error (.panic (.overflow .integer32 n)) := by
  have hwhole : Width.integer32.Holds (form.whole.x + form.whole.width) := by
    rw [Form.whole, Int.zero_add]
    exact sized.width.2
  by_cases hright : Width.integer32.Holds (r.x + r.width)
  · have hbottom : ¬Width.integer32.Holds (r.y + r.height) := fun hbottom => by
      simp [farEnds, hright, hbottom] at hends
    refine ⟨_, List.mem_cons_of_mem _ List.mem_cons_self, hbottom, ?_⟩
    rw [clipTo, farEnd, farEnd, farEnd, Width.check_of_holds hright, Width.check_of_holds hwhole,
      Width.check_of_not hbottom]
    rfl
  · refine ⟨_, List.mem_cons_self, hright, ?_⟩
    rw [clipTo, farEnd, Width.check_of_not hright]
    rfl

end

end Device

open Device

/-! ### What a transfer asks for -/

/-- The number that a coordinate field stands for. -/
inductive Machine.Coordinate (m : Machine) (default : Int) : Value → Int → Prop where
  | nil : m.Coordinate default m.specials.nil default
  | integer {n : Int} (some : .small n ≠ m.specials.nil) (h : Width.integer32.Holds n) :
    m.Coordinate default (.small n) n
  | number {index : UInt32} {generation : BitVec 30} {bits : UInt64}
      (some : .ref index generation ≠ m.specials.nil)
      (h : Attempt.floatValue (.ref index generation) m = .ok bits m)
      (between : Double.isBetween (-0x80000000) 0x7FFFFFFF bits = true) :
      m.Coordinate default (.ref index generation) (Double.truncate bits)

theorem Machine.Coordinate.holds {m : Machine} {default n : Int} {v : Value}
    (h : m.Coordinate default v n) (hdefault : Width.integer32.Holds default) :
    Width.integer32.Holds n := by
  cases h with
  | nil => exact hdefault
  | integer _ h => exact h
  | number _ _ between => exact Double.truncate_of_isBetween between

/-- The rectangle that four fields stand for. -/
structure Machine.Outlines (m : Machine) (o : Object) (start : Nat) (default r : Rect) : Prop where
  x : ∃ v, o.pointers[start]? = some v ∧ m.Coordinate default.x v r.x
  y : ∃ v, o.pointers[start + 1]? = some v ∧ m.Coordinate default.y v r.y
  width : ∃ v, o.pointers[start + 2]? = some v ∧ m.Coordinate default.width v r.width
  height : ∃ v, o.pointers[start + 3]? = some v ∧ m.Coordinate default.height v r.height

theorem Machine.Outlines.fits {m : Machine} {o : Object} {start : Nat} {default r : Rect}
    (h : m.Outlines o start default r) (hdefault : default.Fits) : r.Fits := by
  obtain ⟨⟨_, -, hx⟩, ⟨_, -, hy⟩, ⟨_, -, hwidth⟩, ⟨_, -, hheight⟩⟩ := h
  exact ⟨hx.holds hdefault.x, hy.holds hdefault.y, hwidth.holds hdefault.width,
    hheight.holds hdefault.height⟩

/-- A transfer goes to a form and asks for a clip rectangle: the form can be loaded, and so can all four
fields of the rectangle. -/
def Machine.Requests (m : Machine) (v : Value) (dest : Form) (r : Rect) : Prop :=
  ∃ o x, m.memory.get? v = some o ∧ o.pointers[0]? = some x ∧ Attempt.loadForm x m = .ok dest m ∧
    m.Outlines o 10 dest.whole r

/-- How the load of a transfer to a form ends that asks for a clip rectangle. The clip has exactly the
pixels both in the rectangle and in the form, and all that is computed for it fits 32 bits; or the
transfer is declined; or a far end of the rectangle does not fit, and that is the only fault. -/
def Machine.Clips (m : Machine) (dest : Form) (r : Rect) : EStateM.Result Refusal Machine Blit → Prop
  | .ok blit m' => m' = m ∧ blit.dest = dest ∧
    (∀ n ∈ r.sums dest.whole, Width.integer32.Holds n) ∧ (0 ≤ blit.clip.width ∧ 0 ≤ blit.clip.height) ∧
    ∀ x y, blit.clip.Covers x y ↔ r.Covers x y ∧ dest.whole.Covers x y
  | .error .declined m' => m' = m
  | .error (.fault e) m' => m' = m ∧
    ∃ n ∈ r.farEnds, ¬Width.integer32.Holds n ∧ e = .panic (.overflow .integer32 n)

namespace Attempt

open Machine

variable {α β : Type} {m : Machine} {o : Object} {v : Value} {alpha : Option Int} {i start : Nat}

theorem Looks.map {y : Attempt α} {f : α → β} (hy : Looks m y) : Looks m (f <$> y) :=
  (LawfulMonad.bind_pure_comp f y).symm ▸ .bind hy fun _ _ => .pure

theorem Looks.ite {p : Prop} [Decidable p] {y z : Attempt α} (hy : Looks m y) (hz : Looks m z) :
    Looks m (if p then y else z) := by
  split
  · exact hy
  · exact hz

theorem looks_nil : Looks m (liftM Action.nil : Attempt Value) := .lift (Action.nil_ok.2 ⟨rfl, rfl⟩)

theorem looks_object? : Looks m (liftM (Action.object? v) : Attempt (Option Object)) :=
  .lift (Action.object?_ok.2 ⟨rfl, rfl⟩)

theorem looks_integer32 : Looks m (integer32 v) :=
  .bind .ofOption fun _ _ => .bind .require fun _ _ => .pure

theorem looks_fieldOf : Looks m (fieldOf o i) := .ofOption

theorem looks_wordsOf? : Looks m (wordsOf? v) := .bind looks_object? fun _ _ => .pure

theorem looks_loadForm : Looks m (loadForm v) := by
  refine .bind looks_object? fun _ _ => .bind .ofOption fun _ _ => .bind .require fun _ _ => ?_
  refine .bind looks_fieldOf fun _ _ => .bind looks_integer32 fun _ _ => ?_
  refine .bind looks_fieldOf fun _ _ => .bind looks_integer32 fun _ _ => ?_
  refine .bind looks_fieldOf fun _ _ => .bind looks_integer32 fun _ _ => .bind .require fun _ _ => ?_
  refine .bind looks_fieldOf fun _ _ => .bind looks_wordsOf? fun _ _ => ?_
  exact .bind .ofOption fun _ _ => .pure

theorem looks_coordinate {default : Int} : Looks m (coordinate v default) := by
  refine .bind looks_nil fun nil _ => .ite .pure ?_
  cases v with
  | small n => exact looks_integer32
  | ref index generation => exact .bind looks_floatValue fun _ _ => .bind .require fun _ _ => .pure

theorem looks_rectAt {default : Rect} : Looks m (rectAt o start default) := by
  refine .bind looks_fieldOf fun _ _ => .bind looks_coordinate fun _ _ => ?_
  refine .bind looks_fieldOf fun _ _ => .bind looks_coordinate fun _ _ => ?_
  refine .bind looks_fieldOf fun _ _ => .bind looks_coordinate fun _ _ => ?_
  exact .bind looks_fieldOf fun _ _ => .bind looks_coordinate fun _ _ => .pure

theorem looks_loadHalftone : Looks m (loadHalftone v) := by
  refine .bind looks_nil fun nil _ => .ite .pure (.bind looks_wordsOf? fun found _ => ?_)
  cases found with
  | some words => exact .pure
  | none => exact .bind looks_loadForm fun _ _ => .pure

theorem looks_alphaFor {rule : Int} : Looks m (alphaFor rule alpha) :=
  .ite (.bind .ofOption fun _ _ => .bind .require fun _ _ => .pure) .pure

/-! ### The fields of the rectangle -/

theorem fieldOf_eq (h : o.pointers[i]? = some v) : fieldOf o i m = .ok v m := by
  rw [fieldOf, h]
  rfl

theorem integer32_eq {n : Int} (h : Width.integer32.Holds n) : integer32 (.small n) m = .ok n m := by
  have hfits : -0x80000000 ≤ n ∧ n < 0x80000000 := ⟨h.1, Int.lt_add_one_of_le h.2⟩
  change (do require (-0x80000000 ≤ n ∧ n < 0x80000000); return n : Attempt Int) m = _
  rw [require, if_pos hfits]
  rfl

theorem coordinate_eq {default n : Int} (h : m.Coordinate default v n) :
    coordinate v default m = .ok n m := by
  have hnil : (liftM Action.nil : Attempt Value) m = .ok m.specials.nil m := rfl
  unfold coordinate
  rw [bind_of_ok hnil]
  cases h with
  | nil => rw [if_pos rfl]; rfl
  | integer some h => rw [if_neg some]; exact integer32_eq h
  | number some h between =>
    rw [if_neg some]
    refine (bind_of_ok h).trans ?_
    rw [require, if_pos between]
    rfl

theorem rectAt_eq {default r : Rect} (h : m.Outlines o start default r) :
    rectAt o start default m = .ok r m := by
  obtain ⟨⟨_, hfield, hx⟩, ⟨_, hfield', hy⟩, ⟨_, hfield'', hwidth⟩, ⟨_, hfield''', hheight⟩⟩ := h
  unfold rectAt
  rw [bind_of_ok (fieldOf_eq hfield), bind_of_ok (coordinate_eq hx), bind_of_ok (fieldOf_eq hfield'),
    bind_of_ok (coordinate_eq hy), bind_of_ok (fieldOf_eq hfield''), bind_of_ok (coordinate_eq hwidth),
    bind_of_ok (fieldOf_eq hfield'''), bind_of_ok (coordinate_eq hheight)]
  rfl

theorem integer32_holds {n : Int} {m' : Machine} (h : integer32 v m = .ok n m') :
    Width.integer32.Holds n := by
  obtain ⟨k, m₁, -, h⟩ := bind_ok.1 h
  obtain ⟨_, _, hrequire, h⟩ := bind_ok.1 h
  obtain ⟨rfl, -⟩ := pure_ok.1 h
  have hfits := require_ok hrequire
  exact ⟨hfits.1, Int.le_of_lt_add_one hfits.2⟩

/-- A form that is loaded has a size. -/
theorem sized_of_loadForm {form : Form} {m' : Machine} (h : loadForm v m = .ok form m') : form.Sized := by
  obtain ⟨_, _, -, h⟩ := bind_ok.1 h
  obtain ⟨_, _, -, h⟩ := bind_ok.1 h
  obtain ⟨_, _, -, h⟩ := bind_ok.1 h
  obtain ⟨_, _, -, h⟩ := bind_ok.1 h
  obtain ⟨width, _, hwidth, h⟩ := bind_ok.1 h
  obtain ⟨_, _, -, h⟩ := bind_ok.1 h
  obtain ⟨height, _, hheight, h⟩ := bind_ok.1 h
  obtain ⟨_, _, -, h⟩ := bind_ok.1 h
  obtain ⟨_, _, -, h⟩ := bind_ok.1 h
  obtain ⟨_, _, hrequire, h⟩ := bind_ok.1 h
  obtain ⟨_, _, -, h⟩ := bind_ok.1 h
  obtain ⟨_, _, -, h⟩ := bind_ok.1 h
  obtain ⟨_, _, -, h⟩ := bind_ok.1 h
  obtain ⟨rfl, -⟩ := pure_ok.1 h
  have hnonneg := require_ok hrequire
  exact ⟨⟨hnonneg.1, integer32_holds hwidth⟩, hnonneg.2, integer32_holds hheight⟩

/-! ### The clip rectangle -/

end Attempt

namespace Machine.Clips

variable {α : Type} {m : Machine} {dest : Form} {r : Rect} {y z : Attempt Blit} {jp : α → Attempt Blit}

theorem after {x : Attempt α} (hx : Attempt.Looks m x) (h : ∀ a, m.Clips dest r (jp a m)) :
    m.Clips dest r ((x >>= jp) m) := by
  rcases hx with ⟨a, ha⟩ | hdeclined
  · rw [bind_of_ok ha]
    exact h a
  · rw [bind_of_error hdeclined]
    exact rfl

/-- Where several branches go on in the same way, that way is looked at once. -/
theorem join (hz : (∀ a, m.Clips dest r (jp a m)) → m.Clips dest r (z m))
    (hjp : ∀ a, m.Clips dest r (jp a m)) : m.Clips dest r (z m) := hz hjp

theorem branch {p : Prop} [Decidable p] (hy : m.Clips dest r (y m)) (hz : m.Clips dest r (z m)) :
    m.Clips dest r ((if p then y else z) m) := by
  split
  · exact hy
  · exact hz

end Machine.Clips

open Attempt

/-- A transfer only looks at the machine, and nothing but the cut can fault. -/
theorem Machine.Requests.clips {m : Machine} {v : Value} {dest : Form} {r : Rect} {alpha : Option Int}
    (h : m.Requests v dest r) : m.Clips dest r (loadBlit v alpha m) := by
  obtain ⟨o, x, ho, hx, hdest, houtlines⟩ := h
  have sized := sized_of_loadForm hdest
  have hobject : (liftM (Action.object? v) : Attempt (Option Object)) m = .ok (some o) m :=
    lift_ok.2 (Action.object?_ok.2 ⟨ho, rfl⟩)
  have hfound : (ofOption (some o) : Attempt Object) m = .ok o m := rfl
  unfold loadBlit
  rw [bind_of_ok hobject, bind_of_ok hfound]
  refine .after .require fun _ => .after looks_fieldOf fun _ => ?_
  refine .after looks_integer32 fun rule => .after .require fun _ => .after looks_nil fun nil => ?_
  rw [bind_of_ok (fieldOf_eq hx), bind_of_ok hdest]
  refine .after looks_fieldOf fun sourceForm => ?_
  refine .join (fun jp => .branch (.after .pure jp) (.after looks_loadForm.map jp)) fun source => ?_
  refine .after looks_fieldOf fun _ => .after looks_loadHalftone fun halftone => ?_
  refine .after looks_rectAt fun destRect => ?_
  refine .join (fun jp => .branch (.after looks_fieldOf fun _ => .after looks_coordinate jp) (.after .pure jp))
    fun sourceX => ?_
  refine .join (fun jp => .branch (.after looks_fieldOf fun _ => .after looks_coordinate jp) (.after .pure jp))
    fun sourceY => ?_
  dsimp only
  have hclip : rectAt o 10 { x := 0, y := 0, width := dest.width, height := dest.height } m = .ok r m :=
    rectAt_eq houtlines
  rw [bind_of_ok hclip]
  by_cases hends : ∀ n ∈ r.farEnds, Width.integer32.Holds n
  · have hsums := (houtlines.fits sized.fits).sums sized hends
    obtain ⟨clip, hcut, hnonneg, hcovers⟩ := Rect.clipTo_of_holds hsums
    have hcut : Action.ofExcept (r.clipTo dest.whole) m = .ok clip m := Action.ofExcept_ok.2 ⟨hcut, rfl⟩
    have finish : ∀ colorMap, m.Clips dest r ((do
        let alpha ← alphaFor rule alpha
        return { dest, source, halftone, rule, destRect, sourceX, sourceY, clip, colorMap, alpha
                 bitCount := 0 } : Attempt Blit) m) := fun colorMap =>
      .after looks_alphaFor fun _ => ⟨rfl, rfl, hsums, hnonneg, hcovers⟩
    refine (bind_of_ok (lift_ok.2 hcut)).symm ▸ ?_
    cases o.pointers[14]? with
    | none => exact .after .pure finish
    | some map =>
      exact .branch (.after .pure finish)
        (.after (Looks.bind looks_wordsOf? fun _ _ => .ofOption).map finish)
  · obtain ⟨n, hn, hnot, hcut⟩ := Rect.clipTo_of_not sized hends
    have hcut : Action.ofExcept (r.clipTo dest.whole) m = .error (.panic (.overflow .integer32 n)) m := by
      rw [hcut]
      rfl
    exact (bind_of_error (lift_fault hcut)).symm ▸ ⟨rfl, n, hn, hnot, rfl⟩

/-- A transfer whose form and clip fields can be loaded ends with a clip rectangle that is not negative
and has exactly the pixels both in the rectangle that is asked for and in the form, and nothing that is
computed for it leaves 32 bits. Only if a far end of the rectangle does not fit 32 bits does the transfer
panic, and with immediate integers that never happens. -/
theorem clip_of_loadBlit {m : Machine} {v : Value} {dest : Form} {r : Rect}
    (h : m.Requests v dest r) (alpha : Option Int) :
    m.Clips dest r (Attempt.loadBlit v alpha m) ∧
      ((∀ n ∈ [r.x, r.width, r.y, r.height], Value.InRange n) →
        ∀ n ∈ r.farEnds, Width.integer32.Holds n) := by
  refine ⟨h.clips, fun hrange => ?_⟩
  simp only [List.mem_cons, List.not_mem_nil, or_false, forall_eq_or_imp, forall_eq, Value.InRange,
    Value.smallMin, Value.smallMax] at hrange
  simp only [Rect.farEnds, List.mem_cons, List.not_mem_nil, or_false, forall_eq_or_imp, forall_eq,
    Width.Holds, Width.least, Width.greatest]
  omega

/-- A machine with a transfer that fills a form of 8 by 8 pixels. The origin of its clip rectangle is
given by the bits of a number and 0; it is one pixel wide and as high as the form. -/
def stencil (origin : UInt64) : Machine :=
  let nil : Value := .ref 0 0
  let cls : Value := .ref 2 0
  let objects : List Object := [.ofPointers cls .empty #[],
    .ofPointers cls .indexable (Array.replicate 12 cls), .ofPointers cls .empty #[],
    .ofWords cls (Array.replicate 8 0),
    .ofPointers cls .fixed #[.ref 3 0, .small 8, .small 8, .small 1], .ofFloat cls origin,
    .ofPointers cls .fixed #[.ref 4 0, nil, nil, .small 15, .small 0, .small 0, .small 8, .small 8,
      nil, nil, .ref 5 0, nil, .small 1, nil]]
  Machine.create (Machine.filled (.empty .standard) objects)
    { array := .ref 1 0, nil, falseObject := nil, trueObject := nil } {} default

/-- The form of the stencil. -/
def stencilForm : Form where
  bits := Array.replicate 8 0
  width := 8
  height := 8
  depth := 1

/-- The rectangle that the stencil asks for. -/
def stencilRect (origin : Int) : Rect where
  x := origin
  y := 0
  width := 1
  height := 8

/-- Whether an attempt is answered with `a`. -/
def Attempt.answers {α : Type} [DecidableEq α] (y : Attempt α) (m : Machine) (a : α) : Bool :=
  match y m with
  | .ok b _ => decide (b = a)
  | .error .. => false

theorem Attempt.Looks.eq_ok {α : Type} [DecidableEq α] {m : Machine} {y : Attempt α} {a : α}
    (hy : Looks m y) (h : y.answers m a = true) : y m = .ok a m := by
  rcases hy with ⟨b, hb⟩ | hdeclined
  · rw [answers, hb] at h
    rw [hb, of_decide_eq_true h]
  · rw [answers, hdeclined] at h
    cases h

/-- Two origins: `5.0` and `2147483647.0`. -/
def stencilOrigins : List UInt64 := [0x4014000000000000, 0x41DFFFFFFFC00000]

theorem requests_stencil (origin : UInt64) (h : origin ∈ stencilOrigins) :
    (stencil origin).Requests (.ref 6 0) stencilForm (stencilRect (Double.truncate origin)) := by
  have hnil : (stencil origin).specials.nil = .ref 0 0 := rfl
  have hseen : stencilOrigins.all (fun k => ((stencil k).memory.get? (.ref 6 0)).any (fun o =>
        decide (o.pointers[0]? = some (.ref 4 0) ∧ o.pointers[10]? = some (.ref 5 0) ∧
          o.pointers[11]? = some (.ref 0 0) ∧ o.pointers[12]? = some (.small 1) ∧
          o.pointers[13]? = some (.ref 0 0))) &&
      (loadForm (.ref 4 0)).answers (stencil k) stencilForm &&
      (floatValue (.ref 5 0)).answers (stencil k) k &&
      Double.isBetween (-0x80000000) 0x7FFFFFFF k) = true := by decide +kernel
  have hseen := List.all_eq_true.1 hseen origin h
  simp only [Bool.and_eq_true] at hseen
  obtain ⟨⟨⟨hobject, hform⟩, hfloat⟩, hbetween⟩ := hseen
  obtain ⟨o, ho, hfields⟩ := (Option.any_eq_true _ _).1 hobject
  obtain ⟨hx, horigin, htop, hwidth, hheight⟩ := of_decide_eq_true hfields
  refine ⟨o, _, ho, hx, looks_loadForm.eq_ok hform, ⟨_, horigin, ?_⟩, ⟨_, htop, ?_⟩, ⟨_, hwidth, ?_⟩,
    ⟨_, hheight, ?_⟩⟩
  · exact .number (by rw [hnil]; decide) (looks_floatValue.eq_ok hfloat) hbetween
  · exact hnil ▸ .nil
  · exact .integer (by rw [hnil]; decide) (by decide)
  · exact hnil ▸ .nil

/-- The clip rectangle that starts at `5.0` is loaded, and the one that starts at `2147483647.0` panics
although all of it is right of the form: its far end is `2^31`. -/
theorem clip_of_loadBlit_stencil :
    ((stencil 0x4014000000000000).Requests (.ref 6 0) stencilForm (stencilRect 5) ∧
      ∃ blit m', Attempt.loadBlit (.ref 6 0) none (stencil 0x4014000000000000) = .ok blit m' ∧
        ∀ x y, blit.clip.Covers x y ↔ (stencilRect 5).Covers x y ∧ stencilForm.whole.Covers x y) ∧
    (stencil 0x41DFFFFFFFC00000).Requests (.ref 6 0) stencilForm (stencilRect 0x7FFFFFFF) ∧
      ∃ m', Attempt.loadBlit (.ref 6 0) none (stencil 0x41DFFFFFFFC00000) =
        .error (.fault (.panic (.overflow .integer32 0x80000000))) m' := by
  have hnear : Double.truncate 0x4014000000000000 = 5 := by decide +kernel
  have hfar : Double.truncate 0x41DFFFFFFFC00000 = 0x7FFFFFFF := by decide +kernel
  have near := requests_stencil 0x4014000000000000 (by decide)
  have far := requests_stencil 0x41DFFFFFFFC00000 (by decide)
  rw [hnear] at near
  rw [hfar] at far
  refine ⟨⟨near, ?_⟩, far, ?_⟩
  · have hleads : (Attempt.loadBlit (.ref 6 0) none).leads (stencil 0x4014000000000000)
        (fun _ _ => true) = true := by decide +kernel
    obtain ⟨blit, m', hrun, -⟩ := Attempt.exists_of_leads hleads
    have hclips := (clip_of_loadBlit near none).1
    rw [hrun] at hclips
    exact ⟨blit, m', hrun, hclips.2.2.2.2⟩
  · have hpanics : (Attempt.loadBlit (.ref 6 0) none).faults (stencil 0x41DFFFFFFFC00000) (fun e _ =>
        decide (e = .panic (.overflow .integer32 0x80000000))) = true := by decide +kernel
    obtain ⟨e, m', hrun, htest⟩ := Attempt.exists_of_faults hpanics
    exact ⟨m', hrun.trans (by rw [of_decide_eq_true htest])⟩

end Smalltalk
