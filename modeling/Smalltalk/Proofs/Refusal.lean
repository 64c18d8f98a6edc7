import Smalltalk.Proofs.Conduct

/-!
# Declined attempts

A primitive that declines leaves the send to the method, so it must not have done anything that shows.
It may have looked at its operands, made objects without pointers that nobody refers to, moved bytes
around and used a device; contexts, registers and the pointers between objects are as they were. This
holds of every primitive.
-/

namespace Smalltalk

open Outcome

/-- Contexts, registers and pointers are as they were, but for objects that are gone and new ones
without pointers. -/
structure Machine.Spares (m m' : Machine) : Prop where
  registers : m'.registers = m.registers
  specials : m'.specials = m.specials
  reclaimable : m'.reclaimable = m.reclaimable
  pool : m'.pool = m.pool ∨ m'.pool = m.pool.clear
  pins : m.memory.pins.toList <+: m'.memory.pins.toList
  later : m.memory.Later m'.memory
  stocked : m.memory.Stocked → m'.memory.Stocked
  shape : m.memory.Stocked → ∀ v c ps, m'.memory.shape v = some (c, ps) →
    m.memory.shape v = some (c, ps) ∨ ps = #[]
  kept : m.memory.Stocked → ∀ v, m.memory.Reachable (m.anchors ++ m'.pool.roots) v →
    m'.memory.shape v = m.memory.shape v

/-- What a declined attempt may leave behind. -/
structure Machine.Undone (m m' : Machine) : Prop extends m.Spares m' where
  sound : ∀ s, m.Sound s → m'.Sound s

namespace Machine

variable {m m' m'' : Machine} {v : Value} {o : Object}

theorem Spares.anchors (h : Spares m m') : m.anchors ⊆ m'.anchors := by
  intro w hw
  rw [Machine.anchors] at hw ⊢
  rw [h.registers, h.specials]
  rcases List.mem_append.1 hw with hw | hw
  · exact List.mem_append_left _ hw
  · exact List.mem_append_right _ (h.pins.subset hw)

theorem Spares.pool_roots (h : Spares m m') : m'.pool.roots ⊆ m.pool.roots := by
  rcases h.pool with e | e
  · rw [e]
    exact List.Subset.refl _
  · rw [e]
    exact List.nil_subset _

/-- Making room adds no fields. -/
theorem Spares.cell {x : Value} {i : Nat} (h : Spares m m') (hstocked : m.memory.Stocked)
    (hx : m'.memory.cell v i = some x) : m.memory.cell v i = some x := by
  rw [Memory.cell_eq_shape, Option.bind_eq_some_iff] at hx
  obtain ⟨⟨c, ps⟩, hshape, hx⟩ := hx
  rcases h.shape hstocked v c ps hshape with hold | rfl
  · rw [Memory.cell_eq_shape, hold]
    exact hx
  · exact absurd hx (by simp)

/-- A change that is not seen in the objects. -/
theorem Undone.of_memory (memory : m'.memory = m.memory) (registers : m'.registers = m.registers)
    (specials : m'.specials = m.specials) (reclaimable : m'.reclaimable = m.reclaimable)
    (pool : m'.pool = m.pool) : Undone m m' where
  registers := registers
  specials := specials
  reclaimable := reclaimable
  pool := .inl pool
  pins := by simp only [memory, List.prefix_rfl]
  later := .of_slots (by rw [memory])
  stocked h := by rw [memory]; exact h
  shape _ v c ps h := by rw [memory] at h; exact .inl h
  kept _ v _ := by rw [memory]
  sound s h := h.alike ⟨memory, specials, registers, by rw [pool]⟩

theorem Undone.refl (m : Machine) : Undone m m := .of_memory rfl rfl rfl rfl rfl

theorem Spares.trans (h : Spares m m') (h' : Spares m' m'') : Spares m m'' where
  registers := h'.registers.trans h.registers
  specials := h'.specials.trans h.specials
  reclaimable := h'.reclaimable.trans h.reclaimable
  pool := by
    rcases h'.pool with e' | e'
    · rw [e']
      exact h.pool
    · rcases h.pool with e | e
      · exact .inr (by rw [e', e])
      · exact .inr (by rw [e', e]; rfl)
  pins := h.pins.trans h'.pins
  later := h.later.trans h'.later
  stocked := h'.stocked ∘ h.stocked
  shape hstocked v c ps hs := by
    rcases h'.shape (h.stocked hstocked) v c ps hs with hs | hs
    · exact h.shape hstocked v c ps hs
    · exact .inr hs
  kept hstocked v hv := by
    have sub : m.anchors ++ m''.pool.roots ⊆ m.anchors ++ m'.pool.roots :=
      List.append_subset.2 ⟨List.subset_append_left _ _, fun x hx =>
        List.mem_append_right _ (h'.pool_roots hx)⟩
    have same : ∀ w, m.memory.Reachable (m.anchors ++ m''.pool.roots) w →
        m'.memory.shape w = m.memory.shape w := fun w hw => h.kept hstocked w (hw.mono sub)
    have sub' : m.anchors ++ m''.pool.roots ⊆ m'.anchors ++ m''.pool.roots :=
      List.append_subset.2 ⟨fun x hx => List.mem_append_left _ (h.anchors hx),
        List.subset_append_right _ _⟩
    rw [h'.kept (h.stocked hstocked) v ((hv.of_shape same).mono sub'), same v hv]

theorem Undone.trans (h : Undone m m') (h' : Undone m' m'') : Undone m m'' :=
  ⟨h.toSpares.trans h'.toSpares, fun s => h'.sound s ∘ h.sound s⟩

theorem Undone.of_trims (h : Trims m m') : Undone m m' where
  registers := h.registers
  specials := h.specials
  reclaimable := by rw [h.frame]
  pool := h.pool
  pins := by simp only [h.pins, List.prefix_rfl]
  later := h.later
  stocked := h.stocked
  shape _ v c ps hs := by
    obtain ⟨o, ho, rfl, rfl⟩ := Memory.shape_eq_some.1 hs
    exact .inl (Memory.shape_of_get? (h.object v o ho))
  kept _ v hv := Memory.shape_congr (h.kept v hv)
  sound _ hs := h.sound hs

/-- A change of the raw part of an object. -/
theorem Undone.of_body {f : Object → Object} (hf : ∀ o, (f o).cls = o.cls ∧ (f o).pointers = o.pointers) :
    Undone m (m.modified v f) where
  registers := rfl
  specials := rfl
  reclaimable := rfl
  pool := .inl rfl
  pins := by simp only [Machine.modified, Machine.modify_pins, List.prefix_rfl]
  later := Memory.later_modify ..
  stocked h := h.modify v f
  shape _ w c ps hs := by
    rw [Machine.modified, Memory.shape_modify m.memory v w hf] at hs
    exact .inl hs
  kept _ w _ := Memory.shape_modify m.memory v w hf
  sound _ hs := hs.modified_body hf

/-- A new object without pointers. -/
theorem Spares.of_placed (ho : o.pointers = #[]) : Spares m (Action.placed m o) where
  registers := rfl
  specials := rfl
  reclaimable := rfl
  pool := .inl rfl
  pins := by simp only [Action.placed, Machine.place_pins, List.prefix_rfl]
  later := Memory.later_place ..
  stocked h := h.place
  shape h v c ps hs := by
    rcases h.get?_place o v with e | ⟨-, -, e⟩
    · rw [Action.placed, Memory.shape_congr e] at hs
      exact .inl hs
    · obtain ⟨o', ho', -, rfl⟩ := Memory.shape_eq_some.1 hs
      rw [Action.placed, e] at ho'
      obtain rfl := Option.some.inj ho'
      exact .inr ho
  kept h v hv := Machine.shape_placed h hv.live

theorem Undone.of_allocate (ho : o.pointers = #[]) (hcls : ∀ s, m.Sound s → m.Anchored o.cls)
    (hrun : Action.allocate o m = .ok v m') : Undone m m' := by
  refine ⟨?_, fun s hs => (hs.allocate_raw (hcls s hs) ho v m' hrun).sound⟩
  obtain ⟨m₁, hash, ht, rfl, rfl⟩ := Action.allocate_ok hrun
  exact (Undone.of_trims ht).toSpares.trans (.of_placed ho)

theorem toList_take (pins : Array Value) (n : Nat) :
    (pins.take n).toList = pins.toList.take n := by
  simp

/-- A value that is there may be pinned. -/
theorem Undone.pinned (h : Undone m m') (hv : ∀ s, m.Sound s → m'.Proper v) :
    Undone m (m'.withPins (m'.memory.pins.push v)) where
  registers := h.registers
  specials := h.specials
  reclaimable := h.reclaimable
  pool := h.pool
  pins := by
    rw [Machine.withPins, Array.toList_push]
    exact h.pins.trans (List.prefix_append _ _)
  later := ⟨h.later.size, h.later.slot⟩
  stocked hs := (h.stocked hs).of_slots rfl rfl
  shape := h.shape
  kept := h.kept
  sound s hs := by
    refine (h.sound s hs).withPins fun w hw => ?_
    rcases Array.mem_push.1 hw with hw | rfl
    · exact (h.sound s hs).toSafe.proper_pin hw
    · exact hv s hs

/-- Pins that were added are taken off again. -/
theorem Undone.released (h : Undone m m') :
    Undone m (m'.withPins (m'.memory.pins.take m.memory.pins.size)) where
  registers := h.registers
  specials := h.specials
  reclaimable := h.reclaimable
  pool := h.pool
  pins := by
    rw [Machine.withPins, toList_take, List.prefix_take_iff]
    exact ⟨h.pins, Nat.le_of_eq Array.length_toList⟩
  later := ⟨h.later.size, h.later.slot⟩
  stocked hs := (h.stocked hs).of_slots rfl rfl
  shape := h.shape
  kept := h.kept
  sound s hs := by
    refine (h.sound s hs).withPins fun v hv => (h.sound s hs).toSafe.proper_pin ?_
    rw [← Array.mem_toList_iff, toList_take] at hv
    exact Array.mem_toList_iff.1 (List.mem_of_mem_take hv)

/-- What is anchored stays so. -/
theorem Undone.anchored (h : Undone m m') (hstocked : m.memory.Stocked) (hv : m.Anchored v) :
    m'.Anchored v := by
  have kept : ∀ w, m.memory.Reachable m.anchors w → m'.memory.shape w = m.memory.shape w :=
    fun w hw => h.kept hstocked w (hw.mono (List.subset_append_left _ _))
  intro room
  rcases hv (h.later.addressable room) with hsmall | hreach
  · exact .inl hsmall
  · exact .inr ((hreach.of_shape kept).mono h.anchors)

instance : Std.Refl Undone := ⟨.refl⟩

instance : IsTrans Machine Undone := ⟨fun _ _ _ => .trans⟩

end Machine

/-- An action whose answers come from machines that stand in `R` to the first. -/
def Action.Within {α : Type} (R : Machine → Machine → Prop) (y : Action α) : Prop :=
  ∀ m a m', y m = .ok a m' → R m m'

namespace Attempt

variable {α β : Type} {R : Machine → Machine → Prop} {x : Attempt α} {f : α → Attempt β}

/-! ### Where attempts end -/

/-- An attempt that is declined only in machines that stand in `R` to the first. -/
def Yields (R : Machine → Machine → Prop) (x : Attempt α) : Prop :=
  ∀ m m', x m = .error .declined m' → R m m'

/-- An attempt that ends, declined or not, in machines that stand in `R` to the first. -/
structure Stays (R : Machine → Machine → Prop) (x : Attempt α) : Prop where
  ok : ∀ m a m', x m = .ok a m' → R m m'
  declined : Yields R x

theorem lift_ok {y : Action α} {m m' : Machine} {a : α} :
    (liftM y : Attempt α) m = .ok a m' ↔ y m = .ok a m' := by
  change ofAction y m = _ ↔ _
  rw [ofAction]
  cases y m with
  | ok b m₁ => simp
  | error e m₁ => simp

/-- Whether an attempt ends with an answer and leaves a machine that pass a test. -/
def leads (x : Attempt α) (m : Machine) (test : α → Machine → Bool) : Bool :=
  match x m with
  | .ok a m' => test a m'
  | .error .. => false

theorem exists_of_leads {m : Machine} {test : α → Machine → Bool} (h : x.leads m test = true) :
    ∃ a m', x m = .ok a m' ∧ test a m' = true := by
  rw [leads] at h
  split at h
  · exact ⟨_, _, by assumption, h⟩
  · exact absurd h (by simp)

/-- Whether an attempt is declined. -/
def declines (x : Attempt α) (m : Machine) : Bool :=
  match x m with
  | .error .declined _ => true
  | _ => false

theorem exists_of_declines {m : Machine} (h : x.declines m = true) :
    ∃ m', x m = .error .declined m' := by
  rw [declines] at h
  split at h
  · exact ⟨_, by assumption⟩
  · exact absurd h (by simp)

/-- Whether an attempt ends with a fault and leaves a machine that pass a test. -/
def faults (x : Attempt α) (m : Machine) (test : Fault → Machine → Bool) : Bool :=
  match x m with
  | .error (.fault e) m' => test e m'
  | _ => false

theorem exists_of_faults {m : Machine} {test : Fault → Machine → Bool}
    (h : x.faults m test = true) : ∃ e m', x m = .error (.fault e) m' ∧ test e m' = true := by
  rw [faults] at h
  split at h
  · exact ⟨_, _, by assumption, h⟩
  · exact absurd h (by simp)

theorem lift_declined {y : Action α} {m m' : Machine} :
    (liftM y : Attempt α) m ≠ .error .declined m' := by
  change ofAction y m ≠ _
  rw [ofAction]
  cases y m with
  | ok b m₁ => simp
  | error e m₁ => simp

theorem require_of {p : Prop} [Decidable p] {m : Machine} (hp : p) : require p m = .ok () m := by
  unfold require
  rw [if_pos hp]
  rfl

theorem require_of_not {p : Prop} [Decidable p] {m : Machine} (hp : ¬ p) :
    require p m = .error .declined m := by
  unfold require
  rw [if_neg hp]
  rfl

theorem Yields.bind [IsTrans Machine R] (hx : Stays R x) (hf : ∀ a, Yields R (f a)) :
    Yields R (x >>= f) := by
  intro m m' hrun
  rcases bind_error.1 hrun with h | ⟨a, m₁, h, h'⟩
  · exact hx.declined m m' h
  · exact IsTrans.trans _ _ _ (hx.ok m a m₁ h) (hf a m₁ m' h')

theorem Stays.bind [IsTrans Machine R] (hx : Stays R x) (hf : ∀ a, Stays R (f a)) :
    Stays R (x >>= f) := by
  refine ⟨fun m b m' hrun => ?_, Yields.bind hx fun a => (hf a).declined⟩
  obtain ⟨a, m₁, h, h'⟩ := bind_ok.1 hrun
  exact IsTrans.trans _ _ _ (hx.ok m a m₁ h) ((hf a).ok m₁ b m' h')

theorem Stays.pure [Std.Refl R] {a : α} : Stays R (Pure.pure a : Attempt α) := by
  refine ⟨fun m b m' hrun => ?_, fun m m' hrun => ?_⟩
  · obtain ⟨-, rfl⟩ := pure_ok.1 hrun
    exact Std.Refl.refl m
  · exact absurd hrun (by simp [Pure.pure, EStateM.pure])

theorem Stays.decline [Std.Refl R] : Stays R (decline : Attempt α) := by
  refine ⟨fun m b m' hrun => (throw_ok.1 hrun).elim, fun m m' hrun => ?_⟩
  have hend : (EStateM.Result.error Refusal.declined m : EStateM.Result Refusal Machine α) =
      .error .declined m' := hrun
  obtain ⟨-, rfl⟩ := EStateM.Result.error.inj hend
  exact Std.Refl.refl m

theorem Stays.require [Std.Refl R] {p : Prop} [Decidable p] : Stays R (require p) := by
  unfold Attempt.require
  split
  · exact .pure
  · exact .decline

theorem Stays.ofOption [Std.Refl R] {found : Option α} : Stays R (ofOption found) := by
  cases found with
  | none => exact .decline
  | some a => exact .pure

theorem Stays.ite {p : Prop} [Decidable p] {y : Attempt α} (hx : Stays R x) (hy : Stays R y) :
    Stays R (if p then x else y) := by
  split
  · exact hx
  · exact hy

theorem Stays.lift {y : Action α} (hy : Action.Within R y) : Stays R (liftM y : Attempt α) :=
  ⟨fun m a m' hrun => hy m a m' (lift_ok.1 hrun), fun _ _ hrun => absurd hrun lift_declined⟩

theorem Stays.get [Std.Refl R] : Stays R (get : Attempt Machine) := by
  refine ⟨fun m a m' hrun => ?_, fun m m' hrun => ?_⟩
  · obtain ⟨-, rfl⟩ := get_ok.1 hrun
    exact Std.Refl.refl m
  · cases (show EStateM.Result.ok m m = EStateM.Result.error Refusal.declined m' from hrun)

theorem Yields.ite {p : Prop} [Decidable p] {y : Attempt α} (hx : Yields R x) (hy : Yields R y) :
    Yields R (if p then x else y) := by
  split
  · exact hx
  · exact hy

theorem Yields.lift {y : Action α} : Yields R (liftM y : Attempt α) :=
  fun _ _ hrun => absurd hrun lift_declined

theorem Stays.mono {R' : Machine → Machine → Prop} (h : Stays R x)
    (hR : ∀ m m', R m m' → R' m m') : Stays R' x :=
  ⟨fun m a m' hrun => hR m m' (h.ok m a m' hrun), fun m m' hrun => hR m m' (h.declined m m' hrun)⟩

theorem Stays.map [IsTrans Machine R] [Std.Refl R] {g : α → β} (hx : Stays R x) :
    Stays R (g <$> x) := by
  rw [map_eq_pure_bind]
  exact hx.bind fun _ => .pure

/-- Where several branches go on in the same way, that way is looked at once. -/
theorem Stays.join {jp : α → Attempt β} {z : Attempt β}
    (hz : (∀ a, Stays R (jp a)) → Stays R z) (hjp : ∀ a, Stays R (jp a)) : Stays R z := hz hjp

theorem Yields.join {jp : α → Attempt β} {z : Attempt β}
    (hz : (∀ a, Yields R (jp a)) → Yields R z) (hjp : ∀ a, Yields R (jp a)) : Yields R z := hz hjp

/-- An attempt that is never declined. -/
def Certain (x : Attempt α) : Prop := ∀ m m', x m ≠ .error .declined m'

theorem Certain.yields (h : Certain x) : Yields R x := fun m m' hrun => absurd hrun (h m m')

theorem Certain.bind (hx : Certain x) (hf : ∀ a, Certain (f a)) : Certain (x >>= f) := by
  intro m m' hrun
  rcases bind_error.1 hrun with h | ⟨a, m₁, -, h⟩
  · exact hx m m' h
  · exact hf a m₁ m' h

theorem Certain.pure {a : α} : Certain (Pure.pure a : Attempt α) := fun _ _ hrun =>
  absurd hrun (by simp [Pure.pure, EStateM.pure])

theorem Certain.get : Certain (get : Attempt Machine) := by
  intro m m' hrun
  cases (show EStateM.Result.ok m m = EStateM.Result.error Refusal.declined m' from hrun)

theorem Certain.modify {g : Machine → Machine} : Certain (modify g : Attempt Unit) := by
  intro m m' hrun
  change EStateM.Result.ok () (g m) = .error Refusal.declined m' at hrun
  exact absurd hrun (by simp)

theorem Certain.lift {y : Action α} : Certain (liftM y : Attempt α) := fun _ _ => lift_declined

theorem Certain.ite {p : Prop} [Decidable p] {y : Attempt α} (hx : Certain x) (hy : Certain y) :
    Certain (if p then x else y) := by
  split
  · exact hx
  · exact hy

theorem Certain.forM {γ : Type} {xs : List γ} {g : γ → Attempt PUnit} (hg : ∀ a, Certain (g a)) :
    Certain (xs.forM g) := by
  induction xs with
  | nil => exact .pure
  | cons a xs ih => exact .bind (hg a) fun _ => ih

/-- What comes after an attempt does not decline any more. -/
theorem Yields.certain (hx : Yields R x) (hf : ∀ a, Certain (f a)) : Yields R (x >>= f) := by
  intro m m' hrun
  rcases bind_error.1 hrun with h | ⟨a, m₁, -, h⟩
  · exact hx m m' h
  · exact absurd h (hf a m₁ m')

end Attempt

/-! ### Looking -/

namespace Action

variable {α β : Type} {R : Machine → Machine → Prop} {v : Value} {i : Nat} {y : Action α}
  {f : α → Action β}

theorem Within.bind [IsTrans Machine R] (hy : Within R y) (hf : ∀ a, Within R (f a)) :
    Within R (y >>= f) := by
  intro m b m' hrun
  obtain ⟨a, m₁, h, h'⟩ := bind_ok.1 hrun
  exact IsTrans.trans _ _ _ (hy m a m₁ h) (hf a m₁ b m' h')

theorem Within.pure [Std.Refl R] {a : α} : Within R (pure a : Action α) := by
  intro m b m' hrun
  obtain ⟨-, rfl⟩ := pure_ok.1 hrun
  exact Std.Refl.refl m

theorem Within.of_eq [Std.Refl R] (h : ∀ m a m', y m = .ok a m' → m = m') : Within R y := by
  intro m a m' hrun
  rw [h m a m' hrun]
  exact Std.Refl.refl m'

theorem ofExcept_within [Std.Refl R] {found : Except Fault α} : Within R (ofExcept found) :=
  .of_eq fun _ _ _ hrun => (ofExcept_ok.1 hrun).2

theorem Within.throw {e : Fault} : Within R (throw e : Action α) := fun _ _ _ hrun =>
  (throw_ok.1 hrun).elim

theorem Within.ite {p : Prop} [Decidable p] {z : Action α} (hy : Within R y) (hz : Within R z) :
    Within R (if p then y else z) := by
  split
  · exact hy
  · exact hz

section
variable [Std.Refl R]

theorem fetch_within : Within R (fetch v i) := .of_eq fun _ _ _ h => (fetch_ok.1 h).2

theorem fetchInt_within : Within R (fetchInt v i) := .of_eq fun _ _ _ h => (fetchInt_ok.1 h).2

theorem object_within : Within R (object v) := .of_eq fun _ _ _ h => (object_ok.1 h).2

theorem object?_within : Within R (object? v) := .of_eq fun _ _ _ h => (object?_ok.1 h).2

theorem assertFrame_within : Within R (assertFrame v) := .of_eq fun _ _ _ h => (assertFrame_ok.1 h).2

theorem special_within : Within R (special i) := .of_eq fun _ _ _ h => (special_ok.1 h).2

theorem nil_within : Within R nil := .of_eq fun _ _ _ h => (nil_ok.1 h).2

theorem truth_within {b : Bool} : Within R (truth b) := .of_eq fun _ _ _ h => (truth_ok.1 h).2

theorem registers_within : Within R registers := .of_eq fun _ _ _ h => (registers_ok.1 h).2

theorem classOf_within : Within R (classOf v) := .of_eq fun _ _ _ h => (classOf_ok.1 h).2

theorem stackValue_within : Within R (stackValue i) := .of_eq fun _ _ _ h => (stackValue_ok.1 h).2.2

theorem stackValues_within : Within R (stackValues i) := .of_eq fun _ _ _ h => (stackValues_ok h).1

theorem get_within : Within R (get : Action Machine) := .of_eq fun _ _ _ h => (get_ok.1 h).2

variable [IsTrans Machine R]

theorem isInstanceOf_within : Within R (isInstanceOf v i) := by
  refine .bind object?_within fun found => ?_
  cases found with
  | none => exact .pure
  | some o => exact .bind special_within fun _ => .pure

theorem isContext_within : Within R (isContext v) :=
  .bind isInstanceOf_within fun _ => .ite .pure isInstanceOf_within

theorem instanceSpec_within : Within R (instanceSpec v) := .bind fetchInt_within fun _ => .pure

theorem fixedFields_within : Within R (fixedFields v) := by
  refine .bind object_within fun o => ?_
  cases o.format
  case fixedIndexable => exact .bind instanceSpec_within fun _ => .pure
  case weak => exact .bind instanceSpec_within fun _ => .pure
  all_goals exact .pure

theorem indexableSize_within : Within R (indexableSize v) := by
  refine .ite .pure (.bind isContext_within fun _ => ?_)
  refine .ite (.bind fetchInt_within fun _ => .pure) (.bind object_within fun o => ?_)
  cases o.format
  case indexable => exact .bind fixedFields_within fun _ => .pure
  case fixedIndexable => exact .bind fixedFields_within fun _ => .pure
  case weak => exact .bind fixedFields_within fun _ => .pure
  all_goals exact .pure

theorem specialSelector_within : Within R (specialSelector i) :=
  .bind special_within fun _ => fetch_within

theorem characterFor_within : Within R (characterFor i) :=
  .bind special_within fun _ => fetch_within

theorem activeProcess_within : Within R activeProcess :=
  .bind (.bind special_within fun _ => fetch_within) fun _ => fetch_within

theorem isAncestorWithin_within {ancestor : Value} {hops : Nat} :
    Within R (isAncestorWithin ancestor hops v) := by
  induction hops generalizing v with
  | zero =>
    unfold isAncestorWithin
    exact .ite .pure (.bind nil_within fun _ => .ite .pure .throw)
  | succ hops ih =>
    unfold isAncestorWithin
    exact .ite .pure (.bind nil_within fun _ => .ite .pure (.bind fetch_within fun _ => ih))

theorem fetch_error {m m' : Machine} {e : Fault} (h : fetch v i m = .error e m') : m = m' := by
  change ofExcept (m.memory.field .pointerIndex v i) m = .error e m' at h
  cases hx : m.memory.field .pointerIndex v i with
  | ok x => simp [hx, ofExcept, Pure.pure, EStateM.pure] at h
  | error f =>
    rw [hx] at h
    change EStateM.Result.error f m = .error e m' at h
    simp only [EStateM.Result.error.injEq] at h
    exact h.2

theorem isAncestor_within {ancestor : Value} : Within R (isAncestor ancestor v) :=
  .bind get_within fun _ => isAncestorWithin_within

end

end Action

namespace Attempt

open Smalltalk.Action

variable {R : Machine → Machine → Prop} {v : Value} {depth : Nat}

section
variable [Std.Refl R]

theorem stackValue_stays : Stays R (stackValue depth) := .lift stackValue_within

theorem fieldOf_stays {o : Object} {i : Nat} : Stays R (fieldOf o i) := .ofOption

variable [IsTrans Machine R]

theorem stackInteger_stays : Stays R (stackInteger depth) := stackValue_stays.bind fun _ => .ofOption

theorem stackObject_stays : Stays R (stackObject depth) :=
  stackValue_stays.bind fun _ => Stays.require.bind fun _ => .pure

theorem natural_stays {n : Int} : Stays R (natural n) := Stays.require.bind fun _ => .pure

theorem positive32Value_stays : Stays R (positive32Value v) := by
  cases v with
  | small n => exact Stays.require.bind fun _ => .pure
  | ref index generation =>
    refine (Stays.lift isInstanceOf_within).bind fun _ => Stays.require.bind fun _ => ?_
    refine (Stays.lift object_within).bind fun _ => Stays.ofOption.bind fun _ => ?_
    exact Stays.require.bind fun _ => .pure

theorem stackPositive32_stays : Stays R (stackPositive32 depth) :=
  stackValue_stays.bind fun _ => positive32Value_stays

theorem floatValue_stays : Stays R (floatValue v) := by
  refine (Stays.lift isInstanceOf_within).bind fun _ => Stays.require.bind fun _ => ?_
  refine (Stays.lift object_within).bind fun o => ?_
  cases o.body with
  | float bits => exact .pure
  | words ws =>
    obtain ⟨ws⟩ := ws
    rcases ws with _ | ⟨high, _ | ⟨low, _ | ⟨more, ws⟩⟩⟩
    · exact .decline
    · exact .decline
    · exact .pure
    · exact .decline
  | none => exact .decline
  | bytes bs => exact .decline

theorem stackFloat_stays : Stays R (stackFloat depth) := stackValue_stays.bind fun _ => floatValue_stays

theorem textValue_stays : Stays R (textValue v) := by
  refine (Stays.lift object?_within).bind fun _ => Stays.ofOption.bind fun _ => ?_
  exact Stays.require.bind fun _ => Stays.ofOption.bind fun _ => .pure

theorem stackPath_stays : Stays R (stackPath depth) := stackValue_stays.bind fun _ => textValue_stays

theorem stackHandle_stays : Stays R (stackHandle depth) :=
  stackInteger_stays.bind fun _ => Stays.require.bind fun _ => .pure

theorem stackByteRange_stays : Stays R (stackByteRange depth) := by
  refine stackObject_stays.bind fun _ => stackInteger_stays.bind fun _ => ?_
  refine stackInteger_stays.bind fun _ => (Stays.lift object_within).bind fun _ => ?_
  refine Stays.require.bind fun _ => natural_stays.bind fun _ => natural_stays.bind fun _ => ?_
  exact Stays.require.bind fun _ => .pure

theorem hostHandle_stays {guest : Nat} : Stays R (hostHandle guest) :=
  Stays.get.bind fun _ => .pure

theorem integer32_stays : Stays R (integer32 v) :=
  Stays.ofOption.bind fun _ => Stays.require.bind fun _ => .pure

theorem wordsOf?_stays : Stays R (wordsOf? v) := (Stays.lift object?_within).bind fun _ => .pure

theorem loadForm_stays : Stays R (loadForm v) := by
  refine (Stays.lift object?_within).bind fun _ => Stays.ofOption.bind fun o => ?_
  refine Stays.require.bind fun _ => fieldOf_stays.bind fun _ => integer32_stays.bind fun _ => ?_
  refine fieldOf_stays.bind fun _ => integer32_stays.bind fun _ => ?_
  refine fieldOf_stays.bind fun _ => integer32_stays.bind fun _ => ?_
  refine Stays.require.bind fun _ => fieldOf_stays.bind fun _ => wordsOf?_stays.bind fun _ => ?_
  exact Stays.ofOption.bind fun _ => .pure

theorem coordinate_stays {default : Int} : Stays R (coordinate v default) := by
  refine (Stays.lift nil_within).bind fun _ => .ite .pure ?_
  cases v with
  | small n => exact integer32_stays
  | ref index generation =>
    exact floatValue_stays.bind fun _ => Stays.require.bind fun _ => .pure

theorem rectAt_stays {o : Object} {start : Nat} {default : Device.Rect} :
    Stays R (rectAt o start default) := by
  refine fieldOf_stays.bind fun _ => coordinate_stays.bind fun _ => ?_
  refine fieldOf_stays.bind fun _ => coordinate_stays.bind fun _ => ?_
  refine fieldOf_stays.bind fun _ => coordinate_stays.bind fun _ => ?_
  exact fieldOf_stays.bind fun _ => coordinate_stays.bind fun _ => .pure

theorem loadHalftone_stays : Stays R (loadHalftone v) := by
  refine (Stays.lift nil_within).bind fun _ => .ite .pure (wordsOf?_stays.bind fun words => ?_)
  cases words with
  | some words => exact .pure
  | none => exact loadForm_stays.bind fun _ => .pure

theorem alphaFor_stays {rule : Int} {alpha : Option Int} : Stays R (alphaFor rule alpha) :=
  .ite (Stays.ofOption.bind fun _ => Stays.require.bind fun _ => .pure) .pure

theorem loadBlit_stays {alpha : Option Int} : Stays R (loadBlit v alpha) := by
  refine (Stays.lift object?_within).bind fun _ => Stays.ofOption.bind fun o => ?_
  refine Stays.require.bind fun _ => fieldOf_stays.bind fun _ => integer32_stays.bind fun rule => ?_
  refine Stays.require.bind fun _ => (Stays.lift nil_within).bind fun nil => ?_
  refine fieldOf_stays.bind fun _ => loadForm_stays.bind fun dest => ?_
  refine fieldOf_stays.bind fun sourceForm => ?_
  refine Stays.join (fun jp => .ite (Stays.pure.bind jp) (loadForm_stays.map.bind jp))
    fun source => ?_
  refine fieldOf_stays.bind fun _ => loadHalftone_stays.bind fun halftone => ?_
  refine rectAt_stays.bind fun destRect => ?_
  refine Stays.join (fun jp => .ite (fieldOf_stays.bind fun _ => coordinate_stays.bind jp)
    (Stays.pure.bind jp)) fun sourceX => ?_
  refine Stays.join (fun jp => .ite (fieldOf_stays.bind fun _ => coordinate_stays.bind jp)
    (Stays.pure.bind jp)) fun sourceY => ?_
  refine rectAt_stays.bind fun _ => (Stays.lift ofExcept_within).bind fun _ => ?_
  cases o.pointers[14]? with
  | none => exact Stays.pure.bind fun _ => alphaFor_stays.bind fun _ => .pure
  | some map =>
    refine Stays.join (fun jp => .ite (Stays.pure.bind jp) (Stays.bind (.map ?_) jp)) fun _ =>
      alphaFor_stays.bind fun _ => .pure
    exact wordsOf?_stays.bind fun _ => .ofOption

theorem byteToPut_stays {asCharacters : Bool} : Stays R (byteToPut v asCharacters) := by
  cases asCharacters with
  | true =>
    refine (Stays.lift isInstanceOf_within).bind fun _ => Stays.require.bind fun _ => ?_
    refine (Stays.lift fetch_within).bind fun _ => Stays.ofOption.bind fun _ => ?_
    exact Stays.require.bind fun _ => .pure
  | false => exact Stays.ofOption.bind fun _ => Stays.require.bind fun _ => .pure

theorem cachedEntry_stays {access : Access} : Stays R (cachedEntry access v) :=
  (Stays.lift object_within).bind fun _ => Stays.get.bind fun _ => .ofOption

end

theorem orDecline_stays {α : Type} {y : Action α} (hok : Within R y)
    (herror : ∀ m e m', y m = .error e m' → R m m') : Stays R (orDecline y) := by
  refine ⟨fun m a m' hrun => ?_, fun m m' hrun => ?_⟩
  · simp only [orDecline] at hrun
    cases h : y m with
    | ok b m₁ =>
      simp only [h, EStateM.Result.ok.injEq] at hrun
      rw [← hrun.2]
      exact hok m b m₁ h
    | error e m₁ => simp [h] at hrun
  · simp only [orDecline] at hrun
    cases h : y m with
    | ok b m₁ => simp [h] at hrun
    | error e m₁ =>
      simp only [h, EStateM.Result.error.injEq, true_and] at hrun
      rw [← hrun]
      exact herror m e m₁ h

theorem instanceSpec_stays [Std.Refl R] [IsTrans Machine R] : Stays R (orDecline (instanceSpec v)) := by
  refine orDecline_stays instanceSpec_within fun m e m' h => ?_
  rcases bind_error.1 h with h | ⟨k, m₁, -, h⟩
  · rcases bind_error.1 h with h | ⟨x, m₁, hx, h⟩
    · rw [fetch_error h]
      exact Std.Refl.refl m'
    · obtain ⟨-, rfl⟩ := fetch_ok.1 hx
      cases x with
      | small k => exact absurd h (by simp [Pure.pure, EStateM.pure])
      | ref index generation =>
        change EStateM.Result.error _ m = .error e m' at h
        simp only [EStateM.Result.error.injEq] at h
        rw [h.2]
        exact Std.Refl.refl m'
  · exact absurd h (by simp [Pure.pure, EStateM.pure])

/-! ### Answering -/

variable {n : Nat}

theorem answer_certain : Certain (answer n v) := .bind .lift fun _ => .pure

theorem answerTruth_certain {b : Bool} : Certain (answerTruth n b) :=
  .bind .lift fun _ => answer_certain

theorem stackValue_certain : Certain (stackValue depth) := .lift

theorem onDevices_certain {α : Type} {f : Device.Devices → α × Device.Devices} :
    Certain (onDevices f) := fun _ _ hrun => absurd hrun (by simp [onDevices])

theorem newPositive32_yields [Std.Refl R] [IsTrans Machine R] : Yields R (newPositive32 n) :=
  .bind .require fun _ => .lift

/-! ### Using devices -/

open Machine

theorem onDevices_stays {α : Type} {f : Device.Devices → α × Device.Devices} :
    Stays Undone (onDevices f) := by
  refine ⟨fun m a m' hrun => ?_, onDevices_certain.yields⟩
  simp only [onDevices, EStateM.Result.ok.injEq] at hrun
  rw [← hrun.2]
  exact .of_memory rfl rfl rfl rfl rfl

theorem modify_stays {g : Machine → Machine} (hg : ∀ m, Undone m (g m)) :
    Stays Undone (modify g : Attempt Unit) := by
  refine ⟨fun m a m' hrun => ?_, Certain.modify.yields⟩
  obtain rfl := modify_ok.1 hrun
  exact hg m

theorem onFiles_stays {α : Type} {f : Device.FileSystem → Option (α × Device.FileSystem)} :
    Stays Undone (onFiles f) := by
  refine Stays.get.bind fun _ => Stays.ofOption.bind fun found => ?_
  obtain ⟨a, files⟩ := found
  refine Stays.bind (modify_stays fun m => ?_) fun _ => .pure
  exact .of_memory rfl rfl rfl rfl rfl

theorem changeFiles_stays {f : Device.FileSystem → Option Device.FileSystem} :
    Stays Undone (changeFiles f) := onFiles_stays

theorem lookup_within {selector cls : Value} : Within Undone (lookup selector cls) := by
  intro m e m' hrun
  simp only [lookup] at hrun
  split at hrun
  · simp only [EStateM.Result.ok.injEq] at hrun
    rw [← hrun.2]
    exact .of_memory rfl rfl rfl rfl rfl
  · exact absurd hrun (by simp)

theorem checkArity_stays {selector cls : Value} : Stays Undone (checkArity selector cls n) := by
  refine (Stays.lift lookup_within).bind fun found => ?_
  cases found with
  | none => exact .pure
  | some e =>
    refine Stays.get.bind fun _ => (Stays.lift (.of_eq fun _ _ _ h => ?_)).bind fun _ => .require
    exact (ofExcept_ok.1 h).2

theorem atEntry_within {access : Access} {mode : AccessMode} :
    Within Undone (atEntry access v mode) := by
  refine .bind fixedFields_within fun _ => .bind indexableSize_within fun _ => ?_
  refine .bind object_within fun _ => .bind specialSelector_within fun _ => ?_
  refine .bind classOf_within fun _ => .bind get_within fun _ => .ite ?_ .pure
  refine .bind isContext_within fun _ => .ite (.bind object_within fun _ => ?_) .pure
  refine .bind (fun m u m' hrun => ?_) fun _ => .pure
  obtain rfl := modify_ok.1 hrun
  exact .of_memory rfl rfl rfl rfl rfl

/-! ### Elements -/

section
variable [Std.Refl R] [IsTrans Machine R] {slot : Nat} {x : Value} {entry : AtEntry}
  {mode : AccessMode}

theorem elementAt_yields : Yields R (elementAt v slot entry mode) := by
  refine .bind (.lift object_within) fun o => ?_
  split
  · exact Stays.ofOption.declined
  · cases o.format
    case words => exact .bind .ofOption fun _ => .lift
    case bytes =>
      refine .bind .ofOption fun _ => ?_
      split
      · exact .lift
      · exact Stays.pure.declined
    case method => exact .bind .require fun _ => .bind .ofOption fun _ => Stays.pure.declined
    all_goals exact Stays.ofOption.declined

theorem putPointer_yields : Yields R (putPointer v slot x) :=
  .bind (.lift object_within) fun _ => .bind .require fun _ => .lift

theorem putByte_yields {byte : UInt8} : Yields R (putByte v slot byte) :=
  .bind (.lift object_within) fun _ => .bind .ofOption fun _ => .bind .require fun _ => .lift

theorem putWord_yields {word : UInt32} : Yields R (putWord v slot word) :=
  .bind (.lift object_within) fun _ => .bind .ofOption fun _ => .bind .require fun _ => .lift

theorem elementPut_yields : Yields R (elementPut v slot x entry mode) := by
  refine .bind (.lift object_within) fun o => ?_
  split
  · exact putPointer_yields
  · cases o.format
    case words => exact .bind positive32Value_stays fun _ => putWord_yields
    case bytes => exact .bind byteToPut_stays fun _ => putByte_yields
    case method =>
      exact .bind byteToPut_stays fun _ => .bind .require fun _ => putByte_yields
    all_goals exact putPointer_yields

end

section
variable {mode : AccessMode}

theorem floatElement_yields [Std.Refl R] [IsTrans Machine R] {index : Nat} : Yields R (do
    let bits ← floatValue v
    match index with
    | 1 => Action.positive32 (bits >>> 32).toNat
    | 2 => Action.positive32 (bits &&& 0xFFFFFFFF).toNat
    | _ => decline) := by
  refine .bind floatValue_stays fun bits => ?_
  split
  · exact .lift
  · exact .lift
  · exact Stays.decline.declined

/-- The bytecode for reading looks at no more than it needs. -/
theorem indexedAt_true_yields [Std.Refl R] [IsTrans Machine R] : Yields R (indexedAt true mode) := by
  refine .bind stackObject_stays fun array => .bind stackPositive32_stays fun index => ?_
  refine .bind (.lift isInstanceOf_within) fun b => ?_
  exact .bind cachedEntry_stays fun entry => .bind .require fun _ => elementAt_yields

theorem indexedAt_false_yields : Yields Undone (indexedAt false mode) := by
  refine .bind stackObject_stays fun array => .bind stackPositive32_stays fun index => ?_
  refine .bind (.lift isInstanceOf_within) fun b => ?_
  cases b with
  | true => exact floatElement_yields
  | false =>
    exact .bind (.lift atEntry_within) fun entry => .bind .require fun _ => elementAt_yields

theorem indexedAtPut_true_yields [Std.Refl R] [IsTrans Machine R] :
    Yields R (indexedAtPut true mode) := by
  refine .bind stackObject_stays fun array => .bind stackPositive32_stays fun index => ?_
  refine .bind stackValue_stays fun x => .bind cachedEntry_stays fun entry => ?_
  exact .bind .require fun _ => .certain elementPut_yields fun _ => .pure

theorem indexedAtPut_false_yields : Yields Undone (indexedAtPut false mode) := by
  refine .bind stackObject_stays fun array => .bind stackPositive32_stays fun index => ?_
  refine .bind stackValue_stays fun x => .bind (.lift atEntry_within) fun entry => ?_
  exact .bind .require fun _ => .certain elementPut_yields fun _ => .pure

end

/-! ### Blocks and performing -/

section
variable [Std.Refl R] [IsTrans Machine R]

theorem blockCopy_yields : Yields R Attempt.blockCopy := by
  refine .bind stackObject_stays fun context => .bind stackValue_stays fun argCount => ?_
  refine .bind .require fun _ => .bind (.lift isContext_within) fun _ => ?_
  refine .bind .require fun _ => .bind (.lift fetch_within) fun slot => ?_
  refine .join (fun jp => .ite (.bind (.lift fetch_within) jp) (.bind .pure jp)) fun home => ?_
  refine Certain.yields (.bind .lift fun _ => .bind .lift fun _ => .bind .lift fun _ => ?_)
  refine .bind .lift fun _ => .bind .lift fun _ => .bind .lift fun _ => .bind .lift fun _ => ?_
  refine .bind .lift fun _ => .bind .lift fun _ => .bind .lift fun _ => .bind .lift fun _ => ?_
  exact .bind .lift fun _ => .bind .lift fun _ => .bind .modify fun _ => .pure

theorem blockValue_yields : Yields R (Attempt.blockValue n) := by
  refine .bind stackValue_stays fun block => .bind (.lift isInstanceOf_within) fun _ => ?_
  refine .bind .require fun _ => .bind (.lift fetch_within) fun _ => ?_
  refine .bind .ofOption fun _ => .bind .require fun _ => .bind (.lift fetch_within) fun _ => ?_
  refine .bind (.lift nil_within) fun _ => .bind .require fun _ => ?_
  refine .bind (.lift object_within) fun _ => .bind .require fun _ => Certain.yields ?_
  refine .bind .lift fun _ => .bind .lift fun _ => .bind .lift fun _ => ?_
  refine .bind (.forM fun _ => .lift) fun _ => .bind .lift fun _ => .bind .lift fun _ => ?_
  exact .bind .lift fun _ => .bind .lift fun _ => .lift

end

theorem performWithArray_yields {cls : Value} {extra : Nat} :
    Yields Undone (performWithArray cls extra) := by
  refine .bind stackObject_stays fun _ => .bind stackObject_stays fun _ => ?_
  refine .bind (.lift object_within) fun _ => .bind .require fun _ => ?_
  refine .bind (.lift registers_within) fun _ => .bind (.lift object_within) fun _ => ?_
  refine .bind .require fun _ => .bind checkArity_stays fun _ => Certain.yields ?_
  exact .bind .lift fun _ => .bind (.forM fun _ => .lift) fun _ => .pure

/-! ### Directory entries -/

/-- An attempt whose answer may be pinned. -/
structure Boxes (x : Attempt Value) : Prop extends Stays Undone x where
  proper : ∀ m v m', x m = .ok v m' → ∀ s, m.Sound s → m'.Proper v

theorem positive32_boxes : Boxes (liftM (Action.positive32 n)) := by
  refine ⟨.lift fun m v m' hrun => ?_, fun m v m' hrun s hs => ?_⟩
  · cases hn : Value.ofInt? n with
    | some x =>
      simp only [Action.positive32, hn, pure_ok] at hrun
      rw [← hrun.2]
      exact .refl m
    | none =>
      simp only [Action.positive32, hn, bind_ok, special_ok] at hrun
      obtain ⟨_, _, ⟨rfl, rfl⟩, hrun⟩ := hrun
      exact .of_allocate rfl (fun s hs => hs.anchored_special _) hrun
  · exact (hs.positive32 v m' (lift_ok.1 hrun)).proper

theorem makeString_boxes {text : String} : Boxes (liftM (Action.makeString text)) := by
  refine ⟨.lift fun m v m' hrun => ?_, fun m v m' hrun s hs => ?_⟩
  · obtain ⟨cls, _, hcls, hrun⟩ := bind_ok.1 hrun
    obtain ⟨rfl, rfl⟩ := special_ok.1 hcls
    exact .of_allocate rfl (fun s hs => hs.anchored_special _) hrun
  · exact (hs.makeString v m' (lift_ok.1 hrun)).proper

theorem Boxes.after {α : Type} {y : Attempt α} {g : α → Attempt Value} (hy : Stays Eq y)
    (hg : ∀ a, Boxes (g a)) : Boxes (y >>= g) := by
  refine ⟨(hy.mono fun m m' e => e ▸ .refl m).bind fun a => (hg a).toStays, ?_⟩
  intro m v m' hrun s hs
  obtain ⟨a, m₁, h, hrun⟩ := bind_ok.1 hrun
  obtain rfl := hy.ok m a m₁ h
  exact (hg a).proper m v m' hrun s hs

theorem newPositive32_boxes : Boxes (newPositive32 n) := .after .require fun _ => positive32_boxes

theorem secondsValue_boxes {seconds : Int} : Boxes (secondsValue seconds) :=
  .after natural_stays fun _ => newPositive32_boxes

/-- What is made and pinned can be undone. -/
theorem Boxes.pinned {x : Attempt Value} {f : Value → Attempt Value} (hx : Boxes x)
    (hf : ∀ v, Yields Undone (f v)) : Yields Undone (do
      let v ← x
      pinValue v
      f v) := by
  intro m m' hrun
  rcases bind_error.1 hrun with h | ⟨v, m₁, h, hrun⟩
  · exact hx.declined m m' h
  · rcases bind_error.1 hrun with h' | ⟨u, m₂, h', hrun⟩
    · exact absurd h' lift_declined
    · obtain rfl := modifyMemory_ok.1 (lift_ok.1 h')
      exact ((hx.ok m v m₁ h).pinned (hx.proper m v m₁ h)).trans (hf v _ m' hrun)

theorem buildEntry_yields {e : Device.Devices.EntryInfo} : Yields Undone (buildEntry e) := by
  refine makeString_boxes.pinned fun name => secondsValue_boxes.pinned fun created => ?_
  refine secondsValue_boxes.pinned fun modified => newPositive32_boxes.pinned fun size => ?_
  exact Certain.yields (.bind .lift fun _ => .bind .lift fun _ => .lift)

theorem entryArray_yields {e : Device.Devices.EntryInfo} : Yields Undone (entryArray e) := by
  intro m m' hrun
  simp only [entryArray] at hrun
  cases h : buildEntry e m with
  | ok v m₁ => simp [h] at hrun
  | error r m₁ =>
    simp only [h, EStateM.Result.error.injEq] at hrun
    obtain ⟨rfl, rfl⟩ := hrun
    exact (buildEntry_yields m m₁ h).released

end Attempt

end Smalltalk
