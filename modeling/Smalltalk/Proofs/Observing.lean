import Smalltalk.Proofs.Circles

/-!
# What only looks

Most of what an action does is to look at the machine: it reads fields, asks for classes and works out
sizes. All of that leaves the machine exactly as it is, also where it ends in a fault or is declined, so
nothing else has to be known about it when a property of machines is carried along. And it makes no
immediate integers of numbers that it computes, so it never ends because one of them is too great.
-/

namespace Smalltalk

-- each part of a `do` block is an instance of its own
set_option synthInstance.maxSize 4000

/-! ### Rejected numbers -/

/-- Some errors say of a number that it is no immediate integer, though one was to be made of it. -/
class Rejects (ε : Type) where
  /-- The number that is rejected. -/
  rejected? : ε → Option Int

open Rejects

instance : Rejects Fault where
  rejected?
    | .panic (.notImmediate n) => some n
    | _ => none

instance : Rejects Refusal where
  rejected?
    | .declined => none
    | .fault f => rejected? f

theorem Fault.rejected?_eq_some {f : Fault} {n : Int} :
    rejected? f = some n ↔ f = .panic (.notImmediate n) := by
  constructor
  · intro h
    cases f with
    | panic p =>
      cases p with
      | notImmediate k => rw [Option.some.inj h]
      | _ => exact nomatch h
    | _ => exact nomatch h
  · rintro rfl
    rfl

theorem Fault.rejected?_of_ordinary {f : Fault} (h : f.Ordinary) : rejected? f = none := by
  cases f with
  | endlessChain | endlessResend | panic => exact h.elim
  | _ => rfl

/-- A computation that may fail rejects no number. -/
class Checked.Accepts {α : Type} (x : Except Fault α) : Prop where
  error : ∀ {f}, x = .error f → rejected? f = none

namespace Checked.Accepts

variable {α β : Type}

instance {x : Except Fault α} [hx : Checked.Ordinary x] : Checked.Accepts x :=
  ⟨fun h => Fault.rejected?_of_ordinary (hx.error h)⟩

instance {x : Except Fault α} {g : α → Except Fault β} [hx : Checked.Accepts x]
    [hg : ∀ a, Checked.Accepts (g a)] : Checked.Accepts (x >>= g) where
  error h := by
    rcases Checked.bind_error.1 h with h | ⟨a, -, h⟩
    · exact hx.error h
    · exact (hg a).error h

instance {c : Prop} [Decidable c] {x y : Except Fault α} [Checked.Accepts x] [Checked.Accepts y] :
    Checked.Accepts (if c then x else y) := by
  split <;> infer_instance

instance {width : Width} {n : Int} : Checked.Accepts (width.check n) where
  error h := by
    rw [(Width.check_error h).1]
    rfl

instance {memory : Memory} : Checked.Accepts memory.spaceLeft := by
  unfold Memory.spaceLeft
  infer_instance

instance {i : Interrupts} {settings : MachineSettings} {now : Int} :
    Checked.Accepts (i.sample settings now) := by
  unfold Interrupts.sample Interrupts.wakeupAfter Interrupts.resetAfter
  infer_instance

instance {r bounds : Device.Rect} : Checked.Accepts (r.clipTo bounds) := by
  unfold Device.Rect.clipTo Device.farEnd Device.extent
  infer_instance

end Checked.Accepts

/-! ### Computations that only look -/

/-- A computation leaves the state as it is, however it ends, and rejects no number. -/
class Observes {ε σ α : Type} [Rejects ε] (x : EStateM ε σ α) : Prop where
  unchanged : ∀ s, match x s with
    | .ok _ s' => s' = s
    | .error e s' => s' = s ∧ rejected? e = none

namespace Observes

variable {ε σ α β : Type} [Rejects ε] {x : EStateM ε σ α} {s s' : σ}

theorem of_ok [hx : Observes x] {a : α} (h : x s = .ok a s') : s' = s := by
  have := hx.unchanged s
  rwa [h] at this

theorem of_error [hx : Observes x] {e : ε} (h : x s = .error e s') : s' = s ∧ rejected? e = none := by
  have := hx.unchanged s
  rwa [h] at this

instance bind {f : α → EStateM ε σ β} [hx : Observes x] [hf : ∀ a, Observes (f a)] :
    Observes (x >>= f) where
  unchanged s := by
    change match EStateM.bind x f s with
      | .ok _ s' => s' = s
      | .error e s' => s' = s ∧ rejected? e = none
    rw [EStateM.bind]
    cases hrun : x s with
    | ok a s₁ =>
      obtain rfl := of_ok hrun
      exact (hf a).unchanged s₁
    | error e s₁ => exact of_error hrun

/-- The rest of a computation, where a case split stands in its way. -/
theorem after {f : α → EStateM ε σ β} [Observes x] (hf : ∀ a, Observes (f a)) : Observes (x >>= f) :=
  bind

instance map {f : α → β} [hx : Observes x] : Observes (f <$> x) where
  unchanged s := by
    change match EStateM.map f x s with
      | .ok _ s' => s' = s
      | .error e s' => s' = s ∧ rejected? e = none
    rw [EStateM.map]
    cases hrun : x s with
    | ok a s₁ => exact of_ok hrun
    | error e s₁ => exact of_error hrun

instance pure {a : α} : Observes (Pure.pure a : EStateM ε σ α) := ⟨fun _ => rfl⟩

instance get : Observes (MonadState.get : EStateM ε σ σ) := ⟨fun _ => rfl⟩

theorem throw {e : ε} (h : rejected? e = none) : Observes (MonadExcept.throw e : EStateM ε σ α) :=
  ⟨fun _ => ⟨rfl, h⟩⟩

instance ite {c : Prop} [Decidable c] {y : EStateM ε σ α} [Observes x] [Observes y] :
    Observes (if c then x else y) := by
  split <;> infer_instance

theorem branch {c : Prop} [Decidable c] {y : EStateM ε σ α} (hx : Observes x) (hy : Observes y) :
    Observes (if c then x else y) := ite

/-- Where several branches go on in the same way, that way is looked at once. -/
theorem join {jp : α → EStateM ε σ β} {z : EStateM ε σ β}
    (hz : (∀ a, Observes (jp a)) → Observes z) (hjp : ∀ a, Observes (jp a)) : Observes z := hz hjp

end Observes

namespace Action

variable {α : Type} {v w x : Value} {i n : Nat}

/-! ### Fields and the stack -/

instance {flaw : Flaw} : Observes (throw (.malformed flaw v) : Action α) := .throw rfl

instance : Observes (throw (.cannotReturn v) : Action α) := .throw rfl

instance : Observes (throw (.endlessChain v) : Action α) := .throw rfl

instance {y : Except Fault α} [hy : Checked.Accepts y] : Observes (ofExcept y) := by
  cases y with
  | ok a => exact Observes.pure
  | error f => exact Observes.throw (hy.error rfl)

instance : Observes registers := by unfold registers; infer_instance

instance : Observes nil := by unfold nil; infer_instance

instance {b : Bool} : Observes (truth b) := by unfold truth; infer_instance

instance : Observes (special i) := by unfold special; infer_instance

instance : Observes (object v) := by unfold object; infer_instance

instance : Observes (object? v) := by unfold object?; infer_instance

instance : Observes (fetch v i) := by unfold fetch; infer_instance

instance : Observes (fetchInt v i) := by
  unfold fetchInt
  refine .after fun x => ?_
  split <;> infer_instance

instance : Observes (classOf v) := by
  unfold classOf
  split <;> infer_instance

instance : Observes (isInstanceOf v i) := by
  unfold isInstanceOf
  refine .after fun found => ?_
  split <;> infer_instance

instance : Observes (instanceSpec v) := by unfold instanceSpec; infer_instance

instance : Observes (stackValue n) := by unfold stackValue; infer_instance

instance : Observes top := by unfold top; infer_instance

instance : Observes (stackValues n) := by
  induction n with
  | zero => unfold stackValues; infer_instance
  | succ n ih => unfold stackValues; infer_instance

/-! ### Processes -/

instance : Observes scheduler := by unfold scheduler; infer_instance

instance : Observes activeProcess := by unfold activeProcess; infer_instance

instance : Observes (priority v) := by unfold priority; infer_instance

instance : Observes (isEmptyList v) := by unfold isEmptyList; infer_instance

/-! ### Indexed objects -/

instance : Observes (isContext v) := by unfold isContext; infer_instance

instance : Observes (fixedFields v) := by
  unfold fixedFields
  refine .after fun o => ?_
  split <;> infer_instance

instance : Observes (indexableSize v) := by
  unfold indexableSize
  split
  · infer_instance
  · refine .after fun context => ?_
    split
    · infer_instance
    · refine .after fun o => ?_
      split <;> infer_instance

instance : Observes (specialSelector i) := by unfold specialSelector; infer_instance

instance : Observes (characterFor i) := by unfold characterFor; infer_instance

/-! ### Chains -/

instance : Observes (isAncestorWithin v n w) := by
  induction n generalizing w with
  | zero => unfold isAncestorWithin; infer_instance
  | succ n ih => unfold isAncestorWithin; infer_instance

instance : Observes (isAncestor v w) := by unfold isAncestor; infer_instance

instance : Observes (assertFrame v) := by
  have : Observes (throw (.panic (.shortBlock v)) : Action PUnit) := .throw rfl
  unfold assertFrame
  infer_instance

instance : Observes (senderPathWithin v n w) := by
  induction n generalizing w with
  | zero => unfold senderPathWithin; infer_instance
  | succ n ih => unfold senderPathWithin; infer_instance

instance : Observes (senderPath v) := by unfold senderPath; infer_instance

/-! ### The active method -/

instance : Observes peekByte := by unfold peekByte; infer_instance

instance : Observes (literal i) := by unfold literal; infer_instance

instance {place : Variable} : Observes (readVariable place) := by
  cases place <;> (unfold readVariable; infer_instance)

instance {c : Constant} : Observes (constantValue c) := by
  cases c <;> (unfold constantValue; infer_instance)

end Action

namespace Attempt

open Device

variable {α : Type} {v w x : Value} {i n depth : Nat} {o : Object}

instance {y : Action α} [hy : Observes y] : Observes (ofAction y) where
  unchanged m := by
    unfold ofAction
    cases hrun : y m with
    | ok a m' => exact Observes.of_ok hrun
    | error f m' =>
      have hend := Observes.of_error hrun
      exact hend

instance {y : Action α} [Observes y] : Observes (liftM y : Attempt α) :=
  inferInstanceAs (Observes (ofAction y))

instance {y : Action α} [hy : Observes y] : Observes (orDecline y) where
  unchanged m := by
    unfold orDecline
    cases hrun : y m with
    | ok a m' => exact Observes.of_ok hrun
    | error f m' => exact ⟨(Observes.of_error hrun).1, rfl⟩

instance : Observes (decline : Attempt α) := .throw rfl

instance {p : Prop} [Decidable p] : Observes (require p) := by unfold require; infer_instance

instance {found : Option α} : Observes (ofOption found) := by
  unfold ofOption
  split <;> infer_instance

/-! ### Operands -/

instance : Observes (stackValue depth) := by unfold stackValue; infer_instance

instance : Observes (stackInteger depth) := by unfold stackInteger; infer_instance

instance : Observes (stackObject depth) := by unfold stackObject; infer_instance

instance {k : Int} : Observes (natural k) := by unfold natural; infer_instance

instance : Observes (positive32Value v) := by
  unfold positive32Value
  split <;> infer_instance

instance : Observes (stackPositive32 depth) := by unfold stackPositive32; infer_instance

instance : Observes (floatValue v) := by
  unfold floatValue
  iterate 3 refine .after fun _ => ?_
  rename_i o
  cases o.body with
  | float | none | bytes => infer_instance
  | words ws =>
    obtain ⟨ws⟩ := ws
    rcases ws with _ | ⟨high, _ | ⟨low, _ | ⟨more, ws⟩⟩⟩
    · exact inferInstanceAs (Observes decline)
    · exact inferInstanceAs (Observes decline)
    · exact inferInstanceAs (Observes (pure (high.toUInt64 <<< 32 ||| low.toUInt64)))
    · exact inferInstanceAs (Observes decline)

instance : Observes (stackFloat depth) := by unfold stackFloat; infer_instance

instance : Observes (textValue v) := by unfold textValue; infer_instance

instance {asCharacters : Bool} : Observes (byteToPut v asCharacters) := by
  unfold byteToPut
  infer_instance

instance {access : Access} : Observes (cachedEntry access v) := by unfold cachedEntry; infer_instance

/-! ### Devices and files -/

instance : Observes (integer32 v) := by unfold integer32; infer_instance

instance : Observes (wordsOf? v) := by unfold wordsOf?; infer_instance

instance : Observes (fieldOf o i) := by unfold fieldOf; infer_instance

instance : Observes (loadForm v) := by unfold loadForm; infer_instance

instance {default : Int} : Observes (coordinate v default) := by
  unfold coordinate
  refine .after fun nil => ?_
  split
  · infer_instance
  · split <;> infer_instance

instance {default : Rect} : Observes (rectAt o i default) := by unfold rectAt; infer_instance

instance : Observes (loadHalftone v) := by
  unfold loadHalftone
  refine .after fun nil => ?_
  split
  · infer_instance
  · refine .after fun words => ?_
    split <;> infer_instance

instance {rule : Int} {alpha : Option Int} : Observes (alphaFor rule alpha) := by
  unfold alphaFor
  infer_instance

instance {alpha : Option Int} : Observes (loadBlit v alpha) := by
  unfold loadBlit
  iterate 10 refine .after fun _ => ?_
  refine .join (fun jp => .branch (.after jp) (.after jp)) fun source => ?_
  iterate 3 refine .after fun _ => ?_
  refine .join (fun jp => .branch (.after fun _ => .after jp) (.after jp)) fun sourceX => ?_
  refine .join (fun jp => .branch (.after fun _ => .after jp) (.after jp)) fun sourceY => ?_
  refine .after fun clip => ?_
  dsimp only
  split <;> infer_instance

instance : Observes (stackHandle depth) := by unfold stackHandle; infer_instance

instance : Observes (stackPath depth) := by unfold stackPath; infer_instance

instance : Observes (stackByteRange depth) := by unfold stackByteRange; infer_instance

instance : Observes (hostHandle n) := by unfold hostHandle; infer_instance

end Attempt

namespace Primitive

instance : Observes workingDirectory := by unfold workingDirectory; infer_instance

instance : Observes spaceLeft := by unfold spaceLeft; infer_instance

instance {i : Nat} : Observes (receiverOf i) := by unfold receiverOf; infer_instance

end Primitive

end Smalltalk
