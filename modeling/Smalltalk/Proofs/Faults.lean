import Smalltalk.Proofs.Circles
import Smalltalk.Proofs.Declining

/-!
# Where faults come from

Nearly all faults say that some value has not the shape that it should have. Two of them say that the
machine would never have come to an end: that a chain was followed further than there are objects, and
that a send was handed on again and again. Here every action is looked through for the faults it can
end with. The first of the two means that there is a circle, and the second cannot come from anything
but a send. A panic means that a number does not fit where it is to go, or that a block is too short.
-/

namespace Smalltalk

-- each part of a `do` block is an instance of its own
set_option synthInstance.maxSize 4000

/-- A computation fails only with errors, and in states, that satisfy `P`. -/
class Raises {ε σ α : Type} (P : ε → σ → Prop) (x : EStateM ε σ α) : Prop where
  error : ∀ {s e s'}, x s = .error e s' → P e s'

namespace Raises

variable {ε σ α β γ : Type} {P : ε → σ → Prop}

instance bind {x : EStateM ε σ α} {f : α → EStateM ε σ β} [hx : Raises P x]
    [hf : ∀ a, Raises P (f a)] : Raises P (x >>= f) where
  error h := by
    rcases Outcome.bind_error.1 h with h | ⟨a, _, -, h⟩
    · exact hx.error h
    · exact (hf a).error h

/-- The rest of a computation, where a case split stands in its way. -/
theorem after {x : EStateM ε σ α} {f : α → EStateM ε σ β} [Raises P x] (hf : ∀ a, Raises P (f a)) :
    Raises P (x >>= f) := bind

instance map {x : EStateM ε σ α} {f : α → β} [hx : Raises P x] : Raises P (f <$> x) where
  error {s e s'} h := by
    change EStateM.map f x s = _ at h
    rw [EStateM.map] at h
    cases hrun : x s with
    | ok a s₁ =>
      rw [hrun] at h
      exact nomatch h
    | error e₁ s₁ =>
      rw [hrun] at h
      obtain ⟨rfl, rfl⟩ := EStateM.Result.error.inj h
      exact hx.error hrun

instance pure {a : α} : Raises P (Pure.pure a : EStateM ε σ α) := ⟨fun h => nomatch h⟩

instance get : Raises P (MonadState.get : EStateM ε σ σ) := ⟨fun h => nomatch h⟩

instance modify {f : σ → σ} : Raises P (modify f : EStateM ε σ Unit) := ⟨fun h => nomatch h⟩

instance ite {c : Prop} [Decidable c] {x y : EStateM ε σ α} [Raises P x] [Raises P y] :
    Raises P (if c then x else y) := by
  split <;> infer_instance

theorem branch {c : Prop} [Decidable c] {x y : EStateM ε σ α} (hx : Raises P x) (hy : Raises P y) :
    Raises P (if c then x else y) := ite

/-- Where several branches go on in the same way, that way is looked at once. -/
theorem join {jp : α → EStateM ε σ β} {z : EStateM ε σ β}
    (hz : (∀ a, Raises P (jp a)) → Raises P z) (hjp : ∀ a, Raises P (jp a)) : Raises P z := hz hjp

theorem mono {Q : ε → σ → Prop} {x : EStateM ε σ α} (h : Raises P x) (hPQ : ∀ e s, P e s → Q e s) :
    Raises Q x := ⟨fun hrun => hPQ _ _ (h.error hrun)⟩

theorem throw {e : ε} (h : ∀ s, P e s) : Raises P (MonadExcept.throw e : EStateM ε σ α) where
  error {s e' s'} hrun := by
    obtain ⟨rfl, rfl⟩ := EStateM.Result.error.inj hrun
    exact h s

instance forM {xs : List γ} {f : γ → EStateM ε σ PUnit} [∀ a, Raises P (f a)] :
    Raises P (xs.forM f) := by
  induction xs with
  | nil => exact pure
  | cons a xs ih => exact bind

end Raises

/-- What a panic says about the machine it comes up in. -/
def Panic.Founded : Panic → Machine → Prop
  | .overflow width n, _ => ¬ width.Holds n
  | .notImmediate n, _ => ¬ Value.InRange n
  | .shortBlock block, m => ∃ o, m.memory.get? block = some o ∧ o.pointers.size < Context.frameStart

/-- What a fault says about the machine it comes up in. `R` is what has led to a send that is handed on
too often. -/
def Fault.Founded (R : Value → Machine → Prop) : Fault → Machine → Prop
  | .endlessChain v, m =>
    m.memory.Circular Class.superclass v ∨ m.memory.Circular Context.sender v
  | .endlessResend selector, m => R selector m
  | .panic p, m => p.Founded m
  | _, _ => True

/-- A fault that has a reason wherever it comes up. -/
def Fault.Evident (f : Fault) : Prop := ∀ R m, f.Founded R m

variable {R : Value → Machine → Prop} {α : Type}

/-- The chains of a machine are in its slots. -/
theorem Fault.Founded.of_slots {f : Fault} {m m' : Machine} (h : f.Founded (fun _ _ => False) m)
    (e : m'.memory.slots = m.memory.slots) : f.Founded R m' := by
  have hcell : m'.memory.cell = m.memory.cell := by
    funext v i
    rw [Memory.cell, Memory.cell, Memory.get?_congr e]
  cases f with
  | endlessChain v =>
    rw [Founded, Memory.circular_congr hcell, Memory.circular_congr hcell]
    exact h
  | endlessResend selector => exact h.elim
  | panic p =>
    cases p with
    | overflow | notImmediate => exact h
    | shortBlock block =>
      obtain ⟨o, ho, hshort⟩ := h
      exact ⟨o, by rw [Memory.get?_congr e]; exact ho, hshort⟩
  | _ => trivial

/-- What a refusal says about the machine. -/
def Refusal.Founded (R : Value → Machine → Prop) : Refusal → Machine → Prop
  | .declined, _ => True
  | .fault f, m => f.Founded R m

theorem Fault.Ordinary.evident {f : Fault} (h : f.Ordinary) : f.Evident := fun R m => by
  cases f with
  | endlessChain | endlessResend | panic => exact h.elim
  | _ => trivial

/-- A computation fails only with faults that have a reason wherever they come up. -/
class Checked.Evident {α : Type} (x : Except Fault α) : Prop where
  error : ∀ {f}, x = .error f → f.Evident

namespace Checked.Evident

variable {β : Type}

instance {x : Except Fault α} {g : α → Except Fault β} [hx : Checked.Evident x]
    [hg : ∀ a, Checked.Evident (g a)] : Checked.Evident (x >>= g) where
  error h := by
    rcases Checked.bind_error.1 h with h | ⟨a, -, h⟩
    · exact hx.error h
    · exact (hg a).error h

instance {c : Prop} [Decidable c] {x y : Except Fault α} [Checked.Evident x] [Checked.Evident y] :
    Checked.Evident (if c then x else y) := by
  split <;> infer_instance

instance {x : Except Fault α} [hx : Checked.Ordinary x] : Checked.Evident x :=
  ⟨fun h => (hx.error h).evident⟩

instance {width : Width} {n : Int} : Checked.Evident (width.check n) where
  error h := by
    obtain ⟨rfl, hn⟩ := Width.check_error h
    exact fun _ _ => hn

instance {n : Int} : Checked.Evident (Value.immediate n) where
  error h := by
    unfold Value.immediate at h
    split at h
    · exact nomatch h
    · obtain rfl := Except.error.inj h
      exact fun _ _ => ‹¬ Value.InRange n›

instance {memory : Memory} : Checked.Evident memory.spaceLeft := by
  unfold Memory.spaceLeft
  infer_instance

instance {i : Interrupts} {settings : MachineSettings} {now : Int} :
    Checked.Evident (i.sample settings now) := by
  unfold Interrupts.sample Interrupts.wakeupAfter Interrupts.resetAfter
  infer_instance

instance {r bounds : Device.Rect} : Checked.Evident (r.clipTo bounds) := by
  unfold Device.Rect.clipTo Device.farEnd Device.extent
  infer_instance

end Checked.Evident

instance {memory : Memory} {v : Value} : Checked.Ordinary (SpecialObjects.load memory v) := by
  unfold SpecialObjects.load
  infer_instance

theorem Refusal.Founded.of_slots {r : Refusal} {m m' : Machine}
    (h : r.Founded (fun _ _ => False) m) (e : m'.memory.slots = m.memory.slots) :
    r.Founded R m' := by
  cases r with
  | declined => trivial
  | fault f => exact Fault.Founded.of_slots h e

/-- An action that faults only with a reason. -/
abbrev Action.Honest (R : Value → Machine → Prop) (x : Action α) : Prop := Raises (Fault.Founded R) x

/-- An attempt that faults only with a reason. -/
abbrev Attempt.Honest (R : Value → Machine → Prop) (x : Attempt α) : Prop :=
  Raises (Refusal.Founded R) x

namespace Action

variable {v w x : Value} {i n : Nat}

/-! ### Registers, fields and the stack -/

theorem Honest.throw {f : Fault} (h : f.Ordinary) : Honest R (throw f : Action α) :=
  Raises.throw fun m => h.evident R m

instance {value : Value} : Honest R (throw (.invalidReference value) : Action α) := .throw trivial

instance {flaw : Flaw} : Honest R (throw (.malformed flaw v) : Action α) := .throw trivial

instance : Honest R (throw (.cannotReturn v) : Action α) := .throw trivial

instance : Honest R (throw (.recursiveDoesNotUnderstand v) : Action α) := .throw trivial

instance : Honest R (throw .noRunnableProcess : Action α) := .throw trivial

instance : Honest R (throw (.objectTableFull n) : Action α) := .throw trivial

instance {bytecode : UInt8} : Honest R (throw (.badBytecode bytecode n) : Action α) := .throw trivial

instance {x : Except Fault α} [hx : Checked.Evident x] : Honest R (ofExcept x) where
  error {m f m'} h := by
    cases x with
    | ok a => exact nomatch h
    | error f =>
      obtain ⟨rfl, rfl⟩ := EStateM.Result.error.inj h
      exact hx.error rfl R m

instance {k : Int} : Honest R (immediate k) := by unfold immediate; infer_instance

instance {f : Memory → Memory} : Honest R (modifyMemory f) := ⟨fun h => nomatch h⟩

instance {f : Registers → Registers} : Honest R (modifyRegisters f) := ⟨fun h => nomatch h⟩

instance {f : Counters → Counters} : Honest R (modifyCounters f) := ⟨fun h => nomatch h⟩

instance : Honest R registers := by unfold registers; infer_instance

instance : Honest R nil := by unfold nil; infer_instance

instance {b : Bool} : Honest R (truth b) := by unfold truth; infer_instance

instance : Honest R (special i) := by unfold special; infer_instance

instance : Honest R (object v) := by unfold object; infer_instance

instance : Honest R (object? v) := by unfold object?; infer_instance

instance : Honest R (fetch v i) := by unfold fetch; infer_instance

instance : Honest R (store v i x) := by unfold store; infer_instance

instance : Honest R (fetchInt v i) := by
  unfold fetchInt
  refine .after fun found => ?_
  split <;> infer_instance

instance : Honest R (classOf v) := by
  unfold classOf
  split <;> infer_instance

instance : Honest R (isInstanceOf v i) := by
  unfold isInstanceOf
  refine .after fun found => ?_
  split <;> infer_instance

instance : Honest R (instanceSpec v) := by unfold instanceSpec; infer_instance

instance : Honest R (push x) := by unfold push; infer_instance

instance : Honest R (stackValue n) := by unfold stackValue; infer_instance

instance : Honest R top := by unfold top; infer_instance

instance : Honest R (popN n) := by unfold popN; infer_instance

instance : Honest R pop := by
  have hbelow : ¬ Width.natural64.Holds (-1) := by decide
  have : Honest R (throw (.panic (.overflow .natural64 (-1))) : Action PUnit) :=
    Raises.throw fun _ => hbelow
  unfold pop
  infer_instance

instance : Honest R (popThenPush n x) := by unfold popThenPush; infer_instance

instance : Honest R (stackValues n) := by
  induction n with
  | zero => unfold stackValues; infer_instance
  | succ n ih => unfold stackValues; infer_instance

instance : Honest R (loadFrame v w x) := by
  unfold loadFrame
  iterate 7 refine .after fun _ => ?_
  have rest : Honest R (do
      let stored ← fetchInt v Context.stackPointer
      match Context.decodeSp? stored with
      | none => throw (.malformed .stackPointer v)
      | some sp => modifyRegisters fun r => { r with sp }) := by
    refine .after fun stored => ?_
    split <;> infer_instance
  dsimp only
  split <;> infer_instance

instance : Honest R (loadRegisters v) := by
  unfold loadRegisters
  refine .after fun slot => ?_
  split <;> infer_instance

instance : Honest R saveRegisters := by unfold saveRegisters; infer_instance

instance : Honest R (activate v) := by unfold activate; infer_instance

/-! ### Making room and new objects -/

/-- What a change of the memory faults with, the action faults with. -/
theorem honest_onMemory {x : Memory.Change α} (hx : Raises (fun f _ => f.Evident) x) :
    Honest R (onMemory x) where
  error {m f m'} h := by
    unfold onMemory at h
    dsimp only at h
    split at h
    · exact nomatch h
    · rename_i hrun
      obtain ⟨rfl, rfl⟩ := EStateM.Result.error.inj h
      exact hx.error hrun R _

instance {scope : Scope} : Honest R (reclaim scope) := by
  have : Honest R (sweep scope) := ⟨fun h => nomatch h⟩
  unfold reclaim
  infer_instance

instance {giveUps : List Bool} : Honest R (reclaimYoung n giveUps i) := by
  induction giveUps generalizing i with
  | nil => unfold reclaimYoung; infer_instance
  | cons giveUp giveUps ih => unfold reclaimYoung; infer_instance

/-- A growth that does not fit its word is named. -/
theorem growthPanic_evident {memory : Memory} (h : ¬ memory.GrowthFits) :
    memory.growthPanic.Evident := fun _ _ => by
  simp only [Memory.GrowthFits] at h
  simp only [Memory.growthPanic, Fault.Founded, Panic.Founded, Width.Holds, Width.least, Width.greatest]
  omega

instance : Raises (fun (f : Fault) (_ : Memory) => f.Evident) Memory.grow where
  error {memory f _} h := by
    rw [Memory.grow_eq] at h
    split at h
    · exact nomatch h
    · obtain ⟨rfl, -⟩ := EStateM.Result.error.inj h
      exact growthPanic_evident ‹_›

instance : Honest R makeRoom := by
  have := honest_onMemory (R := R) (inferInstance : Raises _ Memory.grow)
  unfold makeRoom
  infer_instance

instance {o : Object} : Raises (fun (f : Fault) (_ : Memory) => f.Evident) (Memory.register o) where
  error {memory f _} h := by
    unfold Memory.register at h
    rw [Memory.registerHashed_eq] at h
    split at h
    · obtain ⟨rfl, -⟩ := EStateM.Result.error.inj h
      exact fun _ _ => trivial
    · split at h
      · rename_i hpanic
        obtain ⟨rfl, -⟩ := EStateM.Result.error.inj h
        exact growthPanic_evident hpanic.2
      · exact nomatch h

instance {o : Object} : Honest R (allocate o) := by
  have := honest_onMemory (R := R) (inferInstance : Raises _ (Memory.register o))
  unfold allocate; infer_instance

instance {values : List Value} {x : Action α} [hx : Honest (fun _ _ => False) x] :
    Honest R (withPins values x) where
  error {m f m'} h := by
    unfold withPins at h
    dsimp only at h
    split at h
    · exact nomatch h
    · rename_i hrun
      obtain ⟨rfl, rfl⟩ := EStateM.Result.error.inj h
      exact (hx.error hrun).of_slots rfl

instance : Honest R (instantiate v n) := by unfold instantiate; infer_instance

/-- What a change of the pool and the memory faults with, the action faults with. -/
theorem honest_onPool {x : EStateM Fault (ContextPool × Memory) α}
    (hx : Raises (fun f _ => f.Evident) x) : Honest R (onPool x) where
  error {m f m'} h := by
    unfold onPool at h
    dsimp only at h
    split at h
    · exact nomatch h
    · rename_i hrun
      obtain ⟨rfl, rfl⟩ := EStateM.Result.error.inj h
      exact hx.error hrun R _

instance {large : Bool} : Raises (fun f _ => f.Evident) (ContextPool.allocate large v w) where
  error {s f s'} h := by
    unfold ContextPool.allocate at h
    dsimp only at h
    split at h
    · rename_i htake
      obtain ⟨rfl, -⟩ := EStateM.Result.error.inj h
      unfold ContextPool.take at htake
      split at htake
      · exact nomatch htake
      · split at htake
        · obtain rfl := Except.error.inj htake
          exact fun _ _ => trivial
        · exact nomatch htake
    · exact nomatch h
    · split at h
      · exact nomatch h
      · rename_i hregister
        obtain ⟨rfl, -⟩ := EStateM.Result.error.inj h
        exact Raises.error (P := fun (f : Fault) (_ : Memory) => f.Evident) hregister

instance {large : Bool} : Honest R (allocateContext large) := by
  unfold allocateContext
  have (cls nil : Value) :=
    honest_onPool (R := R) (inferInstance : Raises _ (ContextPool.allocate large cls nil))
  infer_instance

instance : Honest R (recycleContext v) := by
  unfold recycleContext
  iterate 2 refine .after fun _ => ?_
  exact ⟨fun h => nomatch h⟩

instance : Honest R (makePoint v w) := by unfold makePoint; infer_instance

instance {bits : UInt64} : Honest R (makeFloat bits) := by unfold makeFloat; infer_instance

instance {text : String} : Honest R (makeString text) := by unfold makeString; infer_instance

instance : Honest R (positive32 n) := by
  unfold positive32
  split <;> infer_instance

/-! ### Processes and interrupts -/

instance : Honest R scheduler := by unfold scheduler; infer_instance

instance : Honest R activeProcess := by unfold activeProcess; infer_instance

instance : Honest R (priority v) := by unfold priority; infer_instance

instance : Honest R (isEmptyList v) := by unfold isEmptyList; infer_instance

instance : Honest R (linkLast v w) := by unfold linkLast; infer_instance

instance : Honest R (unlinkFirst v) := by unfold unlinkFirst; infer_instance

instance : Honest R (makeReady v) := by unfold makeReady; infer_instance

instance : Honest R (transferTo v) := by unfold transferTo; infer_instance

instance : Honest R (unlinkHighest v n) := by
  induction n with
  | zero => unfold unlinkHighest; infer_instance
  | succ n ih => unfold unlinkHighest; infer_instance

instance : Honest R pickTop := by unfold pickTop; infer_instance

instance : Honest R (resume v) := by unfold resume; infer_instance

instance : Honest R (signal v) := by unfold signal; infer_instance

instance : Honest R suspendActive := by unfold suspendActive; infer_instance

instance : Honest R (wait v) := by unfold wait; infer_instance

instance : Honest R (signalSpecial i) := by unfold signalSpecial; infer_instance

instance {f : Interrupts → Interrupts} : Honest R (modifyInterrupts f) := by
  unfold modifyInterrupts
  infer_instance

instance : Honest R checkInterrupts := by
  unfold checkInterrupts
  refine .after fun m => .branch inferInstance ?_
  iterate 2 refine .after fun _ => ?_
  refine .after fun sampled => ?_
  infer_instance

/-! ### Contexts, indexed objects and classes -/

instance : Honest R (isContext v) := by unfold isContext; infer_instance

instance : Honest R (fixedFields v) := by
  unfold fixedFields
  refine .after fun o => ?_
  split <;> infer_instance

instance : Honest R (indexableSize v) := by
  unfold indexableSize
  split
  · infer_instance
  · refine .after fun context => ?_
    split
    · infer_instance
    · refine .after fun o => ?_
      split <;> infer_instance

instance : Honest R (specialSelector i) := by unfold specialSelector; infer_instance

instance {access : Access} {mode : AccessMode} : Honest R (atEntry access v mode) := by
  unfold atEntry
  infer_instance

instance : Honest R (characterFor i) := by unfold characterFor; infer_instance

instance {source target : List Value} {twoWay : Bool} : Honest R (become source target twoWay) := by
  unfold become
  split <;> infer_instance

instance {f : Memory → Option Value × Memory} : Honest R (query f) := ⟨fun h => nomatch h⟩

/-! ### Walks -/

theorem founded_of_superclass {m : Machine} {f : Fault}
    (h : f.Ordinary ∨ ∃ v, f = .endlessChain v ∧ m.memory.Circular Class.superclass v) :
    f.Founded R m := by
  rcases h with h | ⟨v, rfl, h⟩
  · exact h.evident R m
  · exact .inl h

theorem founded_of_sender {m : Machine} {f : Fault}
    (h : f.Ordinary ∨ ∃ v, f = .endlessChain v ∧ m.memory.Circular Context.sender v) :
    f.Founded R m := by
  rcases h with h | ⟨v, rfl, h⟩
  · exact h.evident R m
  · exact .inr h

/-- What the search for a method fails with, a lookup by way of the cache fails with. -/
theorem cachedLookup_error {memory : Memory} {cls selector nil : Value} {c c' : MethodCache}
    {f : Fault} (h : cachedLookup memory cls selector nil c = .error f c') :
    f.Ordinary ∨ ∃ v, f = .endlessChain v ∧ memory.Circular Class.superclass v := by
  unfold cachedLookup at h
  dsimp only at h
  split at h
  · obtain ⟨rfl, -⟩ := EStateM.Result.error.inj h
    exact .inl trivial
  · split at h
    · cases h
    · split at h
      · rename_i hentry
        obtain ⟨rfl, -⟩ := EStateM.Result.error.inj h
        rcases Checked.bind_error.1 hentry with hfind | ⟨found, -, hentry⟩
        · exact (findMethodWithin_error hfind).circular_of_slots
        · cases found with
          | none => cases hentry
          | some method => exact .inl (Checked.Ordinary.error hentry)
      · cases h
      · cases h

/-- A lookup leaves the classes as they are. -/
instance : Honest R (lookup v w) where
  error {m f m'} h := by
    unfold lookup at h
    dsimp only at h
    split at h
    · exact nomatch h
    · rename_i hcached
      obtain ⟨rfl, rfl⟩ := EStateM.Result.error.inj h
      exact founded_of_superclass (cachedLookup_error hcached)

instance : Honest R (isAncestor v w) where
  error {m f m'} h := by
    rcases Outcome.bind_error.1 h with h | ⟨m₁, m₂, hget, h⟩
    · exact nomatch h
    obtain ⟨rfl, rfl⟩ := Outcome.get_ok.1 hget
    obtain ⟨rfl, h⟩ := isAncestorWithin_error h
    exact founded_of_superclass h.circular_of_slots

instance : Honest R (senderPath v) where
  error {m f m'} h := by
    rcases Outcome.bind_error.1 h with h | ⟨m₁, m₂, hget, h⟩
    · exact nomatch h
    obtain ⟨rfl, rfl⟩ := Outcome.get_ok.1 hget
    rcases Outcome.bind_error.1 h with h | ⟨r, m₂, hregisters, h⟩
    · exact nomatch h
    obtain ⟨rfl, rfl⟩ := registers_ok.1 hregisters
    obtain ⟨rfl, h⟩ := senderPathWithin_error h
    exact founded_of_sender h.circular_of_slots

end Action

namespace Attempt

variable {v w x : Value} {i n depth : Nat}

instance {x : Action α} [hx : Action.Honest R x] : Honest R (ofAction x) where
  error {m f m'} h := by
    unfold ofAction at h
    split at h
    · exact nomatch h
    · rename_i hrun
      obtain ⟨rfl, rfl⟩ := EStateM.Result.error.inj h
      exact hx.error hrun

instance {x : Action α} [Action.Honest R x] : Honest R (liftM x : Attempt α) :=
  inferInstanceAs (Honest R (ofAction x))

instance : Honest R (decline : Attempt α) := Raises.throw fun _ => trivial

instance {p : Prop} [Decidable p] : Honest R (require p) := by unfold require; infer_instance

instance {o : Option α} : Honest R (ofOption o) := by
  unfold ofOption
  split <;> infer_instance

/-- What is declined when it faults does not fault. -/
instance {x : Action α} : Honest R (orDecline x) where
  error {m f m'} h := by
    unfold orDecline at h
    split at h
    · exact nomatch h
    · obtain ⟨rfl, -⟩ := EStateM.Result.error.inj h
      trivial

instance {x : Attempt α} [hx : Honest R x] : Action.Honest R (run? x) where
  error {m f m'} h := by
    unfold run? at h
    split at h
    · exact nomatch h
    · exact nomatch h
    · rename_i hrun
      obtain ⟨rfl, rfl⟩ := EStateM.Result.error.inj h
      exact hx.error hrun

/-! ### Operands and answers -/

instance : Honest R (stackValue depth) := by unfold stackValue; infer_instance

instance : Honest R (stackInteger depth) := by unfold stackInteger; infer_instance

instance : Honest R (stackObject depth) := by unfold stackObject; infer_instance

instance {k : Int} : Honest R (natural k) := by unfold natural; infer_instance

instance : Honest R (positive32Value v) := by
  unfold positive32Value
  split <;> infer_instance

instance : Honest R (stackPositive32 depth) := by unfold stackPositive32; infer_instance

instance : Honest R (floatValue v) := by
  unfold floatValue
  iterate 3 refine .after fun _ => ?_
  rename_i o
  cases o.body with
  | float | none | bytes => infer_instance
  | words ws =>
    obtain ⟨ws⟩ := ws
    rcases ws with _ | ⟨high, _ | ⟨low, _ | ⟨more, ws⟩⟩⟩
    · exact inferInstanceAs (Honest R decline)
    · exact inferInstanceAs (Honest R decline)
    · exact inferInstanceAs (Honest R (pure (high.toUInt64 <<< 32 ||| low.toUInt64)))
    · exact inferInstanceAs (Honest R decline)

instance : Honest R (stackFloat depth) := by unfold stackFloat; infer_instance

instance : Honest R (textValue v) := by unfold textValue; infer_instance

instance : Honest R (answer n v) := by unfold answer; infer_instance

instance {b : Bool} : Honest R (answerTruth n b) := by unfold answerTruth; infer_instance

instance : Honest R (newPositive32 n) := by unfold newPositive32; infer_instance

/-! ### Indexed access -/

instance {asCharacters : Bool} : Honest R (byteToPut v asCharacters) := by
  unfold byteToPut
  infer_instance

instance {access : Access} : Honest R (cachedEntry access v) := by unfold cachedEntry; infer_instance

instance {entry : AtEntry} {mode : AccessMode} : Honest R (elementAt v i entry mode) := by
  unfold elementAt
  refine .after fun o => ?_
  split
  · infer_instance
  · split <;> infer_instance

instance {fromBytecode : Bool} {mode : AccessMode} : Honest R (indexedAt fromBytecode mode) := by
  unfold indexedAt
  iterate 2 refine .after fun _ => ?_
  refine .after fun isFloat => ?_
  split
  · refine .after fun bits => ?_
    split <;> infer_instance
  · infer_instance

instance : Honest R (putPointer v i x) := by unfold putPointer; infer_instance

instance {byte : UInt8} : Honest R (putByte v i byte) := by unfold putByte; infer_instance

instance {word : UInt32} : Honest R (putWord v i word) := by unfold putWord; infer_instance

instance {entry : AtEntry} {mode : AccessMode} : Honest R (elementPut v i x entry mode) := by
  unfold elementPut
  refine .after fun o => ?_
  split
  · infer_instance
  · split <;> infer_instance

instance {fromBytecode : Bool} {mode : AccessMode} : Honest R (indexedAtPut fromBytecode mode) := by
  unfold indexedAtPut
  infer_instance

/-! ### Blocks and performs -/

instance : Action.Honest R (Action.assertFrame v) where
  error {m f m'} h := by
    rcases Outcome.bind_error.1 h with h | ⟨o, m₁, ho, h⟩
    · exact Raises.error h
    · obtain ⟨hget, rfl⟩ := Action.object_ok.1 ho
      split at h
      · obtain ⟨rfl, rfl⟩ := EStateM.Result.error.inj h
        exact ⟨o, hget, ‹_›⟩
      · exact nomatch h

instance : Honest R Attempt.blockCopy := by
  unfold Attempt.blockCopy
  iterate 6 refine .after fun _ => ?_
  refine .join (fun jp => .branch (.after jp) (.after jp)) fun home => ?_
  iterate 7 refine .after fun _ => ?_
  infer_instance

instance : Honest R (Attempt.blockValue n) := by
  unfold Attempt.blockValue
  have (block : Value) (a : Value × Nat) : Honest R (match a with
      | (x, i) => liftM (Action.store block (Context.frameStart + i) x)) := by
    infer_instance
  iterate 13 refine .after fun _ => ?_
  infer_instance

instance : Honest R (checkArity v w n) := by
  unfold checkArity
  refine .after fun found => ?_
  split <;> infer_instance

instance : Honest R (performWithArray v n) := by unfold performWithArray; infer_instance

/-! ### Devices and files -/

instance : Honest R (integer32 v) := by unfold integer32; infer_instance

instance : Honest R (wordsOf? v) := by unfold wordsOf?; infer_instance

instance {o : Object} : Honest R (fieldOf o i) := by unfold fieldOf; infer_instance

instance : Honest R (loadForm v) := by unfold loadForm; infer_instance

instance {bits : Array UInt32} : Action.Honest R (storeBits v bits) := by
  unfold storeBits
  iterate 2 refine .after fun _ => ?_
  split <;> infer_instance

instance {default : Int} : Honest R (coordinate v default) := by
  unfold coordinate
  refine .after fun nil => ?_
  split
  · infer_instance
  · split <;> infer_instance

instance {o : Object} {default : Device.Rect} : Honest R (rectAt o i default) := by
  unfold rectAt
  infer_instance

instance : Honest R (loadHalftone v) := by
  unfold loadHalftone
  refine .after fun nil => ?_
  split
  · infer_instance
  · refine .after fun words => ?_
    split <;> infer_instance

instance {rule : Int} {alpha : Option Int} : Honest R (alphaFor rule alpha) := by
  unfold alphaFor
  infer_instance

instance {alpha : Option Int} : Honest R (loadBlit v alpha) := by
  unfold loadBlit
  iterate 10 refine .after fun _ => ?_
  refine .join (fun jp => .branch (.after jp) (.after jp)) fun source => ?_
  iterate 3 refine .after fun _ => ?_
  refine .join (fun jp => .branch (.after fun _ => .after jp) (.after jp)) fun sourceX => ?_
  refine .join (fun jp => .branch (.after fun _ => .after jp) (.after jp)) fun sourceY => ?_
  refine .after fun clip => ?_
  dsimp only
  split <;> infer_instance

instance {f : Device.Devices → α × Device.Devices} : Honest R (onDevices f) :=
  ⟨fun h => nomatch h⟩

instance {r : Device.Request} : Honest R (recordRequest r) := by unfold recordRequest; infer_instance

instance : Honest R (stackHandle depth) := by unfold stackHandle; infer_instance

instance : Honest R (stackPath depth) := by unfold stackPath; infer_instance

instance : Honest R (stackByteRange depth) := by unfold stackByteRange; infer_instance

instance {f : Device.FileSystem → Option (α × Device.FileSystem)} : Honest R (onFiles f) := by
  unfold onFiles
  infer_instance

instance {f : Device.FileSystem → Option Device.FileSystem} : Honest R (changeFiles f) := by
  unfold changeFiles
  infer_instance

instance : Honest R (hostHandle n) := by unfold hostHandle; infer_instance

instance {seconds : Int} : Honest R (secondsValue seconds) := by unfold secondsValue; infer_instance

instance : Honest R (pinValue v) := by unfold pinValue; infer_instance

instance {e : Device.Devices.EntryInfo} : Honest R (buildEntry e) := by
  unfold buildEntry
  infer_instance

instance {e : Device.Devices.EntryInfo} : Honest R (entryArray e) where
  error {m f m'} h := by
    unfold entryArray at h
    dsimp only at h
    split at h
    · exact nomatch h
    · rename_i hrun
      obtain ⟨rfl, rfl⟩ := EStateM.Result.error.inj h
      exact (Raises.error (P := Refusal.Founded fun _ _ => False) hrun).of_slots rfl

end Attempt

/-! ### Primitives -/

namespace Primitive

open Attempt

variable {n argCount : Nat} {v : Value}

instance {op : Int → Int → Option Int} : Honest R (integerOp op n) := by
  unfold integerOp
  infer_instance

instance {op : Int → Int → Bool} : Honest R (integerComparison op n) := by
  unfold integerComparison
  infer_instance

instance {op : Nat → Nat → Nat} : Honest R (bitOp op n) := by unfold bitOp; infer_instance

instance : Honest R (bitShift n) := by unfold bitShift; infer_instance

instance : Honest R (point n) := by unfold point; infer_instance

instance {op : UInt64 → UInt64 → Option UInt64} : Honest R (floatOp op n) := by
  unfold floatOp
  infer_instance

instance {op : UInt64 → UInt64 → Bool} : Honest R (floatComparison op n) := by
  unfold floatComparison
  infer_instance

instance : Honest R (asFloat n) := by unfold asFloat; infer_instance

instance : Honest R (truncated n) := by unfold truncated; infer_instance

instance : Honest R (logarithm n) := by unfold logarithm; infer_instance

instance {mode : AccessMode} : Honest R (readElement mode n) := by unfold readElement; infer_instance

instance {mode : AccessMode} : Honest R (writeElement mode n) := by
  unfold writeElement
  infer_instance

instance : Honest R (size n) := by unfold size; infer_instance

instance : Honest R (replaceElements n) := by unfold replaceElements; infer_instance

instance : Honest R (newInstanceOf v n) := by unfold newInstanceOf; infer_instance

instance : Honest R (basicNew n) := by unfold basicNew; infer_instance

instance : Honest R (basicNewSized n) := by unfold basicNewSized; infer_instance

instance {twoWay : Bool} : Honest R (arrayBecome twoWay n) := by unfold arrayBecome; infer_instance

instance : Honest R (identityHash n) := by unfold identityHash; infer_instance

instance : Honest R (someInstance n) := by unfold someInstance; infer_instance

instance : Honest R (nextInstance n) := by unfold nextInstance; infer_instance

instance : Honest R (someObject n) := by unfold someObject; infer_instance

instance : Honest R (nextObject n) := by unfold nextObject; infer_instance

instance : Honest R (newMethod n) := by unfold newMethod; infer_instance

instance : Honest R (identical n) := by unfold identical; infer_instance

instance : Honest R (classOf n) := by unfold classOf; infer_instance

instance : Honest R (specialObjectsArray n) := by unfold specialObjectsArray; infer_instance

instance : Honest R (clone n) := by unfold clone; infer_instance

instance : Honest R (blockCopy n) := by unfold blockCopy; infer_instance

instance : Honest R (blockValue n) := by unfold blockValue; infer_instance

instance : Honest R (perform n) := by
  unfold perform
  split <;> infer_instance

instance : Honest R (performWithArguments n) := by unfold performWithArguments; infer_instance

instance : Honest R (performInSuperclass n) := by unfold performInSuperclass; infer_instance

instance : Honest R (flushCache n) := by unfold flushCache; infer_instance

instance : Honest R (flushMethod n) := by unfold flushMethod; infer_instance

instance : Honest R (flushSelector n) := by unfold flushSelector; infer_instance

instance : Honest R (receiverOf n) := by unfold receiverOf; infer_instance

instance : Honest R (registerSemaphore n v) := by unfold registerSemaphore; infer_instance

instance : Honest R (signal n) := by unfold signal; infer_instance

instance : Honest R (wait n) := by unfold wait; infer_instance

instance : Honest R (resume n) := by unfold resume; infer_instance

instance : Honest R (suspend n) := by unfold suspend; infer_instance

instance : Honest R (lowSpaceSemaphore n) := by unfold lowSpaceSemaphore; infer_instance

instance : Honest R (lowSpaceThreshold n) := by unfold lowSpaceThreshold; infer_instance

instance : Honest R (interruptSemaphore n) := by unfold interruptSemaphore; infer_instance

instance : Honest R (signalAtMilliseconds n) := by unfold signalAtMilliseconds; infer_instance

instance : Honest R workingDirectory := by unfold workingDirectory; infer_instance

instance : Honest R spaceLeft := by unfold spaceLeft; infer_instance

instance : Honest R (bytesLeft n) := by unfold bytesLeft; infer_instance

instance : Honest R (quit n) := by unfold quit; infer_instance

instance : Honest R (imageName n) := by unfold imageName; infer_instance

instance : Action.Honest R (reclaimYoungTimes n) := by
  induction n with
  | zero => unfold reclaimYoungTimes; infer_instance
  | succ n ih => unfold reclaimYoungTimes; infer_instance

instance : Honest R (fullCollection n) := by unfold fullCollection; infer_instance

instance : Honest R (incrementalCollection n) := by unfold incrementalCollection; infer_instance

instance : Honest R (millisecondClock n) := by unfold millisecondClock; infer_instance

instance : Honest R (secondsClock n) := by unfold secondsClock; infer_instance

instance : Honest R (vmPath n) := by unfold vmPath; infer_instance

instance : Honest R (systemAttribute n) := by unfold systemAttribute; infer_instance

instance : Honest R (relinquish n) := by
  unfold relinquish
  split <;> infer_instance

instance {p : Int × Int} : Action.Honest R (integerPoint p) := by unfold integerPoint; infer_instance

instance : Honest R (mousePoint n) := by unfold mousePoint; infer_instance

instance {alpha : Option Int} : Honest R (transferBits n v alpha) := by
  unfold transferBits
  iterate 5 refine .after fun _ => ?_
  dsimp only
  split <;> infer_instance

instance : Honest R (copyBits n) := by unfold copyBits; infer_instance

instance : Honest R (beCursor n) := by unfold beCursor; infer_instance

instance : Honest R (beDisplay n) := by unfold beDisplay; infer_instance

instance : Honest R (screenSize n) := by unfold screenSize; infer_instance

instance : Honest R (mouseButtons n) := by unfold mouseButtons; infer_instance

instance {key : Option Int} : Action.Honest R (keyCode key) := by
  unfold keyCode
  split <;> infer_instance

instance : Honest R (keyboardNext n) := by unfold keyboardNext; infer_instance

instance : Honest R (keyboardPeek n) := by unfold keyboardPeek; infer_instance

instance : Honest R (reverseDisplay n) := by unfold reverseDisplay; infer_instance

instance : Honest R (fileAtEnd n) := by unfold fileAtEnd; infer_instance

instance : Honest R (fileClose n) := by unfold fileClose; infer_instance

instance : Honest R (filePosition n) := by unfold filePosition; infer_instance

instance {path : String} {writable : Bool} : Honest R (openNamed path writable) := by
  unfold openNamed
  iterate 2 refine .after fun _ => ?_
  split
  refine .after fun _ => ?_
  split <;> infer_instance

instance : Honest R (fileOpen n) := by unfold fileOpen; infer_instance

instance : Honest R (fileRead n) := by unfold fileRead; infer_instance

instance : Honest R (fileSetPosition n) := by unfold fileSetPosition; infer_instance

instance : Honest R (fileDelete n) := by unfold fileDelete; infer_instance

instance : Honest R (fileSize n) := by unfold fileSize; infer_instance

instance : Honest R (fileWrite n) := by unfold fileWrite; infer_instance

instance : Honest R (fileRename n) := by unfold fileRename; infer_instance

instance : Honest R (createDirectory n) := by unfold createDirectory; infer_instance

instance : Honest R (pathDelimiter n) := by unfold pathDelimiter; infer_instance

instance : Honest R (lookupEntry n) := by
  unfold lookupEntry
  iterate 7 refine .after fun _ => ?_
  split <;> infer_instance

/-- No primitive says that it would never have ended unless there is a circle. -/
theorem all_honest : ∀ p ∈ all, ∀ n, Honest R (p.action n) := by
  simp only [all, List.forall_mem_cons, List.not_mem_nil, false_imp_iff, implies_true, and_true,
    add, subtract, multiply, divide, modulo, floorDivide, quotient, less, greater, lessOrEqual,
    greaterOrEqual, equal, notEqual, bitAnd, bitOr, bitXor, floatAdd, floatSubtract, floatMultiply,
    floatDivide, floatLess, floatGreater, floatLessOrEqual, floatGreaterOrEqual, floatEqual,
    floatNotEqual, basicAt, basicAtPut, stringAt, stringAtPut, objectAt, objectAtPut, becomeForward,
    becomeBoth]
  repeat' apply And.intro
  all_goals
    intro n
    infer_instance

end Primitive

/-! ### Sends and returns -/

namespace Action

variable {v w : Value} {i n : Nat}

instance : Honest R (createMessage v n w) := by unfold createMessage; infer_instance

instance : Honest R (findSelector v n w) := by
  unfold findSelector
  refine .after fun found => ?_
  split
  · infer_instance
  · refine .after fun report => ?_
    refine .join (fun jp => .branch (.after jp) (jp ())) fun _ => ?_
    iterate 3 refine .after fun _ => ?_
    refine .after fun found => ?_
    split <;> infer_instance

instance : Honest R (enterMethod v w n) := by unfold enterMethod; infer_instance

instance : Honest R (activateMethod v w n) := by unfold activateMethod; infer_instance

instance : Honest R (quickPrimitive n) := by
  unfold quickPrimitive
  refine .branch inferInstance (.after fun m => ?_)
  split
  · infer_instance
  · iterate 2 refine .after fun _ => ?_
    split <;> infer_instance

instance : Honest R (tryPrimitive i n) := by
  unfold tryPrimitive
  refine .branch inferInstance ?_
  split
  · infer_instance
  · rename_i p hp
    have := Primitive.all_honest (R := R) p (Primitive.mem_all_of_find? hp) n
    refine .after fun outcome => ?_
    split <;> infer_instance

instance : Honest R (sever v) := by unfold sever; infer_instance

instance : Honest R (returnTo v w) := by unfold returnTo; infer_instance

/-! ### Steps -/

instance : Honest R peekByte := by unfold peekByte; infer_instance

instance : Honest R skipByte := by unfold skipByte; infer_instance

instance : Honest R countBytecode := by unfold countBytecode; infer_instance

instance : Honest R nextByte := by
  unfold nextByte
  iterate 3 refine .after fun _ => ?_
  split <;> infer_instance

instance : Honest R (literal i) := by unfold literal; infer_instance

instance {place : Variable} : Honest R (readVariable place) := by
  unfold readVariable
  split <;> infer_instance

instance {place : Variable} : Honest R (writeVariable v place) := by
  unfold writeVariable
  split <;> infer_instance

instance {c : Constant} : Honest R (constantValue c) := by
  unfold constantValue
  split <;> infer_instance

instance {offset : Int} : Honest R (jump offset) := by unfold jump; infer_instance

instance {result : Bool} : Honest R (answerComparison result) := by
  unfold answerComparison
  iterate 2 refine .after fun _ => ?_
  split <;> infer_instance

instance {x : Attempt Value} [Attempt.Honest R x] : Honest R (quickly n x) := by
  unfold quickly
  refine .after fun found => ?_
  split <;> infer_instance

instance : Honest R quickSize := by
  unfold quickSize
  iterate 2 refine .after fun _ => ?_
  split <;> infer_instance

instance : Honest R (quickSpecial i) := by
  unfold quickSpecial
  split <;> infer_instance

section

variable [∀ selector argCount cls, Honest R (sendToClass selector argCount cls)]

instance : Honest R (send v n) := by unfold send; infer_instance

instance : Honest R (sendSuper v n) := by unfold sendSuper; infer_instance

instance : Honest R (sendSpecial i) := by unfold sendSpecial; infer_instance

instance {condition : Bool} {offset : Int} : Honest R (jumpIf condition offset) := by
  unfold jumpIf
  infer_instance

instance : Honest R (arithmetic i) := by
  unfold arithmetic
  iterate 2 refine .after fun _ => ?_
  split
  · split
    · infer_instance
    · refine .branch inferInstance ?_
      split <;> infer_instance
  · infer_instance

instance {instruction : Instruction} : Honest R (execute instruction) := by
  unfold execute
  split <;> infer_instance

/-- What the sends fault with, a step faults with. -/
instance : Honest R step := by
  unfold step
  refine .after fun bytecode => .after fun _ => ?_
  refine .join (fun jp => .branch (.after jp) (.after jp)) fun x => ?_
  refine .join (fun jp => .branch (.after jp) (.after jp)) fun y => ?_
  split <;> infer_instance

end

end Action

end Smalltalk
