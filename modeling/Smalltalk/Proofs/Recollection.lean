import Smalltalk.Proofs.Endurance
import Smalltalk.Proofs.Flushing

/-!
# What the at-cache recalls

A primitive that reads or writes an element works out the bounds of the array and leaves them in the
at-cache for the next access by bytecode. As long as the array has the class that it had then, the
class the same format word and the machine the same special objects, the access by what is recalled
and the access that works everything out again have the same outcome: the same answer or both none,
and the same machine but for the at-cache. The bounds depend on the shape of the array, which lasts,
and what is done with them does not look at the at-cache.
-/

namespace Smalltalk

open Outcome

/-- The machine with another at-cache. -/
def Machine.recalling (m : Machine) (c : AtCache) : Machine := { m with atCache := c }

theorem Machine.recalling_self (m : Machine) : m.recalling m.atCache = m := rfl

variable {α β ε : Type} {m m' : Machine} {c : AtCache} {y : EStateM ε Machine α}
  {f g : α → EStateM ε Machine β} {access : Access} {array v : Value} {i n : Nat} {o : Object}
  {entry : AtEntry}

/-! ### Computations that do not look at the at-cache -/

/-- A result with another at-cache. -/
def Outcome.recalling (c : AtCache) : EStateM.Result ε Machine α → EStateM.Result ε Machine α
  | .ok a m => .ok a (m.recalling c)
  | .error e m => .error e (m.recalling c)

/-- A computation that does not look at the at-cache, and leaves it alone or empties it. -/
def Blind (y : EStateM ε Machine α) : Prop :=
  ∀ m c, ∃ c', (c' = c ∨ c' = .empty) ∧ y (m.recalling c) = recalling c' (y m)

namespace Blind

theorem of_eq (h : ∀ m c, y (m.recalling c) = recalling c (y m)) : Blind y :=
  fun m c => ⟨c, .inl rfl, h m c⟩

theorem pure {a : α} : Blind (pure a : EStateM ε Machine α) := of_eq fun _ _ => rfl

theorem throw {e : ε} : Blind (throw e : EStateM ε Machine α) := of_eq fun _ _ => rfl

theorem bind (hy : Blind y) (hf : ∀ a, Blind (f a)) : Blind (y >>= f) := by
  intro m c
  obtain ⟨c₁, hc₁, hrun⟩ := hy m c
  cases hm : y m with
  | error e m₁ =>
    rw [hm] at hrun
    exact ⟨c₁, hc₁, by rw [bind_of_error hrun, bind_of_error hm]; rfl⟩
  | ok a m₁ =>
    rw [hm] at hrun
    obtain ⟨c₂, hc₂, hrest⟩ := hf a m₁ c₁
    refine ⟨c₂, ?_, by rw [bind_of_ok hrun, bind_of_ok hm, hrest]⟩
    rcases hc₂ with rfl | rfl
    · exact hc₁
    · exact .inr rfl

/-- Only what is not the at-cache is read from the machine. -/
theorem get_bind {f : Machine → EStateM ε Machine β} (hf : ∀ m, Blind (f m))
    (hsame : ∀ m c, f (m.recalling c) = f m) : Blind (get >>= f) := by
  intro m c
  obtain ⟨c', hc', hrun⟩ := hf m m c
  refine ⟨c', hc', ?_⟩
  have hget : ∀ m : Machine, (get : EStateM ε Machine Machine) m = .ok m m := fun _ => rfl
  rw [bind_of_ok (hget _), bind_of_ok (hget _), hsame, hrun]

theorem modify {f : Machine → Machine} (h : ∀ m c, f (m.recalling c) = (f m).recalling c) :
    Blind (modify f : EStateM ε Machine Unit) := of_eq fun m c =>
  congrArg (EStateM.Result.ok ()) (h m c)

theorem ite {p : Prop} [Decidable p] {z : EStateM ε Machine α} (hy : Blind y) (hz : Blind z) :
    Blind (if p then y else z) := by
  split
  · exact hy
  · exact hz

/-- Where several branches go on in the same way, that way is looked at once. -/
theorem join {jp : α → EStateM ε Machine β} {z : EStateM ε Machine β}
    (hz : (∀ a, Blind (jp a)) → Blind z) (hjp : ∀ a, Blind (jp a)) : Blind z := hz hjp

end Blind

namespace Action

theorem ofExcept_blind {e : Except Fault α} : Blind (ofExcept e) := by
  cases e with
  | ok a => exact .pure
  | error e => exact .throw

theorem object_blind : Blind (object v) := .get_bind (fun _ => ofExcept_blind) fun _ _ => rfl

theorem object?_blind : Blind (object? v) := .get_bind (fun _ => .pure) fun _ _ => rfl

theorem fetch_blind : Blind (fetch v i) := .get_bind (fun _ => ofExcept_blind) fun _ _ => rfl

theorem special_blind : Blind (special i) := .of_eq fun _ _ => rfl

theorem registers_blind : Blind registers := .of_eq fun _ _ => rfl

theorem isInstanceOf_blind : Blind (isInstanceOf v i) := by
  refine .bind object?_blind fun found => ?_
  cases found with
  | none => exact .pure
  | some o => exact .bind special_blind fun _ => .pure

theorem characterFor_blind : Blind (characterFor i) := .bind special_blind fun _ => fetch_blind

theorem modifyMemory_blind {f : Memory → Memory} : Blind (modifyMemory f) := .of_eq fun _ _ => rfl

theorem modifyRegisters_blind {f : Registers → Registers} : Blind (modifyRegisters f) :=
  .of_eq fun _ _ => rfl

theorem popN_blind : Blind (popN n) :=
  .bind registers_blind fun _ => .ite (.bind .throw fun _ => modifyRegisters_blind) modifyRegisters_blind

theorem push_blind : Blind (push v) :=
  .bind registers_blind fun _ => .bind (.bind fetch_blind fun _ => modifyMemory_blind) fun _ =>
    modifyRegisters_blind

/-! ### Making objects -/

theorem onMemory_blind {x : Memory.Change α} : Blind (onMemory x) := by
  refine .of_eq fun m c => ?_
  simp only [onMemory, Machine.recalling]
  cases x m.memory <;> rfl

theorem sweep_blind {scope : Scope} : Blind (sweep scope) := fun _ _ => ⟨.empty, .inr rfl, rfl⟩

/-- A reclamation empties the at-cache. -/
theorem reclaim_blind {scope : Scope} : Blind (reclaim scope) := by
  refine .bind sweep_blind fun freed => .get_bind (fun m => ?_) fun _ _ => rfl
  refine .bind ofExcept_blind fun left => .get_bind (fun m => ?_) fun _ _ => rfl
  exact .ite (.bind (.modify fun _ _ => rfl) fun _ => .pure) .pure

theorem giveUp_blind : Blind (modify fun m => { m.flushCaches with pool := m.pool.clear } : Action Unit) :=
  fun _ _ => ⟨.empty, .inr rfl, rfl⟩

theorem reclaimYoung_blind {wanted : Nat} {plan : List Bool} : Blind (reclaimYoung wanted plan n) := by
  induction plan generalizing n with
  | nil => exact .pure
  | cons giveUp rest ih =>
    unfold reclaimYoung
    refine .join (fun jp => .ite (.bind giveUp_blind jp) (jp ())) fun _ => ?_
    exact .bind reclaim_blind fun _ => .ite .pure ih

theorem makeRoom_blind : Blind makeRoom := by
  refine .get_bind (fun m => .bind reclaimYoung_blind fun freed => .ite .pure ?_) fun _ _ => rfl
  refine .get_bind (fun m => .ite onMemory_blind ?_) fun _ _ => rfl
  refine .bind reclaim_blind fun freed => .get_bind (fun m => ?_) fun _ _ => rfl
  exact .ite .throw .pure

theorem allocate_blind : Blind (allocate o) :=
  .get_bind (fun _ => .ite (.bind makeRoom_blind fun _ => onMemory_blind) onMemory_blind) fun _ _ => rfl

theorem positive32_blind : Blind (positive32 n) := by
  unfold positive32
  split
  · exact .pure
  · exact .bind special_blind fun _ => allocate_blind

end Action

namespace Attempt

open Smalltalk.Action

theorem lift_blind {y : Action α} (hy : Blind y) : Blind (liftM y : Attempt α) := by
  intro m c
  obtain ⟨c', hc', hrun⟩ := hy m c
  refine ⟨c', hc', ?_⟩
  change ofAction y (m.recalling c) = recalling c' (ofAction y m)
  rw [ofAction, ofAction, hrun]
  cases y m <;> rfl

theorem require_blind {p : Prop} [Decidable p] : Blind (require p) := .ite .pure .throw

theorem ofOption_blind {found : Option α} : Blind (ofOption found) := by
  cases found with
  | none => exact .throw
  | some a => exact .pure

theorem positive32Value_blind : Blind (positive32Value v) := by
  cases v with
  | small k => exact .bind require_blind fun _ => .pure
  | ref index generation =>
    refine .bind (lift_blind isInstanceOf_blind) fun _ => .bind require_blind fun _ => ?_
    refine .bind (lift_blind object_blind) fun _ => .bind ofOption_blind fun _ => ?_
    exact .bind require_blind fun _ => .pure

theorem answer_blind : Blind (answer n v) :=
  .bind (lift_blind (.bind popN_blind fun _ => push_blind)) fun _ => .pure

/-! ### Elements -/

theorem elementAt_blind {slot : Nat} {mode : AccessMode} : Blind (elementAt array slot entry mode) := by
  refine .bind (lift_blind object_blind) fun o => .ite ofOption_blind ?_
  split
  · exact .bind ofOption_blind fun _ => lift_blind positive32_blind
  · exact .bind ofOption_blind fun _ => .ite (lift_blind characterFor_blind) .pure
  · exact .bind require_blind fun _ => .bind ofOption_blind fun _ => .pure
  · exact ofOption_blind

theorem putPointer_blind {slot : Nat} {x : Value} : Blind (putPointer v slot x) :=
  .bind (lift_blind object_blind) fun _ => .bind require_blind fun _ => lift_blind modifyMemory_blind

theorem putByte_blind {slot : Nat} {byte : UInt8} : Blind (putByte v slot byte) :=
  .bind (lift_blind object_blind) fun _ => .bind ofOption_blind fun _ => .bind require_blind fun _ =>
    lift_blind modifyMemory_blind

theorem putWord_blind {slot : Nat} {word : UInt32} : Blind (putWord v slot word) :=
  .bind (lift_blind object_blind) fun _ => .bind ofOption_blind fun _ => .bind require_blind fun _ =>
    lift_blind modifyMemory_blind

theorem byteToPut_blind {asCharacters : Bool} : Blind (byteToPut v asCharacters) := by
  refine .join (fun jp => .ite ?_ (.bind ofOption_blind jp)) fun _ =>
    .bind require_blind fun _ => .pure
  refine .bind (lift_blind isInstanceOf_blind) fun _ => .bind require_blind fun _ => ?_
  exact .bind (lift_blind fetch_blind) fun _ => .bind ofOption_blind jp

theorem elementPut_blind {slot : Nat} {x : Value} {mode : AccessMode} :
    Blind (elementPut array slot x entry mode) := by
  refine .bind (lift_blind object_blind) fun o => .ite putPointer_blind ?_
  split
  · exact .bind positive32Value_blind fun _ => putWord_blind
  · exact .bind byteToPut_blind fun _ => putByte_blind
  · exact .bind byteToPut_blind fun _ => .bind require_blind fun _ => putByte_blind
  · exact putPointer_blind

/-! ### Where attempts leave the at-cache -/

/-- An attempt that leaves an at-cache with a property, answered or declined. -/
structure Settles (P : AtCache → Prop) (x : Attempt α) (m : Machine) : Prop where
  ok : ∀ a m', x m = .ok a m' → P m'.atCache
  declined : ∀ m', x m = .error .declined m' → P m'.atCache

namespace Settles

variable {P : AtCache → Prop} {x : Attempt α} {f : α → Attempt β}

theorem look (hx : Stays Eq x) (hP : P m.atCache) (hf : ∀ a, x m = .ok a m → Settles P (f a) m) :
    Settles P (x >>= f) m := by
  refine ⟨fun b m' hrun => ?_, fun m' hrun => ?_⟩
  · obtain ⟨a, m₁, h, h'⟩ := bind_ok.1 hrun
    obtain rfl := hx.ok m a m₁ h
    exact (hf a h).ok b m' h'
  · rcases bind_error.1 hrun with h | ⟨a, m₁, h, h'⟩
    · obtain rfl := hx.declined m m' h
      exact hP
    · obtain rfl := hx.ok m a m₁ h
      exact (hf a h).declined m' h'

theorem lift {z : Action α} (h : ∀ a m', z m = .ok a m' → P m'.atCache) :
    Settles P (liftM z : Attempt α) m :=
  ⟨fun a m' hrun => h a m' (lift_ok.1 hrun), fun _ hrun => absurd hrun lift_declined⟩

theorem blind (hx : Blind x) (hP : P m.atCache) (hempty : P .empty) : Settles P x m := by
  obtain ⟨c', hc', hrun⟩ := hx m m.atCache
  have hc' : P c' := by rcases hc' with rfl | rfl <;> assumption
  have hrun : x m = recalling c' (x m) := hrun
  refine ⟨fun a m' h => ?_, fun m' h => ?_⟩
  · rw [h] at hrun
    rw [(EStateM.Result.ok.inj hrun).2]
    exact hc'
  · rw [h] at hrun
    rw [(EStateM.Result.error.inj hrun).2]
    exact hc'

theorem bind_blind (hx : Settles P x m) (hempty : P .empty) (hf : ∀ a, Blind (f a)) :
    Settles P (x >>= f) m := by
  refine ⟨fun b m' hrun => ?_, fun m' hrun => ?_⟩
  · obtain ⟨a, m₁, h, h'⟩ := bind_ok.1 hrun
    exact (blind (hf a) (hx.ok a m₁ h) hempty).ok b m' h'
  · rcases bind_error.1 hrun with h | ⟨a, m₁, h, h'⟩
    · exact hx.declined m' h
    · exact (blind (hf a) (hx.ok a m₁ h) hempty).declined m' h'

end Settles

end Attempt

/-! ### Bounds -/

/-- The mode of the primitives that a plain access may have. -/
def AccessMode.plain (characters : Bool) : AccessMode :=
  { asCharacters := characters, withNamedFields := false }

namespace Action

/-- Works out the bounds of an array. -/
def measure (array : Value) (characters : Bool) : Action AtEntry := do
  let fixed ← fixedFields array
  let size := (← indexableSize array).getD 0
  let format := (← object array).format
  return { array, size, offset := if format.isPointers then fixed else 0, asCharacters := characters }

/-- Remembers the bounds of an array if the access came from a send of the plain selector, unless the
array is a context, whose size changes. -/
def remember (access : Access) (entry : AtEntry) : Action Unit := do
  let selector ← specialSelector (selectorIndex access)
  let cls ← classOf entry.array
  if (← get).lastPrimitiveSend = some (selector, cls) then
    if !(← isContext entry.array) then
      let hash := (← object entry.array).hash
      modify fun m => { m with atCache := m.atCache.install access hash entry }

theorem atEntry_eq {characters : Bool} : atEntry access array (.plain characters) = (do
    let entry ← measure array characters
    remember access entry
    return entry) := by
  simp only [atEntry, measure, remember, AccessMode.plain, bind_assoc, pure_bind, Bool.false_eq_true,
    if_false]
  refine bind_congr fun fixed => bind_congr fun size => bind_congr fun o => ?_
  refine bind_congr fun selector => bind_congr fun cls => bind_congr fun m => ?_
  generalize (if o.format.isPointers = true then fixed else 0) = offset
  split
  · rw [bind_assoc]
    refine bind_congr fun context => ?_
    cases context
    · simp only [Bool.not_false, if_true, bind_assoc]
    · simp only [Bool.not_true, Bool.false_eq_true, if_false, pure_bind]
  · rw [pure_bind]

end Action

/-- That an entry holds the bounds of an array which may be remembered for a kind of access. -/
structure Machine.Bounds (m : Machine) (access : Access) (characters : Bool) (entry : AtEntry) : Prop where
  measured : Action.measure entry.array characters m = .ok entry m
  context : Action.isContext entry.array m = .ok false m
  selector : ∃ selector, Action.specialSelector (Action.selectorIndex access) m = .ok selector m

namespace AtCache

/-- An empty at-cache finds only what is put into it. -/
theorem find_install {new : AtEntry} {hash hash' : UInt16}
    (h : (empty.install access hash new).find access array hash' = some entry) :
    entry = new ∧ new.array = array := by
  have hfind (h : (((Array.replicate capacity none).setIfInBounds (place hash) (some new))[place hash']?
      ).join.filter (fun e => e.array == array) = some entry) : entry = new ∧ new.array = array := by
    obtain ⟨h, harray⟩ := Option.filter_eq_some_iff.1 h
    rw [Array.getElem?_setIfInBounds] at h
    split_ifs at h
    · obtain rfl := Option.some.inj h
      exact ⟨rfl, eq_of_beq harray⟩
    · simp at h
    · rw [Array.getElem?_replicate] at h
      split_ifs at h <;> simp at h
  cases access with
  | «at» => exact hfind h
  | atPut => exact hfind h

end AtCache

namespace Action

theorem measure_ok {characters : Bool} (h : measure array characters m = .ok entry m') :
    m = m' ∧ entry.array = array := by
  obtain ⟨fixed, _, hfixed, h⟩ := bind_ok.1 h
  obtain rfl := fixedFields_within (R := Eq) _ _ _ hfixed
  obtain ⟨size, _, hsize, h⟩ := bind_ok.1 h
  obtain rfl := indexableSize_within (R := Eq) _ _ _ hsize
  obtain ⟨o, _, ho, h⟩ := bind_ok.1 h
  obtain ⟨ho, rfl⟩ := object_ok.1 ho
  obtain ⟨rfl, rfl⟩ := pure_ok.1 h
  exact ⟨rfl, rfl⟩

/-- Only bounds are put into an empty at-cache. -/
theorem remember_ok {hash : UInt16} {known : AtEntry} {u : Unit} (hm : m.atCache = .empty)
    (h : remember access entry m = .ok u m') (hfind : m'.atCache.find access array hash = some known) :
    known = entry ∧ entry.array = array ∧ isContext entry.array m = .ok false m ∧
      ∃ selector, specialSelector (selectorIndex access) m = .ok selector m := by
  have hempty : m'.atCache ≠ .empty := by
    rintro e
    rw [e, Flush.find_empty] at hfind
    exact absurd hfind (by simp)
  obtain ⟨selector, _, hselector, h⟩ := bind_ok.1 h
  obtain rfl := specialSelector_within (R := Eq) _ _ _ hselector
  obtain ⟨cls, _, hcls, h⟩ := bind_ok.1 h
  obtain rfl := classOf_within (R := Eq) _ _ _ hcls
  obtain ⟨_, _, hget, h⟩ := bind_ok.1 h
  obtain ⟨rfl, rfl⟩ := get_ok.1 hget
  split at h
  · obtain ⟨context, _, hcontext, h⟩ := bind_ok.1 h
    obtain rfl := isContext_within (R := Eq) _ _ _ hcontext
    cases context with
    | true =>
      obtain ⟨-, rfl⟩ := pure_ok.1 h
      exact absurd hm hempty
    | false =>
      obtain ⟨o, _, ho, h⟩ := bind_ok.1 h
      obtain ⟨ho, rfl⟩ := object_ok.1 ho
      obtain rfl := modify_ok.1 h
      rw [hm] at hfind
      obtain ⟨rfl, harray⟩ := AtCache.find_install hfind
      exact ⟨rfl, harray, hcontext, selector, hselector⟩
  · obtain ⟨-, rfl⟩ := pure_ok.1 h
    exact absurd hm hempty

end Action

/-! ### What a primitive remembers -/

namespace Access

/-- The primitive that makes the access, with bytes as characters or as integers. -/
def primitive (characters : Bool) : Access → Nat
  | .at => if characters then 63 else 60
  | .atPut => if characters then 64 else 61

/-- The access that works out the bounds of the array. -/
def slow (characters : Bool) : Access → Attempt Value
  | .at => Attempt.indexedAt false (.plain characters)
  | .atPut => Attempt.indexedAtPut false (.plain characters)

end Access

/-- What an at-cache may hold for an array if only this machine has filled it: the bounds that the
machine gives to the array, which is no float if elements are read. -/
def Machine.Explains (m : Machine) (access : Access) (characters : Bool) (array : Value) (hash : UInt16)
    (c : AtCache) : Prop :=
  ∀ known, c.find access array hash = some known → known.array = array ∧
    m.Bounds access characters known ∧
    (access = .at → Action.isInstanceOf array Special.classFloat m = .ok false m)

namespace Machine.Explains

open Attempt

variable {characters : Bool} {hash : UInt16}

theorem empty : m.Explains access characters array hash .empty := fun known h => by
  rw [Flush.find_empty] at h
  exact absurd h (by simp)

theorem settles_atEntry {target : Value} (hm : m.atCache = .empty) (hfloat : access = .at →
      Action.isInstanceOf target Special.classFloat m = .ok false m) :
    Settles (m.Explains access characters array hash)
      (liftM (Action.atEntry access target (.plain characters))) m := by
  refine .lift fun entry m' hrun known hfind => ?_
  rw [Action.atEntry_eq] at hrun
  obtain ⟨measured, m₁, hmeasure, hrest⟩ := bind_ok.1 hrun
  obtain ⟨rfl, rfl⟩ := Action.measure_ok hmeasure
  obtain ⟨_, m₂, hremember, hend⟩ := bind_ok.1 hrest
  obtain ⟨rfl, rfl⟩ := pure_ok.1 hend
  obtain ⟨rfl, rfl, hcontext, hselector⟩ := Action.remember_ok hm hremember hfind
  exact ⟨rfl, ⟨hmeasure, hcontext, hselector⟩, hfloat⟩

theorem settles_slow (hm : m.atCache = .empty) :
    Settles (m.Explains access characters array hash) (access.slow characters) m := by
  have hnow : m.Explains access characters array hash m.atCache := hm ▸ empty
  cases access with
  | «at» =>
    refine .look stackObject_stays hnow fun target _ => .look stackPositive32_stays hnow fun index _ => ?_
    refine .look (.lift Action.isInstanceOf_within) hnow fun float hfloat => ?_
    cases float with
    | true =>
      refine .look floatValue_stays hnow fun bits _ => ?_
      split
      · exact .blind (lift_blind Action.positive32_blind) hnow empty
      · exact .blind (lift_blind Action.positive32_blind) hnow empty
      · exact .blind .throw hnow empty
    | false =>
      exact .bind_blind (settles_atEntry hm fun _ => lift_ok.1 hfloat) empty fun entry =>
        .bind require_blind fun _ => elementAt_blind
  | atPut =>
    refine .look stackObject_stays hnow fun target _ => .look stackPositive32_stays hnow fun index _ => ?_
    refine .look stackValue_stays hnow fun x _ => ?_
    exact .bind_blind (settles_atEntry hm (by simp)) empty fun entry =>
      .bind require_blind fun _ => .bind elementPut_blind fun _ => .pure

end Machine.Explains

theorem Access.exists_primitive (access : Access) (characters : Bool) :
    ∃ p ∈ Primitive.all, p.number = access.primitive characters ∧ ∀ n, p.action n = (do
      Attempt.answer access.argCount (← access.slow characters)) := by
  cases access <;> cases characters
  · exact ⟨⟨60, "basicAt:", Primitive.basicAt⟩, by simp [Primitive.all], rfl, fun _ => rfl⟩
  · exact ⟨⟨63, "String at:", Primitive.stringAt⟩, by simp [Primitive.all], rfl, fun _ => rfl⟩
  · exact ⟨⟨61, "basicAt:put:", Primitive.basicAtPut⟩, by simp [Primitive.all], rfl, fun _ => rfl⟩
  · exact ⟨⟨64, "String at:put:", Primitive.stringAtPut⟩, by simp [Primitive.all], rfl, fun _ => rfl⟩

/-- A primitive that is tried without anything remembered leaves at most the bounds of the array. -/
theorem Machine.Explains.of_tryPrimitive {characters : Bool} {hash : UInt16} {trial : Action.Trial}
    (hm : m.atCache = .empty)
    (h : Action.tryPrimitive (access.primitive characters) n m = .ok trial m') :
    m.Explains access characters array hash m'.atCache := by
  obtain ⟨p, hp, hnumber, haction⟩ := access.exists_primitive characters
  have hsettles : Attempt.Settles (m.Explains access characters array hash) (p.action n) m := by
    rw [haction]
    exact .bind_blind (settles_slow hm) empty fun _ => Attempt.answer_blind
  have hquick : ¬(256 ≤ access.primitive characters ∧ access.primitive characters < 520) := by
    cases access <;> cases characters <;> decide
  unfold Action.tryPrimitive at h
  rw [if_neg hquick, ← hnumber, Primitive.find?_of_mem hp] at h
  obtain ⟨found, m₁, hrun, hend⟩ := bind_ok.1 h
  have hsettled : m.Explains access characters array hash m₁.atCache :=
    gives_run? (Q := fun _ m₁ => m.Explains access characters array hash m₁.atCache) hsettles.ok
      hsettles.declined found m₁ hrun
  rcases found with _ | _ | ⟨selector, count, cls⟩
  · obtain ⟨_, m₂, hcount, hend⟩ := bind_ok.1 hend
    obtain rfl := Action.modifyCounters_ok.1 hcount
    obtain ⟨-, rfl⟩ := pure_ok.1 hend
    exact hsettled
  · obtain ⟨-, rfl⟩ := pure_ok.1 hend
    exact hsettled
  · obtain ⟨-, rfl⟩ := pure_ok.1 hend
    exact hsettled

/-! ### Bounds that last -/

theorem Body.Fits.size {b b' : Body} (h : b.Fits b') : b'.size = b.size := by
  cases b <;> cases b' <;> simp_all [Body.Fits, Body.size]

theorem Object.Fits.namedFields {o o' : Object} (h : o.Fits o') (spec : Option InstanceSpec) :
    o'.namedFields spec = o.namedFields spec := by
  unfold Object.namedFields
  rw [h.format, h.pointers]

/-- Two machines see an array alike: as objects of one shape and one class. The class has the same
format word, the special objects are the same, and the special selectors that were there still are. -/
structure Machine.Likens (array : Value) (m m' : Machine) : Prop where
  object : ∃ o o', m.memory.get? array = some o ∧ m'.memory.get? array = some o' ∧ o.Fits o' ∧
    o'.cls = o.cls ∧ m'.memory.cell o.cls Class.format = m.memory.cell o.cls Class.format
  special : ∀ i, m'.specials.get m'.memory i = m.specials.get m.memory i
  selectors : ∀ i s, m.memory.cell (m.specials.get m.memory Special.specialSelectors) i = some s →
    ∃ s', m'.memory.cell (m.specials.get m.memory Special.specialSelectors) i = some s'

namespace Machine.Likens

open Smalltalk.Action

theorem isInstanceOf {b : Bool} (h : m.Likens array m') (hrun : isInstanceOf array i m = .ok b m) :
    Action.isInstanceOf array i m' = .ok b m' := by
  obtain ⟨o, o', ho, ho', -, hcls, -⟩ := h.object
  rw [isInstanceOf_eq, ho] at hrun
  rw [isInstanceOf_eq, ho', h.special, ← (EStateM.Result.ok.inj hrun).1]
  simp only [Option.any_some, hcls]

theorem isContext (h : m.Likens array m') (hrun : isContext array m = .ok false m) :
    Action.isContext array m' = .ok false m' := by
  obtain ⟨b, m₁, hb, hrun⟩ := bind_ok.1 hrun
  obtain rfl := isInstanceOf_within (R := Eq) _ _ _ hb
  cases b with
  | true => exact absurd (pure_ok.1 hrun).1 (by simp)
  | false => exact (bind_of_ok (h.isInstanceOf hb)).trans (h.isInstanceOf hrun)

theorem specialSelector {s : Value} (h : m.Likens array m') (hrun : specialSelector i m = .ok s m) :
    ∃ s', Action.specialSelector i m' = .ok s' m' := by
  obtain ⟨selectors, m₁, hspecial, hrun⟩ := bind_ok.1 hrun
  obtain ⟨rfl, rfl⟩ := special_ok.1 hspecial
  obtain ⟨s', hs'⟩ := h.selectors i s (fetch_ok.1 hrun).1
  refine ⟨s', (bind_of_ok (special_ok.2 ⟨rfl, rfl⟩)).trans (fetch_ok.2 ⟨?_, rfl⟩)⟩
  rw [h.special]
  exact hs'

theorem instanceSpec {o : Object} {spec : InstanceSpec} (hcell : m'.memory.cell o.cls Class.format =
      m.memory.cell o.cls Class.format) (hrun : instanceSpec o.cls m = .ok spec m) :
    Action.instanceSpec o.cls m' = .ok spec m' := by
  obtain ⟨word, m₁, hfetch, hend⟩ := bind_ok.1 hrun
  obtain ⟨hword, rfl⟩ := fetchInt_ok.1 hfetch
  obtain ⟨rfl, -⟩ := pure_ok.1 hend
  exact bind_of_ok (fetchInt_ok.2 ⟨hcell.trans hword, rfl⟩)

theorem fixedFields {fixed : Nat} (h : m.Likens array m') (hrun : fixedFields array m = .ok fixed m) :
    Action.fixedFields array m' = .ok fixed m' := by
  obtain ⟨o, o', ho, ho', hfits, hcls, hcell⟩ := h.object
  unfold Action.fixedFields at hrun ⊢
  rw [bind_of_ok (object_ok.2 ⟨ho, rfl⟩)] at hrun
  rw [bind_of_ok (object_ok.2 ⟨ho', rfl⟩), hfits.format, hcls]
  simp only [hfits.namedFields]
  have named (hnamed : (do return o.namedFields (some (← Action.instanceSpec o.cls)) : Action Nat) m =
      .ok fixed m) : (do return o.namedFields (some (← Action.instanceSpec o.cls)) : Action Nat) m' =
      .ok fixed m' := by
    obtain ⟨spec, m₁, hspec, hend⟩ := bind_ok.1 hnamed
    obtain rfl := instanceSpec_within (R := Eq) _ _ _ hspec
    obtain ⟨rfl, -⟩ := pure_ok.1 hend
    exact bind_of_ok (instanceSpec hcell hspec)
  have unnamed (hnone : (pure (o.namedFields none) : Action Nat) m = .ok fixed m) :
      (pure (o.namedFields none) : Action Nat) m' = .ok fixed m' :=
    pure_ok.2 ⟨(pure_ok.1 hnone).1, rfl⟩
  cases hformat : o.format with
  | fixedIndexable =>
    simp only [hformat] at hrun ⊢
    exact named hrun
  | weak =>
    simp only [hformat] at hrun ⊢
    exact named hrun
  | _ =>
    simp only [hformat] at hrun ⊢
    exact unnamed hrun

theorem indexableSize {size : Option Nat} (h : m.Likens array m')
    (hcontext : Action.isContext array m = .ok false m) (hrun : indexableSize array m = .ok size m) :
    Action.indexableSize array m' = .ok size m' := by
  obtain ⟨o, o', ho, ho', hfits, -⟩ := h.object
  unfold Action.indexableSize at hrun ⊢
  split_ifs at hrun ⊢
  · exact pure_ok.2 ⟨(pure_ok.1 hrun).1, rfl⟩
  rw [bind_of_ok hcontext, if_neg (by simp), bind_of_ok (object_ok.2 ⟨ho, rfl⟩)] at hrun
  rw [bind_of_ok (h.isContext hcontext), if_neg (by simp), bind_of_ok (object_ok.2 ⟨ho', rfl⟩),
    hfits.format, hfits.pointers, hfits.body.size]
  have constant {size' : Option Nat} (hrun : (pure size' : Action (Option Nat)) m = .ok size m) :
      (pure size' : Action (Option Nat)) m' = .ok size m' := pure_ok.2 ⟨(pure_ok.1 hrun).1, rfl⟩
  have indexed (hindexed : (do return some (o.pointers.size - (← Action.fixedFields array)) :
      Action (Option Nat)) m = .ok size m) : (do
      return some (o.pointers.size - (← Action.fixedFields array)) : Action (Option Nat)) m' =
      .ok size m' := by
    obtain ⟨fixed, m₁, hfixed, hend⟩ := bind_ok.1 hindexed
    obtain rfl := fixedFields_within (R := Eq) _ _ _ hfixed
    exact (bind_of_ok (h.fixedFields hfixed)).trans (constant hend)
  cases hformat : o.format with
  | indexable =>
    simp only [hformat] at hrun ⊢
    exact indexed hrun
  | fixedIndexable =>
    simp only [hformat] at hrun ⊢
    exact indexed hrun
  | weak =>
    simp only [hformat] at hrun ⊢
    exact indexed hrun
  | _ =>
    simp only [hformat] at hrun ⊢
    exact constant hrun

theorem measure {characters : Bool} (h : m.Likens array m')
    (hcontext : Action.isContext array m = .ok false m)
    (hrun : measure array characters m = .ok entry m) :
    Action.measure array characters m' = .ok entry m' := by
  obtain ⟨o, o', ho, ho', hfits, -⟩ := h.object
  obtain ⟨fixed, m₁, hfixed, hrest⟩ := bind_ok.1 hrun
  obtain rfl := fixedFields_within (R := Eq) _ _ _ hfixed
  obtain ⟨size, m₁, hsize, hrest⟩ := bind_ok.1 hrest
  obtain rfl := indexableSize_within (R := Eq) _ _ _ hsize
  rw [bind_of_ok (object_ok.2 ⟨ho, rfl⟩)] at hrest
  unfold Action.measure
  rw [bind_of_ok (h.fixedFields hfixed), bind_of_ok (h.indexableSize hcontext hsize),
    bind_of_ok (object_ok.2 ⟨ho', rfl⟩), hfits.format]
  exact pure_ok.2 ⟨(pure_ok.1 hrest).1, rfl⟩

theorem bounds {characters : Bool} (h : m.Likens entry.array m')
    (hbounds : m.Bounds access characters entry) : m'.Bounds access characters entry := by
  obtain ⟨selector, hselector⟩ := hbounds.selector
  exact ⟨h.measure hbounds.context hbounds.measured, h.isContext hbounds.context,
    h.specialSelector hselector⟩

end Machine.Likens

/-! ### Both ways to make an access -/

/-- Working out the bounds again changes nothing but the at-cache. -/
theorem Machine.Bounds.atEntry {characters : Bool} (h : m.Bounds access characters entry)
    (ho : m.memory.get? entry.array = some o) :
    ∃ c, Action.atEntry access entry.array (.plain characters) m = .ok entry (m.recalling c) := by
  obtain ⟨selector, hselector⟩ := h.selector
  have hcls : Action.classOf entry.array m = .ok o.cls m :=
    Action.classOf_ok.2 ⟨.inr ⟨o, ho, rfl⟩, rfl⟩
  have hget : (get : Action Machine) m = .ok m m := rfl
  have hremember : ∃ c, Action.remember access entry m = .ok () (m.recalling c) := by
    unfold Action.remember
    rw [bind_of_ok hselector, bind_of_ok hcls, bind_of_ok hget]
    split
    · rw [bind_of_ok h.context, if_pos (by rfl), bind_of_ok (Action.object_ok.2 ⟨ho, rfl⟩)]
      exact ⟨_, rfl⟩
    · exact ⟨m.atCache, rfl⟩
  obtain ⟨c, hremember⟩ := hremember
  refine ⟨c, ?_⟩
  rw [Action.atEntry_eq, bind_of_ok h.measured, bind_of_ok hremember]
  rfl

namespace Attempt

/-- After the same look, results that differ in the at-cache differ in the at-cache. -/
theorem bind_recalling {x : Attempt α} {f g : α → Attempt β} (hx : Stays Eq x)
    (h : ∀ a, x m = .ok a m → ∃ c, f a m = recalling c (g a m)) :
    ∃ c, (x >>= f) m = recalling c ((x >>= g) m) := by
  cases hrun : x m with
  | error e m' => exact ⟨m'.atCache, by rw [bind_of_error hrun, bind_of_error hrun]; rfl⟩
  | ok a m' =>
    obtain rfl := hx.ok m a m' hrun
    rw [bind_of_ok hrun, bind_of_ok hrun]
    exact h a hrun

/-- What is recalled and what is worked out again are used in the same way. -/
theorem entry_recalling {characters : Bool} {f : AtEntry → Attempt β} (hf : ∀ entry, Blind (f entry))
    (ho : m.memory.get? array = some o) (hrecalled : m.atCache.find access array o.hash = some entry)
    (harray : entry.array = array) (h : m.Bounds access characters entry) :
    ∃ c, ((liftM (Action.atEntry access array (.plain characters)) : Attempt AtEntry) >>= f) m =
      recalling c ((cachedEntry access array >>= f) m) := by
  subst harray
  obtain ⟨c, hentry⟩ := h.atEntry ho
  obtain ⟨c', -, hrun⟩ := hf entry m c
  have hcached : cachedEntry access entry.array m = .ok entry m := by
    rw [cachedEntry_eq ho, hrecalled]
    rfl
  exact ⟨c', by rw [bind_of_ok (lift_ok.2 hentry), bind_of_ok hcached, hrun]⟩

/-- As long as the bounds are right, the access by what is recalled is the access that works them out. -/
theorem slow_eq_quick {characters : Bool} (hstack : Action.stackValue access.argCount m = .ok array m)
    (ho : m.memory.get? array = some o) (hrecalled : m.atCache.find access array o.hash = some entry)
    (harray : entry.array = array) (h : m.Bounds access characters entry) (hfloat : access = .at →
      Action.isInstanceOf array Special.classFloat m = .ok false m) :
    ∃ c, access.slow characters m = recalling c (access.quick m) := by
  cases access with
  | «at» =>
    have hobject : stackObject 1 m = .ok array m := stackObject_eq hstack ho
    have hfloat := lift_ok.2 (hfloat rfl)
    change ∃ c, indexedAt false (.plain characters) m = recalling c (indexedAt true Primitive.characterMode m)
    unfold indexedAt
    rw [bind_of_ok hobject, bind_of_ok hobject]
    refine bind_recalling stackPositive32_stays fun index _ => ?_
    rw [bind_of_ok hfloat, bind_of_ok hfloat]
    exact entry_recalling (fun entry => .bind require_blind fun _ => elementAt_blind) ho hrecalled harray h
  | atPut =>
    have hobject : stackObject 2 m = .ok array m := stackObject_eq hstack ho
    change ∃ c, indexedAtPut false (.plain characters) m =
      recalling c (indexedAtPut true Primitive.characterMode m)
    unfold indexedAtPut
    rw [bind_of_ok hobject, bind_of_ok hobject]
    refine bind_recalling stackPositive32_stays fun index _ => bind_recalling stackValue_stays fun x _ => ?_
    exact entry_recalling (fun entry => .bind require_blind fun _ => .bind elementPut_blind fun _ => .pure)
      ho hrecalled harray h

end Attempt

/-! ### From the primitive to the next access -/

namespace Machine

variable {m₀ m₁ : Machine}

/-- The machine goes on by a whole step, or by what is left of the step in which a primitive was
tried and declined: its method is made active. -/
inductive GoesOn (m m' : Machine) : Prop
  | advance (h : Advance m m')
  | activation (receiver method : Value) (argCount : Nat)
      (h : Action.activateMethod receiver method argCount m = .ok () m')

theorem endures_refl (m : Machine) : Endures Object.Fits m m :=
  (Remains.of_memory rfl).mono fun _ _ => Object.Remains.toFits

theorem GoesOn.endures (h : GoesOn m m') : Endures Object.Fits m m' := by
  cases h with
  | advance h => exact h.proceeds.endures
  | activation receiver method argCount h =>
    exact (Action.activateMethod_remains m () m' h).mono fun _ _ => Object.Remains.toFits

theorem endures_of_goesOn (h : Relation.ReflTransGen GoesOn m m') : Endures Object.Fits m m' := by
  induction h with
  | refl => exact endures_refl m
  | tail _ hlast ih => exact .trans .trans ih hlast.endures

theorem endures_of_tryPrimitive {number : Nat} {trial : Action.Trial}
    (h : Action.tryPrimitive number n m = .ok trial m') : Endures Object.Fits m m' := by
  rcases Action.tryPrimitive_lasts trial m' h with hremains | ⟨-, hbecame⟩
  · exact hremains.mono fun _ _ => Object.Remains.toFits
  · exact hbecame.endures

/-- A primitive for a plain access leaves an entry in the at-cache, and leaves it there even if nothing
was remembered before. As long as the entry is found, the array has the class that it had when the
primitive was tried, the class the same format word and the machine the same special objects, of which the
array of selectors is not freed, the access by the entry and the access that works out the bounds have the same outcome, but for the
at-cache. -/
theorem quick_recalls {characters : Bool} {trial : Action.Trial} {o₀ : Object}
    (stocked : m₀.memory.Stocked)
    (tried : Action.tryPrimitive (access.primitive characters) n m₀ = .ok trial m₁)
    (installs : ∃ trial m', Action.tryPrimitive (access.primitive characters) n (m₀.recalling .empty) =
      .ok trial m' ∧ m'.atCache.find access array o₀.hash = some entry)
    (since : Relation.ReflTransGen GoesOn m₁ m)
    (before : m₀.memory.get? array = some o₀) (now : m.memory.get? array = some o)
    (cls : o.cls = o₀.cls)
    (format : m.memory.cell o₀.cls Class.format = m₀.memory.cell o₀.cls Class.format)
    (special : ∀ i, m.specials.get m.memory i = m₀.specials.get m₀.memory i)
    (selectors : m₀.memory.isLive (m₀.specials.get m₀.memory Special.specialSelectors) = true →
      m.memory.isLive (m.specials.get m.memory Special.specialSelectors) = true)
    (recalled : m.atCache.find access array o.hash = some entry)
    (stack : Action.stackValue access.argCount m = .ok array m) :
    ∃ c, access.slow characters m = Outcome.recalling c (access.quick m) := by
  have hendures : Endures Object.Fits m₀ m :=
    .trans .trans (endures_of_tryPrimitive tried) (endures_of_goesOn since)
  obtain ⟨trial', m', htried, hfind⟩ := installs
  obtain ⟨harray, hbounds, hfloat⟩ := Explains.of_tryPrimitive rfl htried entry hfind
  have hlikens : (m₀.recalling .empty).Likens array m := by
    refine ⟨⟨o₀, o, before, now, hendures.object stocked _ _ _ before now, cls, format⟩, special, ?_⟩
    intro i s hs
    obtain ⟨p, hp, hi⟩ := Memory.cell_eq_some.1 hs
    obtain ⟨p', hp'⟩ := Memory.isLive_iff.1 (selectors (Memory.isLive_iff.2 ⟨p, hp⟩))
    rw [special] at hp'
    have hsize := (hendures.object stocked _ _ _ hp hp').pointers
    have hlt : i < p'.pointers.size := by
      rw [hsize]
      exact (Array.getElem?_eq_some_iff.1 hi).1
    exact ⟨p'.pointers[i], Memory.cell_eq_some.2 ⟨p', hp', Array.getElem?_eq_getElem hlt⟩⟩
  refine Attempt.slow_eq_quick stack now recalled harray ?_ fun h => hlikens.isInstanceOf (hfloat h)
  exact Likens.bounds (harray ▸ hlikens) hbounds

/-- The rack, with an array of three fields of which one is named. The array and an index stand on the
stack twice. -/
def rackTwice : Machine :=
  let nil : Value := .ref 0 0
  let pointers cls format fields := Object.ofPointers cls format (List.toArray fields)
  let objects := ((Flush.rackObjects.set 2
      (pointers nil .fixed [nil, .ref 3 0, .small (InstanceSpec.encode 1 3)])).set 9
      (pointers (.ref 2 0) .fixedIndexable [.small 10, .small 20, .small 30])).set 12
      (pointers nil .indexable ([nil, .small 0, .small 0, .ref 11 0, nil, nil, .ref 9 0, .small 1,
        .ref 9 0, .small 2] ++ List.replicate 14 nil))
  { Flush.rack with
    memory := filled (.empty .standard) objects
    registers := { Flush.rack.registers with sp := 9 }
    lastPrimitiveSend := some (.ref 5 0, .ref 2 0)
    atCache := .empty }

/-- The second element is read by the primitive and dropped by the next step. Then the first element is
the same with and without the at-cache. -/
theorem quick_recalls_rack : ∃ m₁ m c m', Action.tryPrimitive 60 1 rackTwice = .ok .handled m₁ ∧
    Action.step m₁ = .ok () m ∧ Access.at.quick m = .ok (.small 20) m' ∧
    Access.at.slow false m = Outcome.recalling c (Access.at.quick m) := by
  have stocked : rackTwice.memory.Stocked :=
    (wellFormed_filled (Memory.wellFormed_empty _) (by decide +kernel)).toStocked
  let entry : AtEntry := ⟨.ref 9 0, 2, 1, false⟩
  have hrun : Action.leads (Action.tryPrimitive 60 1) rackTwice (fun trial m₁ =>
      decide (trial = .handled ∧ m₁.atCache.find .at (.ref 9 0) 0 = some entry) &&
      Action.leads Action.step m₁ fun _ m =>
        decide ((∀ v ∈ [Value.ref 9 0, .ref 2 0, .ref 1 0], m.memory.get? v = rackTwice.memory.get? v) ∧
          m.specials = rackTwice.specials ∧ m.memory.isLive (.ref 8 0) = true ∧
          m.atCache.find .at (.ref 9 0) 0 = some entry) &&
        Action.leads (Action.stackValue 1) m (fun v _ => decide (v = .ref 9 0)) &&
        Action.leads (Access.at.quick.run?) m (fun v _ => decide (v = some (.small 20)))) = true := by
    decide +kernel
  obtain ⟨trial, m₁, htry, hbranch⟩ := Action.exists_of_leads hrun
  obtain ⟨hfirst, hrest⟩ := Bool.and_eq_true_iff.1 hbranch
  obtain ⟨rfl, hinstalled⟩ := of_decide_eq_true hfirst
  obtain ⟨⟨⟩, m, hstep, hend⟩ := Action.exists_of_leads hrest
  obtain ⟨hlooks, hquick⟩ := Bool.and_eq_true_iff.1 hend
  obtain ⟨hkept, hstack⟩ := Bool.and_eq_true_iff.1 hlooks
  obtain ⟨hsame, hspecials, hlive, hrecalled⟩ := of_decide_eq_true hkept
  obtain ⟨o, ho, hhash, hcls⟩ : ∃ o, rackTwice.memory.get? (.ref 9 0) = some o ∧ o.hash = 0 ∧
      o.cls = .ref 2 0 := ⟨_, rfl, by decide +kernel, by decide +kernel⟩
  have hspecial (i : Nat) : m.specials.get m.memory i = rackTwice.specials.get rackTwice.memory i := by
    rw [hspecials]
    exact congrArg (fun p => (p.bind fun o => o.pointers[i]?).getD rackTwice.specials.nil)
      (hsame (.ref 1 0) (by decide))
  have hselectors : rackTwice.specials.get rackTwice.memory Special.specialSelectors = .ref 8 0 := by
    decide +kernel
  obtain ⟨v, m₂, hv, hvalue⟩ := Action.exists_of_leads hstack
  obtain rfl := of_decide_eq_true hvalue
  obtain rfl : m = m₂ := Action.stackValue_within (R := Eq) _ _ _ hv
  obtain ⟨found, m', hfound, hvalue⟩ := Action.exists_of_leads hquick
  obtain rfl := of_decide_eq_true hvalue
  have hanswer : Access.at.quick m = .ok (.small 20) m' := by
    simp only [Attempt.run?] at hfound
    split at hfound <;> cases hfound
    assumption
  have hfresh : rackTwice.recalling .empty = rackTwice := recalling_self rackTwice
  have htried : Action.tryPrimitive (Access.at.primitive false) 1 rackTwice = .ok .handled m₁ := htry
  obtain ⟨c, hslow⟩ := quick_recalls stocked htried
    ⟨.handled, m₁, by rw [hfresh]; exact htried, by rw [hhash]; exact hinstalled⟩ (.single (.advance (.step hstep))) ho
    ((hsame (.ref 9 0) (by decide)).trans ho) rfl
    (by rw [hcls]; simp only [Memory.cell, hsame (.ref 2 0) (by decide)])
    hspecial (fun _ => by rw [hspecial, hselectors]; exact hlive) (by rw [hhash]; exact hrecalled) hv
  exact ⟨m₁, m, c, m', htry, hstep, hanswer, hslow⟩

end Machine

end Smalltalk
