import Smalltalk.Proofs.Trials

/-!
# Answering primitives

A primitive that answers first does its groundwork: it looks at its operands, makes objects, reclaims
others, uses devices, and stores into at most one object that was there before. Only then does it
take its arguments off the stack and put the answer in the place of the receiver, unless the receiver
is the answer itself. This is said once for every primitive, over any relation that allows what
groundwork consists of.
-/

namespace Smalltalk

open Outcome

/-! ### Objects that remain what they are -/

/-- Raw parts of one kind and one length. -/
def Body.Fits : Body → Body → Prop
  | .none, .none => True
  | .words ws, .words ws' => ws'.size = ws.size
  | .bytes bs, .bytes bs' => bs'.size = bs.size
  | .float _, .float _ => True
  | _, _ => False

/-- Objects of one shape: format, identity hash, number of pointer fields, kind and length of the
raw part. -/
structure Object.Fits (o o' : Object) : Prop where
  format : o'.format = o.format
  hash : o'.hash = o.hash
  pointers : o'.pointers.size = o.pointers.size
  body : o.body.Fits o'.body

/-- Objects of one shape and one class. -/
structure Object.Remains (o o' : Object) : Prop extends o.Fits o' where
  cls : o'.cls = o.cls

theorem Body.Fits.refl (b : Body) : b.Fits b := by
  cases b with
  | none => trivial
  | words ws => rfl
  | bytes bs => rfl
  | float bits => trivial

theorem Body.Fits.trans {a b c : Body} (h : a.Fits b) (h' : b.Fits c) : a.Fits c := by
  cases a <;> cases b <;> cases c <;> simp_all [Body.Fits]

namespace Object

variable {o o' o'' : Object}

theorem Fits.refl (o : Object) : o.Fits o := ⟨rfl, rfl, rfl, .refl _⟩

theorem Fits.trans (h : o.Fits o') (h' : o'.Fits o'') : o.Fits o'' :=
  ⟨h'.format.trans h.format, h'.hash.trans h.hash, h'.pointers.trans h.pointers, h.body.trans h'.body⟩

theorem Remains.refl (o : Object) : o.Remains o := ⟨.refl o, rfl⟩

theorem Remains.trans (h : o.Remains o') (h' : o'.Remains o'') : o.Remains o'' :=
  ⟨h.toFits.trans h'.toFits, h'.cls.trans h.cls⟩

theorem Remains.of_pointers {pointers : Array Value} (h : pointers.size = o.pointers.size) :
    o.Remains { o with pointers } := ⟨⟨rfl, rfl, h, .refl _⟩, rfl⟩

theorem Remains.of_body {body : Body} (h : o.body.Fits body) : o.Remains { o with body } :=
  ⟨⟨rfl, rfl, rfl, h⟩, rfl⟩

theorem remains_setPointer (o : Object) (i : Nat) (x : Value) : o.Remains (o.setPointer i x) :=
  .of_pointers Array.size_setIfInBounds

theorem remains_setByte (o : Object) (i : Nat) (byte : UInt8) : o.Remains (o.setByte i byte) := by
  obtain ⟨cls, format, hash, pointers, body⟩ := o
  cases body with
  | bytes bs => exact .of_body (o := ⟨cls, format, hash, pointers, .bytes bs⟩) Array.size_setIfInBounds
  | none => exact .refl _
  | words ws => exact .refl _
  | float bits => exact .refl _

theorem remains_setWord (o : Object) (i : Nat) (word : UInt32) : o.Remains (o.setWord i word) := by
  obtain ⟨cls, format, hash, pointers, body⟩ := o
  cases body with
  | words ws => exact .of_body (o := ⟨cls, format, hash, pointers, .words ws⟩) Array.size_setIfInBounds
  | none => exact .refl _
  | bytes bs => exact .refl _
  | float bits => exact .refl _

theorem remains_words {words words' : Array UInt32} (h : o.words? = some words)
    (hsize : words'.size = words.size) : o.Remains { o with body := .words words' } := by
  refine .of_body ?_
  cases hbody : o.body with
  | words ws =>
    simp only [words?, hbody, Option.some.injEq] at h
    rw [h]
    exact hsize
  | none => simp [words?, hbody] at h
  | bytes bs => simp [words?, hbody] at h
  | float bits => simp [words?, hbody] at h

theorem remains_bytes {bytes bytes' : Array UInt8} (h : o.bytes? = some bytes)
    (hsize : bytes'.size = bytes.size) : o.Remains { o with body := .bytes bytes' } := by
  refine .of_body ?_
  cases hbody : o.body with
  | bytes bs =>
    simp only [bytes?, hbody, Option.some.injEq] at h
    rw [h]
    exact hsize
  | none => simp [bytes?, hbody] at h
  | words ws => simp [bytes?, hbody] at h
  | float bits => simp [bytes?, hbody] at h

end Object

/-! ### Groundwork -/

/-- Caches, pins, counters and devices have changed, at most. The pool may have been given up, and the
count of the contexts to recycle may have started anew. -/
structure Machine.Upkept (m m' : Machine) : Prop where
  slots : m'.memory.slots = m.memory.slots
  free : m'.memory.free = m.memory.free
  registers : m'.registers = m.registers
  specials : m'.specials = m.specials
  pool : m'.pool = m.pool ∨ m'.pool = m.pool.clear
  reclaimable : m'.reclaimable = m.reclaimable ∨ m'.reclaimable = 0

/-- What a primitive may do before it answers, for each object that it may store into. -/
class Machine.Groundwork (R : Option Value → Machine → Machine → Prop) : Prop where
  refl : ∀ t m, R t m m
  trans : ∀ {t m m' m''}, R t m m' → R t m' m'' → R t m m''
  upkeep : ∀ {t m m'}, m.Upkept m' → R t m m'
  trims : ∀ {t m m'}, Trims m m' → R t m m'
  /-- A new object may be made and stored into. -/
  fresh : ∀ {t m m' o}, R (some (m.memory.place o).1) (Action.placed m o) m' → R t m m'
  /-- The raw part of any object may change. -/
  body : ∀ {t m v f}, (∀ o, m.memory.get? v = some o → (f o).pointers = o.pointers ∧ o.Remains (f o)) →
    R t m (m.modified v f)
  storeInto : ∀ {m v f}, (∀ o, m.memory.get? v = some o → o.Remains (f o)) →
    R (some v) m (m.modified v f)

namespace Machine.Groundwork

open Attempt Smalltalk.Action

variable {R : Option Value → Machine → Machine → Prop} [Groundwork R] {t : Option Value} {v : Value}
  {o : Object} {m m' : Machine} {n : Nat}

instance : Std.Refl (R t) := ⟨refl t⟩

instance : IsTrans Machine (R t) := ⟨fun _ _ _ => trans⟩

theorem placed (m : Machine) (o : Object) : R t m (Action.placed m o) := fresh (refl _ _)

theorem allocate : Within (R t) (allocate o) := by
  intro m v m' hrun
  obtain ⟨m₁, hash, htrims, -, rfl⟩ := allocate_ok hrun
  exact trans (trims htrims) (placed m₁ _)

theorem instantiate {count : Nat} : Within (R t) (instantiate v count) :=
  .bind instanceSpec_within fun _ => .bind nil_within fun _ => allocate

theorem makeFloat {bits : UInt64} : Within (R t) (makeFloat bits) :=
  .bind special_within fun _ => allocate

theorem makeString {text : String} : Within (R t) (makeString text) :=
  .bind special_within fun _ => allocate

theorem positive32 : Within (R t) (positive32 n) := by
  unfold Action.positive32
  split
  · exact .pure
  · exact .bind special_within fun _ => allocate

theorem store {i : Nat} {x : Value} : Within (R (some v)) (store v i x) := by
  intro m u m' hrun
  obtain ⟨-, rfl⟩ := store_ok.1 hrun
  rw [setCell_eq]
  exact storeInto fun o _ => o.remains_setPointer i x

theorem reclaim {scope : Scope} : Within (R t) (reclaim scope) := fun _ _ _ hrun =>
  trims (reclaim_trims hrun)

theorem modify {g : Machine → Machine} (hg : ∀ m : Machine, m.Upkept (g m)) :
    Stays (R t) (modify g : Attempt Unit) := by
  refine ⟨fun m a m' hrun => ?_, Certain.modify.yields⟩
  obtain rfl := modify_ok.1 hrun
  exact upkeep (hg m)

theorem withPins (m : Machine) (pins : Array Value) : R t m (m.withPins pins) :=
  upkeep ⟨rfl, rfl, rfl, rfl, .inl rfl, .inl rfl⟩

/-! ### New objects that are filled -/

/-- An action that makes an object: what is stored into the object afterwards changes nothing that
was there before. -/
def Makes (R : Option Value → Machine → Machine → Prop) (y : Action Value) : Prop :=
  ∀ m v m', y m = .ok v m' → ∀ {t m''}, R (some v) m' m'' → R t m m''

theorem makes_allocate : Makes R (Action.allocate o) := by
  intro m v m' hrun t m'' hfill
  obtain ⟨m₁, hash, htrims, rfl, rfl⟩ := allocate_ok hrun
  exact trans (trims htrims) (fresh hfill)

omit [Groundwork R] in
theorem Makes.after {α : Type} {y : Action α} {f : α → Action Value} (hy : Within Eq y)
    (hf : ∀ a, Makes R (f a)) : Makes R (y >>= f) := by
  intro m v m' hrun
  obtain ⟨a, m₁, h, h'⟩ := bind_ok.1 hrun
  obtain rfl := hy m a m₁ h
  exact hf a m v m' h'

theorem makes_instantiate {count : Nat} : Makes R (Action.instantiate v count) :=
  .after instanceSpec_within fun _ => .after nil_within fun _ => makes_allocate

theorem Makes.pinned {values : List Value} {y : Action Value} (hy : Makes R y) :
    Makes R (Action.withPins values y) := by
  intro m v m' hrun t m'' hfill
  obtain ⟨m₁, hmake, rfl⟩ := withPins_ok hrun
  exact trans (withPins m _) (hy _ v m₁ hmake (trans (withPins m₁ _) hfill))

omit [Groundwork R] in
theorem Makes.fill {y : Action Value} {α : Type} {f : Value → Action α} (hy : Makes R y)
    (hf : ∀ v, Within (R (some v)) (f v)) : Within (R t) (y >>= f) := by
  intro m a m' hrun
  obtain ⟨v, m₁, h, h'⟩ := bind_ok.1 hrun
  exact hy m v m₁ h (hf v m₁ a m' h')

theorem makePoint {x y : Value} : Within (R t) (makePoint x y) :=
  (Makes.pinned (.after special_within fun _ => makes_instantiate)).fill fun _ =>
    .bind store fun _ => .bind store fun _ => .pure

theorem lookup {selector cls : Value} : Within (R t) (lookup selector cls) := by
  intro m found m' hrun
  simp only [Action.lookup] at hrun
  split at hrun
  · simp only [EStateM.Result.ok.injEq] at hrun
    rw [← hrun.2]
    exact upkeep ⟨rfl, rfl, rfl, rfl, .inl rfl, .inl rfl⟩
  · exact absurd hrun (by simp)

/-- A message is filled while nothing refers to it yet. -/
theorem createMessage {selector cls : Value} : Within (R t) (createMessage selector n cls) := by
  refine .bind stackValues_within fun _ => .bind special_within fun _ => .bind allocate fun _ => ?_
  refine (Makes.pinned (.after special_within fun _ => makes_instantiate)).fill fun _ => ?_
  refine .bind store fun _ => .bind store fun _ => .bind object_within fun _ => ?_
  exact .ite (.bind store fun _ => .pure) .pure

/-- A block is filled while nothing refers to it yet. -/
theorem blockCopy : Stays (R t) Attempt.blockCopy := by
  refine stackObject_stays.bind fun context => stackValue_stays.bind fun argCount => ?_
  refine Stays.require.bind fun _ => (Stays.lift isContext_within).bind fun _ => ?_
  refine Stays.require.bind fun _ => (Stays.lift fetch_within).bind fun slot => ?_
  refine .join (fun jp => .ite ((Stays.lift fetch_within).bind jp) (Stays.pure.bind jp)) fun home => ?_
  refine (Stays.lift object_within).bind fun o => (Stays.lift nil_within).bind fun nil => ?_
  refine (Stays.lift special_within).bind fun cls => ⟨fun m v m' hrun => ?_, Certain.yields ?_⟩
  · obtain ⟨block, m₁, halloc, hfill⟩ := bind_ok.1 hrun
    refine makes_allocate m block m₁ (lift_ok.1 halloc) (Stays.ok ?_ m₁ v m' hfill)
    refine (Stays.lift registers_within).bind fun r => (Stays.lift ofExcept_within).bind fun _ => ?_
    refine (Stays.lift assertFrame_within).bind fun _ => (Stays.lift store).bind fun _ => ?_
    refine (Stays.lift store).bind fun _ => (Stays.lift store).bind fun _ => ?_
    refine (Stays.lift store).bind fun _ => (Stays.lift store).bind fun _ => ?_
    refine (Stays.lift store).bind fun _ => Stays.bind (modify fun _ => ?_) fun _ => .pure
    exact ⟨rfl, rfl, rfl, rfl, .inl rfl, .inr rfl⟩
  · refine .bind .lift fun _ => .bind .lift fun _ => .bind .lift fun _ => .bind .lift fun _ => ?_
    refine .bind .lift fun _ => .bind .lift fun _ => .bind .lift fun _ => .bind .lift fun _ => ?_
    exact .bind .lift fun _ => .bind .lift fun _ => .bind .modify fun _ => .pure

/-! ### Caches, devices and files -/

theorem onDevices {α : Type} {f : Device.Devices → α × Device.Devices} : Stays (R t) (onDevices f) := by
  refine ⟨fun m a m' hrun => ?_, onDevices_certain.yields⟩
  simp only [Attempt.onDevices, EStateM.Result.ok.injEq] at hrun
  rw [← hrun.2]
  exact upkeep ⟨rfl, rfl, rfl, rfl, .inl rfl, .inl rfl⟩

theorem onFiles {α : Type} {f : Device.FileSystem → Option (α × Device.FileSystem)} :
    Stays (R t) (onFiles f) := by
  refine Stays.get.bind fun _ => Stays.ofOption.bind fun found => ?_
  exact Stays.bind (modify fun _ => ⟨rfl, rfl, rfl, rfl, .inl rfl, .inl rfl⟩) fun _ => .pure

theorem changeFiles {f : Device.FileSystem → Option Device.FileSystem} : Stays (R t) (changeFiles f) :=
  onFiles

theorem atEntry {access : Access} {mode : AccessMode} : Within (R t) (atEntry access v mode) := by
  refine .bind fixedFields_within fun _ => .bind indexableSize_within fun _ => ?_
  refine .bind object_within fun _ => .bind specialSelector_within fun _ => ?_
  refine .bind classOf_within fun _ => .bind get_within fun _ => .ite ?_ .pure
  refine .bind isContext_within fun _ => .ite (.bind object_within fun _ => ?_) .pure
  refine .bind (fun m u m' hrun => ?_) fun _ => .pure
  obtain rfl := modify_ok.1 hrun
  exact upkeep ⟨rfl, rfl, rfl, rfl, .inl rfl, .inl rfl⟩

theorem query {f : Memory → Option Value × Memory} (hf : ∀ memory, Primitive.Found memory (f memory)) :
    Within (R t) (query f) := by
  intro m found m' hrun
  obtain ⟨⟨hint, hmemory⟩, -⟩ := hf m.memory
  simp only [Action.query, EStateM.Result.ok.injEq] at hrun
  obtain ⟨-, rfl⟩ := hrun
  refine upkeep ⟨?_, ?_, rfl, rfl, .inl rfl, .inl rfl⟩
  · rw [hmemory]
  · rw [hmemory]

/-! ### Elements -/

theorem newPositive32 : Stays (R t) (newPositive32 n) := Stays.require.bind fun _ => .lift positive32

theorem elementAt {slot : Nat} {entry : AtEntry} {mode : AccessMode} :
    Stays (R t) (elementAt v slot entry mode) := by
  refine Stays.bind (.lift object_within) fun o => ?_
  split
  · exact .ofOption
  · cases o.format
    case words => exact .bind .ofOption fun _ => .lift positive32
    case bytes =>
      refine .bind .ofOption fun _ => ?_
      split
      · exact .lift characterFor_within
      · exact .pure
    case method => exact .bind .require fun _ => .bind .ofOption fun _ => .pure
    all_goals exact .ofOption

theorem indexedAt {mode : AccessMode} : Stays (R t) (indexedAt false mode) := by
  refine stackObject_stays.bind fun array => stackPositive32_stays.bind fun index => ?_
  refine (Stays.lift isInstanceOf_within).bind fun b => ?_
  cases b with
  | true =>
    refine floatValue_stays.bind fun bits => ?_
    split
    · exact .lift positive32
    · exact .lift positive32
    · exact .decline
  | false => exact (Stays.lift atEntry).bind fun entry => Stays.require.bind fun _ => elementAt

/-- Words may be put in the place of as many words. -/
theorem words {words words' : Array UInt32} (ho : m.memory.get? v = some o)
    (hwords : o.words? = some words) (hsize : words'.size = words.size) :
    R t m (m.modified v fun o => { o with body := .words words' }) := by
  refine body fun o' ho' => ⟨rfl, ?_⟩
  rw [ho] at ho'
  obtain rfl := Option.some.inj ho'
  exact o.remains_words hwords hsize

/-- Bytes may be put in the place of as many bytes. -/
theorem bytes {bytes bytes' : Array UInt8} (ho : m.memory.get? v = some o)
    (hbytes : o.bytes? = some bytes) (hsize : bytes'.size = bytes.size) :
    R t m (m.modified v fun o => { o with body := .bytes bytes' }) := by
  refine body fun o' ho' => ⟨rfl, ?_⟩
  rw [ho] at ho'
  obtain rfl := Option.some.inj ho'
  exact o.remains_bytes hbytes hsize

/-- A change of one object, by which the object remains what it is. -/
theorem modifyMemory {f : Object → Object} (hf : ∀ o : Object, o.Remains (f o)) :
    Within (R (some v)) (modifyMemory fun memory => memory.modify v f) := by
  intro m u m' hrun
  obtain rfl := modifyMemory_ok.1 hrun
  exact storeInto fun o _ => hf o

theorem putPointer {slot : Nat} {x : Value} : Stays (R (some v)) (putPointer v slot x) :=
  (Stays.lift object_within).bind fun _ => Stays.require.bind fun _ =>
    .lift (modifyMemory fun o => o.remains_setPointer slot x)

theorem putByte {slot : Nat} {byte : UInt8} : Stays (R (some v)) (putByte v slot byte) :=
  (Stays.lift object_within).bind fun _ => Stays.ofOption.bind fun _ => Stays.require.bind fun _ =>
    .lift (modifyMemory fun o => o.remains_setByte slot byte)

theorem putWord {slot : Nat} {word : UInt32} : Stays (R (some v)) (putWord v slot word) :=
  (Stays.lift object_within).bind fun _ => Stays.ofOption.bind fun _ => Stays.require.bind fun _ =>
    .lift (modifyMemory fun o => o.remains_setWord slot word)

theorem elementPut {slot : Nat} {x : Value} {entry : AtEntry} {mode : AccessMode} :
    Stays (R (some v)) (elementPut v slot x entry mode) := by
  refine (Stays.lift object_within).bind fun o => ?_
  split
  · exact putPointer
  · cases o.format
    case words => exact positive32Value_stays.bind fun _ => putWord
    case bytes => exact byteToPut_stays.bind fun _ => putByte
    case method => exact byteToPut_stays.bind fun _ => Stays.require.bind fun _ => putByte
    all_goals exact putPointer

end Machine.Groundwork

/-! ### Answers -/

/-- What is left of a primitive after its groundwork: the arguments are taken off the stack, and the
receiver is replaced by the answer unless it is the answer itself. -/
def Machine.Answered (S : Machine → Machine → Prop) (n : Nat) (m m' : Machine) : Prop :=
  ∃ m₁, S m m₁ ∧ (S (Action.popped m₁ n) m' ∨
    ∃ v, Action.popThenPush 1 v (Action.popped m₁ n) = .ok () m')

/-- An attempt that leaves one answer in the place of its receiver and `n` arguments, if it is not
declined after some groundwork. -/
structure Attempt.AnswersAt (S : Machine → Machine → Prop) (n : Nat) (m : Machine)
    (x : Attempt Completion) : Prop where
  answered : Gives x m fun c m' => c = .done ∧ m.Answered S n m'
  declined : ∀ m', x m = .error .declined m' → S m m'

/-- A primitive that does so in every machine. -/
def Attempt.Answers (S : Machine → Machine → Prop) (n : Nat) (x : Attempt Completion) : Prop :=
  ∀ m, AnswersAt S n m x

namespace Attempt

open Machine

variable {α : Type} {S : Machine → Machine → Prop} {n : Nat} {x : Attempt α} {f : α → Attempt Completion}
  {v : Value} {m : Machine}

theorem AnswersAt.bind [IsTrans Machine S] (hx : Stays S x)
    (hf : ∀ a m₁, x m = .ok a m₁ → AnswersAt S n m₁ (f a)) : AnswersAt S n m (x >>= f) := by
  refine ⟨fun c m' hrun => ?_, fun m' hrun => ?_⟩
  · obtain ⟨a, m₁, h, h'⟩ := bind_ok.1 hrun
    obtain ⟨hc, m₂, hground, hend⟩ := (hf a m₁ h).answered c m' h'
    exact ⟨hc, m₂, IsTrans.trans _ _ _ (hx.ok m a m₁ h) hground, hend⟩
  · rcases bind_error.1 hrun with h | ⟨a, m₁, h, h'⟩
    · exact hx.declined m m' h
    · exact IsTrans.trans _ _ _ (hx.ok m a m₁ h) ((hf a m₁ h).declined m' h')

/-- Looking leaves the machine as it was. -/
theorem AnswersAt.look [Std.Refl S] [IsTrans Machine S] (hx : Stays Eq x)
    (hf : ∀ a, x m = .ok a m → AnswersAt S n m (f a)) : AnswersAt S n m (x >>= f) := by
  refine .bind (hx.mono fun m m' e => e ▸ Std.Refl.refl m) fun a m₁ h => ?_
  obtain rfl := hx.ok m a m₁ h
  exact hf a h

/-- A change of the memory that is allowed at this moment. -/
theorem AnswersAt.change [IsTrans Machine S] {g : Memory → Memory} {y : Attempt Completion}
    (hg : S m { m with memory := g m.memory }) (hy : AnswersAt S n { m with memory := g m.memory } y) :
    AnswersAt S n m (do Action.modifyMemory g; y) := by
  refine ⟨fun c m' hrun => ?_, fun m' hrun => ?_⟩
  · obtain ⟨_, m₁, h, h'⟩ := bind_ok.1 hrun
    obtain rfl := Action.modifyMemory_ok.1 (lift_ok.1 h)
    obtain ⟨hc, m₂, hground, hend⟩ := hy.answered c m' h'
    exact ⟨hc, m₂, IsTrans.trans _ _ _ hg hground, hend⟩
  · rcases bind_error.1 hrun with h | ⟨a, m₁, h, h'⟩
    · exact absurd h lift_declined
    · obtain rfl := Action.modifyMemory_ok.1 (lift_ok.1 h)
      exact IsTrans.trans _ _ _ hg (hy.declined m' h')

theorem ofOption_ok {found : Option α} {a : α} {m' : Machine} (h : ofOption found m = .ok a m') :
    found = some a := by
  cases found with
  | none => exact (throw_ok.1 h).elim
  | some b => rw [(pure_ok.1 h).1]

theorem Answers.bind [IsTrans Machine S] (hx : Stays S x) (hf : ∀ a, Answers S n (f a)) :
    Answers S n (x >>= f) := fun _ => AnswersAt.bind hx fun a m₁ _ => hf a m₁

theorem AnswersAt.ite {p : Prop} [Decidable p] {y z : Attempt Completion} (hy : AnswersAt S n m y)
    (hz : AnswersAt S n m z) : AnswersAt S n m (if p then y else z) := by
  split
  · exact hy
  · exact hz

theorem Answers.ite {p : Prop} [Decidable p] {y z : Attempt Completion} (hy : Answers S n y)
    (hz : Answers S n z) : Answers S n (if p then y else z) := fun m => (hy m).ite (hz m)

theorem Answers.decline [Std.Refl S] : Answers S n decline := fun m =>
  ⟨fun _ _ hrun => (throw_ok.1 hrun).elim, Stays.decline.declined m⟩

/-- What is never declined has to be looked at only where it answers. -/
theorem Certain.answers {y : Attempt Completion} (hy : Certain y)
    (h : ∀ m, Gives y m fun c m' => c = .done ∧ m.Answered S n m') : Answers S n y := fun m =>
  ⟨h m, fun m' hrun => absurd hrun (hy m m')⟩

/-- The receiver is the answer. -/
theorem Answers.done [Std.Refl S] : Answers S 0 (pure .done) :=
  Certain.pure.answers fun m => .pure ⟨rfl, m, Std.Refl.refl m, .inl (Std.Refl.refl m)⟩

theorem answer_answers [Std.Refl S] : Answers S n (answer n v) := by
  refine answer_certain.answers fun m c m' hrun => ?_
  simp only [answer, bind_ok, lift_ok, Action.popThenPush_ok, pure_ok] at hrun
  obtain ⟨_, _, ⟨hn, hslot, rfl⟩, rfl, rfl⟩ := hrun
  refine ⟨rfl, m, Std.Refl.refl m, .inr ⟨v, ?_⟩⟩
  have hsp : m.registers.sp - n - 1 = m.registers.sp - (n + 1) := by omega
  refine Action.popThenPush_ok.2 ⟨?_, ?_, ?_⟩
  · simp only [Action.popped, withRegisters_registers]
    omega
  · simp only [Action.popped, withRegisters_registers, withRegisters_memory, hsp]
    exact hslot
  · simp only [Action.popped, withRegisters_registers, withRegisters_twice, hsp]

theorem answerTruth_answers [Std.Refl S] [IsTrans Machine S] {b : Bool} :
    Answers S n (answerTruth n b) := .bind (.lift Action.truth_within) fun _ => answer_answers

theorem answerStack_answers [Std.Refl S] [IsTrans Machine S] {depth : Nat} :
    Answers S n (do answer n (← stackValue depth)) := .bind stackValue_stays fun _ => answer_answers

/-- The arguments are dropped and the receiver is the answer. -/
theorem dropped_answers [Std.Refl S] : Answers S n (do Action.popN n; return .done) := by
  refine Certain.answers (.bind .lift fun _ => .pure) fun m => .bind fun _ m₁ hpop => ?_
  obtain ⟨-, rfl⟩ := Action.popN_ok.1 (lift_ok.1 hpop)
  exact .pure ⟨rfl, m, Std.Refl.refl m, .inl (Std.Refl.refl _)⟩

/-- The arguments are dropped before the answer is known. -/
theorem droppedAnswer_answers [Std.Refl S] {k : Int} :
    Answers S n (do Action.popN n; answer 0 (← Action.immediate k)) := by
  refine Certain.answers (.bind .lift fun _ => .bind .lift fun _ => answer_certain) fun m =>
    .bind fun _ m₁ hpop => .bind fun v m₂ himmediate => ?_
  obtain ⟨-, rfl⟩ := Action.popN_ok.1 (lift_ok.1 hpop)
  obtain ⟨-, -, rfl⟩ := Action.immediate_ok.1 (lift_ok.1 himmediate)
  refine .bind fun _ m₂ hpush => .pure ⟨rfl, m, Std.Refl.refl m, .inr ⟨v, ?_⟩⟩
  exact lift_ok.1 hpush

end Attempt

namespace Primitive

open Attempt Smalltalk.Action Machine

variable {R : Option Value → Machine → Machine → Prop} [Groundwork R] {t : Option Value} {v : Value}
  {n : Nat}

/-! ### Numbers -/

theorem integerOp_answers {op : Int → Int → Option Int} : Answers (R t) 1 (integerOp op n) :=
  .bind stackInteger_stays fun _ => .bind stackInteger_stays fun _ => .bind .ofOption fun _ =>
    answer_answers

theorem integerComparison_answers {op : Int → Int → Bool} :
    Answers (R t) 1 (integerComparison op n) :=
  .bind stackInteger_stays fun _ => .bind stackInteger_stays fun _ => answerTruth_answers

theorem bitOp_answers {op : Nat → Nat → Nat} : Answers (R t) 1 (bitOp op n) :=
  .bind stackPositive32_stays fun _ => .bind stackPositive32_stays fun _ =>
    .bind Groundwork.newPositive32 fun _ => answer_answers

theorem bitShift_answers : Answers (R t) 1 (bitShift n) :=
  .bind stackPositive32_stays fun _ => .bind stackInteger_stays fun _ => .bind .ofOption fun _ =>
    .bind Groundwork.newPositive32 fun _ => answer_answers

theorem point_answers : Answers (R t) 1 (point n) :=
  .bind stackValue_stays fun _ => .bind stackValue_stays fun _ =>
    .bind (.lift Groundwork.makePoint) fun _ => answer_answers

theorem floatOp_answers {op : UInt64 → UInt64 → Option UInt64} : Answers (R t) 1 (floatOp op n) :=
  .bind stackFloat_stays fun _ => .bind stackFloat_stays fun _ => .bind .ofOption fun _ =>
    .bind (.lift Groundwork.makeFloat) fun _ => answer_answers

theorem floatComparison_answers {op : UInt64 → UInt64 → Bool} :
    Answers (R t) 1 (floatComparison op n) :=
  .bind stackFloat_stays fun _ => .bind stackFloat_stays fun _ => answerTruth_answers

theorem asFloat_answers : Answers (R t) 0 (asFloat n) :=
  .bind stackInteger_stays fun _ => .bind (.lift Groundwork.makeFloat) fun _ => answer_answers

theorem truncated_answers : Answers (R t) 0 (truncated n) :=
  .bind stackFloat_stays fun _ => .bind .require fun _ => answer_answers

theorem logarithm_answers : Answers (R t) 0 (logarithm n) :=
  .bind stackFloat_stays fun _ => .bind (.lift Groundwork.makeFloat) fun _ => answer_answers

/-! ### Objects -/

theorem readElement_answers {mode : AccessMode} : Answers (R t) 1 (readElement mode n) :=
  .bind Groundwork.indexedAt fun _ => answer_answers

theorem size_answers : Answers (R t) 0 (size n) :=
  .bind (.lift stackValue_within) fun _ => .bind (.lift indexableSize_within) fun _ =>
    .bind .ofOption fun _ => .bind Groundwork.newPositive32 fun _ => answer_answers

theorem newInstanceOf_stays {count : Nat} : Stays (R t) (newInstanceOf v count) :=
  .bind instanceSpec_stays fun _ => .bind .require fun _ => .lift Groundwork.instantiate

theorem basicNew_answers : Answers (R t) 0 (basicNew n) :=
  .bind stackObject_stays fun _ => .bind newInstanceOf_stays fun _ => answer_answers

theorem basicNewSized_answers : Answers (R t) 1 (basicNewSized n) :=
  .bind stackObject_stays fun _ => .bind stackPositive32_stays fun _ => .bind .require fun _ =>
    .bind newInstanceOf_stays fun _ => answer_answers

theorem identityHash_answers : Answers (R t) 0 (identityHash n) :=
  .bind stackObject_stays fun _ => .bind (.lift object_within) fun _ => answer_answers

theorem someInstance_answers : Answers (R t) 0 (someInstance n) :=
  .bind stackObject_stays fun _ =>
    .bind (.lift (Groundwork.query fun memory => enumerate_found memory _ _)) fun _ =>
    .bind (.lift nil_within) fun _ => answer_answers

theorem nextInstance_answers : Answers (R t) 0 (nextInstance n) :=
  .bind stackObject_stays fun _ =>
    .bind (.lift (Groundwork.query fun memory => nextInstance_found memory _)) fun _ =>
    .bind (.lift nil_within) fun _ => answer_answers

theorem someObject_answers : Answers (R t) 0 (someObject n) :=
  .bind (.lift (Groundwork.query fun memory => enumerate_found memory _ _)) fun _ =>
    .bind (.lift nil_within) fun _ => answer_answers

theorem nextObject_answers : Answers (R t) 0 (nextObject n) :=
  .bind stackObject_stays fun after =>
    .bind (.lift (Groundwork.query fun memory => follow_found memory after none)) fun _ =>
    answer_answers

theorem newMethod_answers : Answers (R t) 2 (newMethod n) :=
  .bind stackObject_stays fun _ => .bind stackPositive32_stays fun _ =>
    .bind stackInteger_stays fun _ => .bind instanceSpec_stays fun _ => .bind .require fun _ =>
    .bind (.lift nil_within) fun _ => .bind (.lift Groundwork.allocate) fun _ => answer_answers

theorem clone_answers : Answers (R t) 0 (clone n) :=
  .bind stackObject_stays fun _ => .bind (.lift object_within) fun _ =>
    .bind (.lift Groundwork.allocate) fun _ => answer_answers

theorem identical_answers : Answers (R t) 1 (identical n) :=
  .bind stackValue_stays fun _ => .bind stackValue_stays fun _ => answerTruth_answers

theorem classOf_answers : Answers (R t) 0 (classOf n) :=
  .bind (.lift stackValue_within) fun _ => .bind (.lift classOf_within) fun _ => answer_answers

theorem specialObjectsArray_answers : Answers (R t) 0 (specialObjectsArray n) :=
  .bind .get fun _ => answer_answers

theorem blockCopy_answers : Answers (R t) 1 (blockCopy n) :=
  .bind Groundwork.blockCopy fun _ => answer_answers

/-! ### Caches and the system -/

theorem flushCache_answers : Answers (R t) 0 (flushCache n) :=
  .bind (Groundwork.modify fun _ => ⟨rfl, rfl, rfl, rfl, .inl rfl, .inl rfl⟩) fun _ => .done

theorem flushMethod_answers : Answers (R t) 0 (flushMethod n) :=
  .bind (.lift stackValue_within) fun _ =>
    .bind (Groundwork.modify fun _ => ⟨rfl, rfl, rfl, rfl, .inl rfl, .inl rfl⟩) fun _ => .done

theorem flushSelector_answers : Answers (R t) 0 (flushSelector n) :=
  .bind (.lift stackValue_within) fun _ =>
    .bind (Groundwork.modify fun _ => ⟨rfl, rfl, rfl, rfl, .inl rfl, .inl rfl⟩) fun _ => .done

theorem lowSpaceThreshold_answers : Answers (R t) 1 (lowSpaceThreshold n) :=
  .bind stackInteger_stays fun _ =>
    .bind (Groundwork.modify fun _ => ⟨rfl, rfl, rfl, rfl, .inl rfl, .inl rfl⟩) fun _ => answerStack_answers

theorem bytesLeft_answers : Answers (R t) 0 (bytesLeft n) :=
  .bind (Stays.get.bind fun _ => (Stays.lift ofExcept_within).bind fun _ => .pure) fun _ =>
    answer_answers

theorem quit_answers : Answers (R t) 0 (quit n) :=
  .bind (Groundwork.modify fun _ => ⟨rfl, rfl, rfl, rfl, .inl rfl, .inl rfl⟩) fun _ => .done

theorem imageName_answers : Answers (R t) 0 (imageName n) :=
  .bind .require fun _ => .bind .get fun _ => .bind .ofOption fun _ =>
    .bind (Stays.get.bind fun _ => .pure) fun _ => .bind (.lift Groundwork.makeString) fun _ =>
    answer_answers

theorem vmPath_answers : Answers (R t) 0 (vmPath n) :=
  .bind (Stays.get.bind fun _ => .pure) fun _ => .bind (.lift Groundwork.makeString) fun _ =>
    answer_answers

theorem reclaimYoungTimes_within {count : Nat} : Within (R t) (reclaimYoungTimes count) := by
  induction count with
  | zero => exact .pure
  | succ count ih => exact .bind Groundwork.reclaim fun _ => ih

theorem fullCollection_answers : Answers (R t) 0 (fullCollection n) :=
  .bind (Groundwork.modify fun _ => ⟨rfl, rfl, rfl, rfl, .inr rfl, .inl rfl⟩) fun _ =>
    .bind (.lift reclaimYoungTimes_within) fun _ => .bind (.lift Groundwork.reclaim) fun _ =>
    bytesLeft_answers (n := n)

theorem incrementalCollection_answers : Answers (R t) 0 (incrementalCollection n) :=
  .bind (.lift Groundwork.reclaim) fun _ => bytesLeft_answers (n := n)

theorem millisecondClock_answers : Answers (R t) 0 (millisecondClock n) :=
  .bind .get fun _ => answer_answers

theorem secondsClock_answers : Answers (R t) 0 (secondsClock n) :=
  .bind .get fun _ => .bind Groundwork.newPositive32 fun _ => answer_answers

theorem systemAttribute_answers : Answers (R t) 1 (systemAttribute n) :=
  .bind (.lift nil_within) fun _ => answer_answers

/-- An argument is looked at and dropped; more than one are too many. -/
theorem relinquish_answers : Answers (R t) n (relinquish n) := by
  have wait : Stays (R t) (modify fun m => { m with devices := m.devices.takeEvent.2 } : Attempt Unit) :=
    Groundwork.modify fun _ => ⟨rfl, rfl, rfl, rfl, .inl rfl, .inl rfl⟩
  match n with
  | 0 => exact .bind wait fun _ => .done
  | 1 =>
    refine .bind stackInteger_stays fun _ => ?_
    refine Certain.answers (.bind .lift fun _ => .bind .modify fun _ => .pure) fun m => ?_
    refine .bind fun x m₁ hpop => .bind fun _ m₂ hwait => .pure ⟨rfl, m, Std.Refl.refl m, .inl ?_⟩
    obtain ⟨-, -, rfl⟩ := pop_ok.1 (lift_ok.1 hpop)
    exact wait.ok _ _ _ hwait
  | n + 2 =>
    exact fun m => .bind .decline fun _ _ hrun => (throw_ok.1 hrun).elim

/-! ### Devices -/

theorem integerPoint_within {p : Int × Int} : Within (R t) (integerPoint p) :=
  .bind ofExcept_within fun _ => .bind ofExcept_within fun _ => Groundwork.makePoint

theorem mousePoint_answers : Answers (R t) 0 (mousePoint n) :=
  .bind .get fun _ => .bind (.lift integerPoint_within) fun _ => answer_answers

theorem screenSize_answers : Answers (R t) 0 (screenSize n) :=
  .bind .get fun _ => .bind (.lift integerPoint_within) fun _ => answer_answers

theorem mouseButtons_answers : Answers (R t) 0 (mouseButtons n) :=
  .bind .get fun _ => .bind (.lift ofExcept_within) fun _ => answer_answers

theorem keyCode_within {key : Option Int} : Within (R t) (keyCode key) := by
  cases key with
  | none => exact nil_within
  | some code => exact ofExcept_within

theorem keyboardPeek_answers : Answers (R t) 0 (keyboardPeek n) :=
  .bind .get fun _ => .bind (.lift keyCode_within) fun _ => answer_answers

theorem keyboardNext_answers : Answers (R t) 0 (keyboardNext n) :=
  .bind Groundwork.onDevices fun _ => .bind (.lift keyCode_within) fun _ => answer_answers

theorem reverseDisplay_answers : Answers (R t) 0 (reverseDisplay n) :=
  .bind Groundwork.onDevices fun _ => .done

/-- As many words go back into a bitmap as it had. -/
theorem storeBits_within {form : Value} {bits : Array UInt32} : Within (R t) (storeBits form bits) := by
  refine .bind fetch_within fun bitmap m u m' hrun => ?_
  obtain ⟨o, _, hobject, hrun⟩ := bind_ok.1 hrun
  obtain ⟨ho, rfl⟩ := object_ok.1 hobject
  cases hwords : o.words? with
  | none => simp [hwords, throw_ok] at hrun
  | some words =>
    simp only [hwords, modifyMemory_ok] at hrun
    rw [← hrun]
    refine Groundwork.words ho hwords ?_
    simp only [Array.size_append, Array.size_extract]
    omega

theorem transferBits_answers {receiver : Value} {alpha : Option Int} :
    Answers (R t) n (transferBits n receiver alpha) := by
  refine .bind loadBlit_stays fun blit => .bind Groundwork.onDevices fun done => ?_
  refine .bind .ofOption fun result => ?_
  obtain ⟨blit, area⟩ := result
  refine .bind (.lift fetch_within) fun dest => .bind (.lift storeBits_within) fun _ => ?_
  have finish : Answers (R t) n (do
      Action.popN n
      if blit.rule = 22 ∨ blit.rule = 32 then
        answer 0 (← Action.immediate blit.bitCount)
      else
        return .done) := by
    split
    · exact droppedAnswer_answers
    · exact dropped_answers
  cases area with
  | none => exact finish
  | some area =>
    refine .bind (.lift special_within) fun _ => .ite ?_ finish
    exact .bind Groundwork.onDevices fun _ => finish

theorem copyBits_answers : Answers (R t) n (copyBits n) :=
  .bind .require fun _ => .bind stackObject_stays fun _ =>
    .ite (.bind stackInteger_stays fun _ => transferBits_answers) transferBits_answers

theorem beCursor_answers : Answers (R t) n (beCursor n) := by
  refine .bind .require fun _ => .bind stackObject_stays fun _ => .bind loadForm_stays fun _ => ?_
  refine .bind (orDecline_stays fetch_within fun m e m' h => ?_) fun _ => ?_
  · rw [fetch_error h]
    exact Std.Refl.refl m'
  · refine .bind (.lift isInstanceOf_within) fun _ => .bind .require fun _ => ?_
    refine .bind (.lift fetch_within) fun _ => .bind integer32_stays fun _ => ?_
    refine .bind (.lift fetch_within) fun _ => .bind integer32_stays fun _ => ?_
    exact .bind Groundwork.onDevices fun _ => dropped_answers

/-! ### Files -/

theorem fileAtEnd_answers : Answers (R t) 1 (fileAtEnd n) :=
  .bind .require fun _ => .bind stackHandle_stays fun _ => .bind .get fun _ =>
    .bind .ofOption fun _ => .bind .get fun _ => .bind .ofOption fun _ => answerTruth_answers

theorem fileClose_answers : Answers (R t) 1 (fileClose n) :=
  .bind .require fun _ => .bind stackHandle_stays fun _ => .bind Groundwork.onDevices fun _ =>
    .bind .require fun _ => answerStack_answers

theorem filePosition_answers : Answers (R t) 1 (filePosition n) :=
  .bind .require fun _ => .bind stackHandle_stays fun _ => .bind .get fun _ =>
    .bind .ofOption fun _ => .bind Groundwork.newPositive32 fun _ => answer_answers

theorem openNamed_answers {path : String} {writable : Bool} :
    Answers (R t) 2 (openNamed path writable) := by
  refine .bind .get fun _ => .bind .ofOption fun opened => ?_
  obtain ⟨handle, devices⟩ := opened
  refine .bind (Groundwork.modify fun _ => ⟨rfl, rfl, rfl, rfl, .inl rfl, .inl rfl⟩) fun _ => ?_
  split
  · exact answer_answers
  · exact .bind Groundwork.onDevices fun _ => .decline

theorem fileOpen_answers : Answers (R t) 2 (fileOpen n) := by
  refine .bind .require fun _ => .bind stackPath_stays fun path => .bind stackValue_stays fun _ => ?_
  refine .bind (.lift truth_within) fun _ => .ite openNamed_answers ?_
  exact .bind (.lift truth_within) fun _ => .ite openNamed_answers .decline

theorem size_of_overwrite? {α : Type} {xs part ys : Array α} {start : Nat}
    (h : overwrite? xs start part = some ys) : ys.size = xs.size := by
  simp only [overwrite?] at h
  split at h
  · obtain rfl := Option.some.inj h
    simp only [Array.size_append, Array.size_extract]
    omega
  · exact absurd h (by simp)

/-- As many bytes are in the buffer after a read as before. -/
theorem fileRead_answers : Answers (R t) 4 (fileRead n) := by
  refine .bind .require fun _ => .bind stackHandle_stays fun _ => ?_
  refine .bind stackByteRange_stays fun range => ?_
  obtain ⟨buffer, first, count⟩ := range
  refine .bind hostHandle_stays fun _ => .bind Groundwork.onFiles fun part => ?_
  refine fun m => .look (.lift object_within) fun o hobject => ?_
  refine .look .ofOption fun bytes hbytes => .look .ofOption fun bytes' hover => ?_
  obtain ⟨ho, -⟩ := object_ok.1 (lift_ok.1 hobject)
  refine .change (Groundwork.bytes ho (ofOption_ok hbytes) (size_of_overwrite? (ofOption_ok hover))) ?_
  exact Answers.bind Groundwork.newPositive32 (fun _ => answer_answers) _

theorem fileSetPosition_answers : Answers (R t) 2 (fileSetPosition n) :=
  .bind .require fun _ => .bind stackHandle_stays fun _ => .bind stackPositive32_stays fun _ =>
    .bind hostHandle_stays fun _ => .bind Groundwork.changeFiles fun _ => answerStack_answers

theorem fileDelete_answers : Answers (R t) 1 (fileDelete n) :=
  .bind .require fun _ => .bind stackPath_stays fun _ => .bind Groundwork.changeFiles fun _ =>
    answerStack_answers

theorem fileSize_answers : Answers (R t) 1 (fileSize n) :=
  .bind .require fun _ => .bind stackHandle_stays fun _ => .bind .get fun _ =>
    .bind .ofOption fun _ => .bind Groundwork.newPositive32 fun _ => answer_answers

theorem fileWrite_answers : Answers (R t) 4 (fileWrite n) := by
  refine .bind .require fun _ => .bind stackHandle_stays fun _ => ?_
  refine .bind stackByteRange_stays fun range => ?_
  obtain ⟨buffer, first, count⟩ := range
  refine .bind (.lift object_within) fun _ => .bind .ofOption fun _ => ?_
  refine .bind hostHandle_stays fun _ => .bind Groundwork.changeFiles fun _ => ?_
  exact .bind Groundwork.newPositive32 fun _ => answer_answers

theorem fileRename_answers : Answers (R t) 2 (fileRename n) :=
  .bind .require fun _ => .bind stackPath_stays fun _ => .bind stackPath_stays fun _ =>
    .bind Groundwork.changeFiles fun _ => answerStack_answers

theorem createDirectory_answers : Answers (R t) 1 (createDirectory n) :=
  .bind .require fun _ => .bind stackPath_stays fun _ => .bind Groundwork.changeFiles fun _ =>
    answerStack_answers

theorem pathDelimiter_answers : Answers (R t) 0 (pathDelimiter n) :=
  .bind .get fun _ => .bind .require fun _ => .bind (.lift characterFor_within) fun _ => answer_answers

theorem pinValue_stays : Stays (R t) (pinValue v) := by
  refine .lift fun m u m' hrun => ?_
  obtain rfl := modifyMemory_ok.1 hrun
  exact Groundwork.withPins m _

theorem secondsValue_stays {seconds : Int} : Stays (R t) (secondsValue seconds) :=
  natural_stays.bind fun _ => Groundwork.newPositive32

theorem buildEntry_stays {e : Device.Devices.EntryInfo} : Stays (R t) (buildEntry e) := by
  refine .bind (.lift Groundwork.makeString) fun _ => .bind pinValue_stays fun _ => ?_
  refine .bind secondsValue_stays fun _ => .bind pinValue_stays fun _ => ?_
  refine .bind secondsValue_stays fun _ => .bind pinValue_stays fun _ => ?_
  refine .bind Groundwork.newPositive32 fun _ => .bind pinValue_stays fun _ => ?_
  refine .bind (.lift truth_within) fun _ => .bind (.lift special_within) fun _ => ?_
  exact .lift Groundwork.allocate

theorem entryArray_stays {e : Device.Devices.EntryInfo} : Stays (R t) (entryArray e) := by
  have release : ∀ m m₁ : Machine, R t m m₁ → R t m { m₁ with
      memory := m₁.memory.releasePins m.memory.pins.size } := fun m m₁ h =>
    Groundwork.trans h (Groundwork.withPins m₁ _)
  refine ⟨fun m v m' hrun => ?_, fun m m' hrun => ?_⟩
  · simp only [entryArray] at hrun
    cases hbuild : buildEntry e m with
    | error r m₁ => simp [hbuild] at hrun
    | ok w m₁ =>
      simp only [hbuild, EStateM.Result.ok.injEq] at hrun
      rw [← hrun.2]
      exact release m m₁ (buildEntry_stays.ok m w m₁ hbuild)
  · simp only [entryArray] at hrun
    cases hbuild : buildEntry e m with
    | ok w m₁ => simp [hbuild] at hrun
    | error r m₁ =>
      simp only [hbuild, EStateM.Result.error.injEq] at hrun
      obtain ⟨rfl, rfl⟩ := hrun
      exact release m m₁ (buildEntry_stays.declined m m₁ hbuild)

theorem lookupEntry_answers : Answers (R t) 2 (lookupEntry n) := by
  refine .bind .require fun _ => .bind stackPath_stays fun _ => .bind stackInteger_stays fun _ => ?_
  refine .bind natural_stays fun _ => .bind .require fun _ => .bind .get fun _ => ?_
  refine .bind .ofOption fun found => ?_
  cases found with
  | some e => exact .bind entryArray_stays fun _ => answer_answers
  | none => exact .bind (.lift nil_within) fun _ => answer_answers

/-! ### Stores -/

/-- What the receiver of a send with `n` arguments is. -/
def receiver? (n : Nat) (m : Machine) : Option Value :=
  m.memory.cell m.registers.context (m.registers.sp - n)

variable {m m' : Machine}

theorem receiver?_of_stackObject (h : stackObject n m = .ok v m') : receiver? n m = some v := by
  obtain ⟨x, _, hx, h⟩ := bind_ok.1 h
  obtain ⟨-, hcell, rfl⟩ := stackValue_ok.1 (lift_ok.1 hx)
  obtain ⟨_, _, -, h⟩ := bind_ok.1 h
  obtain ⟨rfl, -⟩ := pure_ok.1 h
  exact hcell

theorem writeElement_answers {mode : AccessMode} :
    AnswersAt (R (receiver? 2 m)) 2 m (writeElement mode n) := by
  rw [writeElement, indexedAtPut, bind_assoc]
  refine .look stackObject_stays fun array harray => ?_
  rw [receiver?_of_stackObject harray]
  refine Answers.bind (stackPositive32_stays.bind fun index => stackValue_stays.bind fun x => ?_)
    (fun x => answer_answers) m
  refine Stays.bind (.lift Groundwork.atEntry) fun entry => Stays.require.bind fun _ => ?_
  exact Groundwork.elementPut.bind fun _ => .pure

/-- Elements are written over as many elements. -/
theorem replaceElements_answers : AnswersAt (R (receiver? 4 m)) 4 m (replaceElements n) := by
  refine .look stackObject_stays fun dest hdest => ?_
  rw [receiver?_of_stackObject hdest]
  refine .look stackInteger_stays fun start _ => .look stackInteger_stays fun stop _ => ?_
  refine .look stackObject_stays fun source _ => .look stackInteger_stays fun sourceStart _ => ?_
  refine .look natural_stays fun count _ => .look natural_stays fun destPos _ => ?_
  refine .look natural_stays fun sourcePos _ => .look (.lift object_within) fun destObject hobject => ?_
  refine .look (.lift object_within) fun sourceObject _ => ?_
  have store : ∀ f : Object → Object, destObject.Remains (f destObject) →
      R (some dest) m (m.modified dest f) := by
    intro f hf
    refine Groundwork.storeInto fun o ho => ?_
    obtain ⟨hget, -⟩ := object_ok.1 (lift_ok.1 hobject)
    rw [hget] at ho
    obtain rfl := Option.some.inj ho
    exact hf
  refine .ite ?_ (.ite ?_ (.ite ?_ (Answers.bind .decline (fun _ => answer_answers) m)))
  · refine .look (.lift fixedFields_within) fun _ _ => .look (.lift fixedFields_within) fun _ _ => ?_
    refine .look .ofOption fun part _ => .look .ofOption fun pointers hover => ?_
    refine .change (store _ (.of_pointers (size_of_overwrite? (ofOption_ok hover)))) ?_
    exact answer_answers _
  · refine .look .ofOption fun part _ => .look .ofOption fun words hwords => ?_
    obtain ⟨old, hold, hover⟩ := Option.bind_eq_some_iff.1 (ofOption_ok hwords)
    exact .change (store _ (Object.remains_words hold (size_of_overwrite? hover))) (answer_answers _)
  · refine .look .ofOption fun part _ => .look .ofOption fun bytes hbytes => ?_
    obtain ⟨old, hold, hover⟩ := Option.bind_eq_some_iff.1 (ofOption_ok hbytes)
    exact .change (store _ (Object.remains_bytes hold (size_of_overwrite? hover))) (answer_answers _)

/-- A semaphore is put among the special objects before anything else is done. -/
theorem registered_answers {index : Nat} {y : Attempt Completion} {k : Nat}
    (hy : Answers (R (some m.specials.array)) k y) :
    AnswersAt (R (some m.specials.array)) k m (do registerSemaphore index v; y) := by
  simp only [registerSemaphore, bind_assoc]
  refine .look (.lift isInstanceOf_within) fun _ _ => .look (.lift nil_within) fun _ _ => ?_
  refine .look .get fun m₁ hget => ?_
  obtain ⟨rfl, -⟩ := get_ok.1 hget
  exact Answers.bind (.lift Groundwork.store) (fun _ => hy) m

theorem lowSpaceSemaphore_answers :
    AnswersAt (R (some m.specials.array)) 1 m (lowSpaceSemaphore n) :=
  .look stackValue_stays fun _ _ => registered_answers answerStack_answers

theorem interruptSemaphore_answers :
    AnswersAt (R (some m.specials.array)) 1 m (interruptSemaphore n) :=
  .look stackValue_stays fun _ _ => registered_answers answerStack_answers

theorem signalAtMilliseconds_answers :
    AnswersAt (R (some m.specials.array)) 2 m (signalAtMilliseconds n) := by
  refine .look stackValue_stays fun _ _ => .look stackInteger_stays fun _ _ => registered_answers ?_
  refine .bind (.lift isInstanceOf_within) fun _ => ?_
  exact .bind (Groundwork.modify fun _ => ⟨rfl, rfl, rfl, rfl, .inl rfl, .inl rfl⟩) fun _ => answerStack_answers

theorem beDisplay_answers : AnswersAt (R (some m.specials.array)) 0 m (beDisplay n) := by
  refine .look stackObject_stays fun display _ => .look loadForm_stays fun form _ => ?_
  refine .bind Groundwork.onDevices fun accepted m₁ hdevices => .look .require fun _ _ => ?_
  refine .look .get fun m₂ hget => ?_
  obtain ⟨rfl, -⟩ := get_ok.1 hget
  have hspecials : m₁.specials = m.specials := by
    simp only [onDevices, EStateM.Result.ok.injEq] at hdevices
    rw [← hdevices.2]
  rw [hspecials]
  exact Answers.bind (.lift Groundwork.store) (fun _ => .done) m₁

/-! ### The table -/

/-- How many arguments the messages have that a primitive is written for. -/
def arities (number : Nat) : List Nat :=
  if number ∈ [96, 101, 230] then [0, 1]
  else if number ∈ [105, 154, 158] then [4]
  else if number ∈ [61, 64, 69, 74, 79, 136, 153, 155, 159, 162] then [2]
  else if number ∈ [40, 51, 58, 62, 70, 75, 77, 78, 89, 90, 102, 106, 107, 108, 109, 111, 112, 113, 116,
    119, 121, 122, 129, 130, 131, 135, 137, 138, 139, 142, 148, 161] then [0]
  else [1]

/-- The primitives that rename objects, activate something or switch processes. -/
def redirecting : List Nat := [72, 81, 83, 84, 85, 86, 87, 88, 100, 128]

/-- The primitives that store into their receiver. -/
def storing : List Nat := [61, 64, 69, 74, 105]

/-- The primitives that store into the special objects array. -/
def registering : List Nat := [102, 124, 134, 136]

/-- The object that a primitive stores into, of those that were there before it. -/
def target (number n : Nat) (m : Machine) : Option Value :=
  if number ∈ storing then receiver? n m
  else if number ∈ registering then some m.specials.array
  else none

/-- A primitive that leaves exactly one answer for the arguments it is written for, or for a fixed
number of entries of the stack if it is called with others. -/
def Conforms (R : Option Value → Machine → Machine → Prop) (p : Primitive) : Prop :=
  p.number ∉ redirecting → ∀ n, ∃ k, (n ∈ arities p.number → k = n) ∧
    ∀ m, AnswersAt (R (target p.number k m)) k m (p.action n)

namespace Conforms

variable {number k : Nat} {name : String} {action : PrimitiveAction}

omit [Groundwork R]

theorem of_target (harity : arities number = [k])
    (h : ∀ n m, AnswersAt (R (target number k m)) k m (action n)) : Conforms R ⟨number, name, action⟩ := by
  refine fun _ n => ⟨k, fun hn => ?_, h n⟩
  rw [harity, List.mem_singleton] at hn
  exact hn.symm

theorem target_eq_none (h : number ∉ storing ++ registering) : target number k m = none := by
  rw [List.mem_append, not_or] at h
  rw [target, if_neg h.1, if_neg h.2]

theorem of_answers (h : ∀ n, Answers (R none) k (action n))
    (hnumber : arities number = [k] ∧ number ∉ storing ++ registering) :
    Conforms R ⟨number, name, action⟩ := by
  refine of_target hnumber.1 fun n m => ?_
  rw [target_eq_none hnumber.2]
  exact h n m

theorem of_variadic (h : ∀ n, Answers (R none) n (action n)) (hnumber : number ∉ storing ++ registering) :
    Conforms R ⟨number, name, action⟩ := by
  refine fun _ n => ⟨n, fun _ => rfl, fun m => ?_⟩
  rw [target_eq_none hnumber]
  exact h n m

theorem of_redirecting (h : number ∈ redirecting) : Conforms R ⟨number, name, action⟩ :=
  fun hnot => absurd h hnot

end Conforms

theorem all_conform : ∀ p ∈ all, Conforms R p := by
  simp only [all, List.forall_mem_cons, List.not_mem_nil, false_imp_iff, implies_true, and_true]
  exact ⟨
    .of_answers (fun _ => integerOp_answers) (by decide),
    .of_answers (fun _ => integerOp_answers) (by decide),
    .of_answers (fun _ => integerComparison_answers) (by decide),
    .of_answers (fun _ => integerComparison_answers) (by decide),
    .of_answers (fun _ => integerComparison_answers) (by decide),
    .of_answers (fun _ => integerComparison_answers) (by decide),
    .of_answers (fun _ => integerComparison_answers) (by decide),
    .of_answers (fun _ => integerComparison_answers) (by decide),
    .of_answers (fun _ => integerOp_answers) (by decide),
    .of_answers (fun _ => integerOp_answers) (by decide),
    .of_answers (fun _ => integerOp_answers) (by decide),
    .of_answers (fun _ => integerOp_answers) (by decide),
    .of_answers (fun _ => integerOp_answers) (by decide),
    .of_answers (fun _ => bitOp_answers) (by decide),
    .of_answers (fun _ => bitOp_answers) (by decide),
    .of_answers (fun _ => bitOp_answers) (by decide),
    .of_answers (fun _ => bitShift_answers) (by decide),
    .of_answers (fun _ => point_answers) (by decide),
    .of_answers (fun _ => asFloat_answers) (by decide),
    .of_answers (fun _ => floatOp_answers) (by decide),
    .of_answers (fun _ => floatOp_answers) (by decide),
    .of_answers (fun _ => floatComparison_answers) (by decide),
    .of_answers (fun _ => floatComparison_answers) (by decide),
    .of_answers (fun _ => floatComparison_answers) (by decide),
    .of_answers (fun _ => floatComparison_answers) (by decide),
    .of_answers (fun _ => floatComparison_answers) (by decide),
    .of_answers (fun _ => floatComparison_answers) (by decide),
    .of_answers (fun _ => floatOp_answers) (by decide),
    .of_answers (fun _ => floatOp_answers) (by decide),
    .of_answers (fun _ => truncated_answers) (by decide),
    .of_answers (fun _ => logarithm_answers) (by decide),
    .of_answers (fun _ => readElement_answers) (by decide),
    .of_target (by decide) fun _ _ => writeElement_answers,
    .of_answers (fun _ => size_answers) (by decide),
    .of_answers (fun _ => readElement_answers) (by decide),
    .of_target (by decide) fun _ _ => writeElement_answers,
    .of_answers (fun _ => readElement_answers) (by decide),
    .of_target (by decide) fun _ _ => writeElement_answers,
    .of_answers (fun _ => basicNew_answers) (by decide),
    .of_answers (fun _ => basicNewSized_answers) (by decide), .of_redirecting (by decide),
    .of_answers (fun _ => readElement_answers) (by decide),
    .of_target (by decide) fun _ _ => writeElement_answers,
    .of_answers (fun _ => identityHash_answers) (by decide),
    .of_answers (fun _ => someInstance_answers) (by decide),
    .of_answers (fun _ => nextInstance_answers) (by decide),
    .of_answers (fun _ => newMethod_answers) (by decide),
    .of_answers (fun _ => blockCopy_answers) (by decide), .of_redirecting (by decide),
    .of_redirecting (by decide), .of_redirecting (by decide), .of_redirecting (by decide),
    .of_redirecting (by decide), .of_redirecting (by decide), .of_redirecting (by decide),
    .of_answers (fun _ => flushCache_answers) (by decide),
    .of_answers (fun _ => mousePoint_answers) (by decide),
    .of_variadic (fun _ => copyBits_answers) (by decide), .of_redirecting (by decide),
    .of_variadic (fun _ => beCursor_answers) (by decide),
    .of_target (by decide) fun _ _ => beDisplay_answers,
    .of_target (by decide) fun _ _ => replaceElements_answers,
    .of_answers (fun _ => screenSize_answers) (by decide),
    .of_answers (fun _ => mouseButtons_answers) (by decide),
    .of_answers (fun _ => keyboardNext_answers) (by decide),
    .of_answers (fun _ => keyboardPeek_answers) (by decide),
    .of_answers (fun _ => identical_answers) (by decide),
    .of_answers (fun _ => classOf_answers) (by decide),
    .of_answers (fun _ => bytesLeft_answers) (by decide),
    .of_answers (fun _ => quit_answers) (by decide),
    .of_answers (fun _ => flushMethod_answers) (by decide),
    .of_answers (fun _ => flushSelector_answers) (by decide),
    .of_answers (fun _ => imageName_answers) (by decide),
    .of_answers (fun _ => reverseDisplay_answers) (by decide),
    .of_target (by decide) fun _ _ => lowSpaceSemaphore_answers,
    .of_answers (fun _ => lowSpaceThreshold_answers) (by decide), .of_redirecting (by decide),
    .of_answers (fun _ => specialObjectsArray_answers) (by decide),
    .of_answers (fun _ => fullCollection_answers) (by decide),
    .of_answers (fun _ => incrementalCollection_answers) (by decide),
    .of_target (by decide) fun _ _ => interruptSemaphore_answers,
    .of_answers (fun _ => millisecondClock_answers) (by decide),
    .of_target (by decide) fun _ _ => signalAtMilliseconds_answers,
    .of_answers (fun _ => secondsClock_answers) (by decide),
    .of_answers (fun _ => someObject_answers) (by decide),
    .of_answers (fun _ => nextObject_answers) (by decide),
    .of_answers (fun _ => vmPath_answers) (by decide),
    .of_answers (fun _ => clone_answers) (by decide),
    .of_answers (fun _ => systemAttribute_answers) (by decide),
    .of_answers (fun _ => fileAtEnd_answers) (by decide),
    .of_answers (fun _ => fileClose_answers) (by decide),
    .of_answers (fun _ => filePosition_answers) (by decide),
    .of_answers (fun _ => fileOpen_answers) (by decide),
    .of_answers (fun _ => fileRead_answers) (by decide),
    .of_answers (fun _ => fileSetPosition_answers) (by decide),
    .of_answers (fun _ => fileDelete_answers) (by decide),
    .of_answers (fun _ => fileSize_answers) (by decide),
    .of_answers (fun _ => fileWrite_answers) (by decide),
    .of_answers (fun _ => fileRename_answers) (by decide),
    .of_answers (fun _ => createDirectory_answers) (by decide),
    .of_answers (fun _ => pathDelimiter_answers) (by decide),
    .of_answers (fun _ => lookupEntry_answers) (by decide),
    .of_variadic (fun _ => relinquish_answers) (by decide)⟩

end Primitive

end Smalltalk
