import Smalltalk.Proofs.Clipping
import Smalltalk.Proofs.Fitting
import Smalltalk.Proofs.Saturation

/-!
# Answers in range

Every integer that a primitive answers or stores has a reason of its own to be in range: it is looked at
first, it is a byte or a hash, it is cut off at the greatest integer, it comes out of the heap, or a
device is trusted with it. The count of a signalled semaphore alone has none.
-/

namespace Smalltalk

open Outcome Rejects

/-- Whatever transfers were asked for, the raster engine counts their pixels in immediate integers. -/
def Device.Devices.Counts (d : Devices) : Prop :=
  ∀ b, .blit b ∈ d.requests → ∀ b' area, (d.copyBits b).1 = some (b', area) → Value.InRange b'.bitCount

/-- What is left by an attempt that is declined, or by a fault. -/
def refused (R : Int → Machine → Prop) (slack : Nat) : Refusal → Machine → Prop
  | .declined, m => m.Ranged slack
  | .fault f, m => faulted R f m

/-- How a primitive that was not declined leaves a machine. -/
def Machine.Concluded (slack : Nat) : Completion → Machine → Prop
  | .done, m => m.Ranged 0
  | .resend selector _ cls, m => m.Ranged slack ∧ selector.Ranged ∧ cls.Ranged

namespace Attempt

variable {α β : Type} {x : Attempt α} {y : Action α} {P : α → Prop} {Q : α → Machine → Prop}
  {R : Int → Machine → Prop} {I : Machine → Prop} {slack slack' depth n i : Nat} {v w : Value}
  {o : Object}

/-- An attempt keeps a machine in range, also if it is declined, and answers as in `P`. -/
abbrev Keeps (R : Int → Machine → Prop) (slack : Nat) (x : Attempt α) (P : α → Prop) : Prop :=
  Ends (refused R slack) (Machine.Ranged slack) x (keeping (Machine.Ranged slack) P)

/-- A primitive leaves a machine in range. -/
abbrev Concludes (R : Int → Machine → Prop) (slack : Nat) (x : Attempt Completion) : Prop :=
  Ends (refused R slack) (Machine.Ranged slack) x fun c m => m.Concluded slack c

/-- The fault of a part is the fault of the whole. -/
theorem ends_lift (hy : Ends (faulted R) I y Q) : Ends (refused R slack) I (liftM y : Attempt α) Q := by
  change Ends (refused R slack) I (ofAction y) Q
  refine ⟨fun m hm => ?_⟩
  unfold ofAction
  cases hrun : y m with
  | ok a m' => exact hy.ok hm hrun
  | error e m' => exact hy.error hm hrun

theorem keeps_lift (hy : Action.Keeps R slack y P) : Keeps R slack (liftM y : Attempt α) P := ends_lift hy

theorem keeps_look [Observes x] (hP : ∀ a m, m.Ranged slack → x m = .ok a m → P a) : Keeps R slack x P := by
  refine .look (fun e m hm he => ?_) hP
  cases e with
  | declined => exact hm
  | fault f => exact faulted_of_accepts hm.memory he

theorem keeps_glance [Observes x] : Keeps R slack x fun _ => True := keeps_look fun _ _ _ _ => trivial

theorem keeps_decline : Keeps R slack (decline : Attempt α) P := .throw fun _ hm => hm

theorem keeps_require {p : Prop} [Decidable p] : Keeps R slack (require p) fun _ => p :=
  .ite (fun hp => .answer hp) fun _ => keeps_decline

theorem keeps_ofOption {found : Option α} : Keeps R slack (ofOption found) fun a => found = some a := by
  cases found with
  | none => exact keeps_decline
  | some a => exact .answer rfl

/-! ### Operands -/

theorem keeps_stackValue : Keeps R slack (stackValue depth) fun v => v.Ranged :=
  keeps_lift Action.keeps_stackValue

theorem keeps_stackInteger : Keeps R slack (stackInteger depth) fun n => Value.InRange n := by
  refine .next keeps_stackValue fun v hv => keeps_ofOption.mono fun n m h => ⟨h.1, ?_⟩
  cases v with
  | small k => exact Option.some.inj h.2 ▸ hv.inRange
  | ref index generation => cases h.2

theorem keeps_stackObject : Keeps R slack (stackObject depth) fun v => v.Ranged :=
  .next keeps_stackValue fun _ hv => .next keeps_require fun _ _ => .answer hv

theorem keeps_newPositive32 : Keeps R slack (newPositive32 n) fun v => v.Ranged :=
  .next keeps_require fun _ _ => keeps_lift Action.keeps_positive32

theorem keeps_object? : Keeps R slack (liftM (Action.object? v) : Attempt (Option Object)) fun found =>
    ∀ o, found = some o → o.Ranged :=
  keeps_lift (Action.keeps_look fun _ _ hm hrun _ ho =>
    hm.memory _ _ ((Action.object?_ok.1 hrun).1.trans ho))

theorem keeps_classOf : Keeps R slack (liftM (Action.classOf v) : Attempt Value) fun cls => cls.Ranged :=
  keeps_lift Action.keeps_classOf

/-! ### Endings -/

theorem finished : Ends (refused R slack) (Machine.Ranged slack') (pure .done) fun c m =>
    m.Concluded slack c := .pure fun _ hm => hm.mono (Nat.zero_le _)

theorem ends_answer : Ends (refused R slack) (Machine.Ranged slack) (answer n v) fun c m =>
    c = .done ∧ (v.Ranged → m.Ranged slack) :=
  .bind (ends_lift Action.ends_popThenPush) fun _ => .pure fun _ h => ⟨rfl, h⟩

theorem answer_concludes (hv : v.Ranged) : Concludes R slack (answer n v) := by
  refine ends_answer.mono fun c m h => ?_
  obtain ⟨rfl, h⟩ := h
  exact (h hv).mono (Nat.zero_le _)

theorem answerTruth_concludes {b : Bool} : Concludes R slack (answerTruth n b) :=
  .next (keeps_lift Action.keeps_truth) fun _ hv => answer_concludes hv

/-- Answering what has been made. -/
theorem answering_concludes {z : Attempt Value} (hz : Keeps R slack z fun v => v.Ranged) :
    Concludes R slack (do answer n (← z)) := .next hz fun _ hv => answer_concludes hv

theorem keeps_modify {g : Machine → Machine}
    (hg : ∀ m, (g m).memory = m.memory ∧ (g m).registers = m.registers ∧ (g m).specials = m.specials ∧
      (∀ v ∈ (g m).pool.roots, v ∈ m.pool.roots) ∧ (g m).devices = m.devices) :
    Keeps R slack (modify g) fun _ => True := keeps_lift (Action.keeps_modify hg)

/-! ### Elements -/

/-- Storing a field, or raw data. -/
theorem keeps_modifyMemory {f : Object → Object} (hf : ∀ o, o.Ranged → (f o).Ranged) :
    Keeps R slack (liftM (Action.modifyMemory fun m => m.modify v f) : Attempt Unit) fun _ => True :=
  keeps_lift ⟨fun _ hm =>
    ⟨hm.withMemory (hm.memory.modify fun _ ho => hf _ (hm.memory _ _ ho)), trivial⟩⟩

section
variable {array : Value} {slot : Nat} {entry : AtEntry} {mode : AccessMode} {fromBytecode : Bool}

theorem keeps_elementAt : Keeps R slack (elementAt array slot entry mode) fun v => v.Ranged := by
  refine .next (keeps_lift Action.keeps_object) fun o ho => ?_
  have pointer : ∀ {i : Nat}, Keeps R slack (ofOption o.pointers[i]?) fun v => v.Ranged := fun {_} =>
    keeps_ofOption.mono fun _ _ h => ⟨h.1, ho.2.fields _ (Array.mem_of_getElem? h.2)⟩
  have byte : ∀ b : UInt8, (Value.small b.toNat).Ranged := fun b =>
    Value.ranged_count (b.toNat_lt.trans (by decide))
  refine .ite (fun _ => pointer) fun _ => ?_
  cases o.format
  case words => exact .next keeps_glance fun word _ => keeps_lift Action.keeps_positive32
  case bytes =>
    refine .next keeps_glance fun b _ => .ite (fun _ => keeps_lift ?_) fun _ => .answer (byte b)
    exact .next Action.keeps_special fun _ _ => Action.keeps_fetch.mono fun _ _ h => ⟨h.1, h.2.2⟩
  case method =>
    exact .next keeps_glance fun _ _ => .next keeps_glance fun b _ => .answer (byte b)
  all_goals exact pointer

theorem keeps_atEntry {access : Access} :
    Keeps R slack (liftM (Action.atEntry access array mode) : Attempt AtEntry) fun _ => True := by
  refine keeps_lift (.next Action.keeps_glance fun _ _ => .next Action.keeps_glance fun _ _ => ?_)
  refine .next Action.keeps_glance fun _ _ => .next Action.keeps_glance fun _ _ => ?_
  refine .next Action.keeps_glance fun _ _ => .next Action.keeps_glance fun _ _ => ?_
  refine .ite (fun _ => .next Action.keeps_glance fun _ _ => .ite (fun _ => ?_) fun _ => .answer trivial)
    fun _ => .answer trivial
  refine .next Action.keeps_glance fun _ _ => ?_
  refine .next (Action.keeps_modify fun _ => ?_) fun _ _ => .answer trivial
  exact ⟨rfl, rfl, rfl, fun _ hv => hv, rfl⟩

theorem keeps_indexedAt : Keeps R slack (indexedAt fromBytecode mode) fun v => v.Ranged := by
  refine .next keeps_glance fun array _ => .next keeps_glance fun index _ => ?_
  refine .next keeps_glance fun isFloat _ => .ite (fun _ => ?_) fun _ => ?_
  · refine .next keeps_glance fun bits _ => ?_
    split
    · exact keeps_lift Action.keeps_positive32
    · exact keeps_lift Action.keeps_positive32
    · exact keeps_decline
  · refine .ite (fun _ => .next keeps_glance fun entry _ => ?_) fun _ => .next keeps_atEntry fun entry _ => ?_
    all_goals exact .next keeps_glance fun _ _ => keeps_elementAt

theorem keeps_putPointer (hv : v.Ranged) : Keeps R slack (putPointer array slot v) fun _ => True :=
  .next keeps_glance fun _ _ => .next keeps_glance fun _ _ => keeps_modifyMemory fun _ ho =>
    ho.setPointer hv

theorem keeps_putByte {byte : UInt8} : Keeps R slack (putByte array slot byte) fun _ => True := by
  refine .next keeps_glance fun _ _ => .next keeps_glance fun _ _ => .next keeps_glance fun _ _ => ?_
  refine keeps_modifyMemory fun o ho => ?_
  unfold Object.setByte
  split
  · exact ho.body rfl rfl
  · exact ho

theorem keeps_putWord {word : UInt32} : Keeps R slack (putWord array slot word) fun _ => True := by
  refine .next keeps_glance fun _ _ => .next keeps_glance fun _ _ => .next keeps_glance fun _ _ => ?_
  refine keeps_modifyMemory fun o ho => ?_
  unfold Object.setWord
  split
  · exact ho.body rfl rfl
  · exact ho

theorem keeps_elementPut (hv : v.Ranged) :
    Keeps R slack (elementPut array slot v entry mode) fun _ => True := by
  refine .next keeps_glance fun o _ => .ite (fun _ => keeps_putPointer hv) fun _ => ?_
  cases o.format
  case words => exact .next keeps_glance fun _ _ => keeps_putWord
  case bytes => exact .next keeps_glance fun _ _ => keeps_putByte
  case method => exact .next keeps_glance fun _ _ => .next keeps_glance fun _ _ => keeps_putByte
  all_goals exact keeps_putPointer hv

theorem keeps_indexedAtPut : Keeps R slack (indexedAtPut fromBytecode mode) fun v => v.Ranged := by
  refine .next keeps_glance fun array _ => .next keeps_glance fun index _ => ?_
  refine .next keeps_stackValue fun v hv => ?_
  refine .ite (fun _ => .next keeps_glance fun entry _ => ?_) fun _ => .next keeps_atEntry fun entry _ => ?_
  all_goals
    exact .next keeps_glance fun _ _ => .next (keeps_elementPut hv) fun _ _ => .answer hv

end

end Attempt

namespace Primitive

open Attempt

variable {R : Int → Machine → Prop} {slack n : Nat} {v cls : Value} {mode : AccessMode}

/-! ### Numbers -/

/-- Results that are too great are declined. -/
theorem integerOp_concludes {op : Int → Int → Option Int} : Concludes R slack (integerOp op n) := by
  refine .next keeps_glance fun a _ => .next keeps_glance fun b _ => answering_concludes ?_
  refine keeps_ofOption.mono fun v _ h => ⟨h.1, ?_⟩
  obtain ⟨k, -, hk⟩ := Option.bind_eq_some_iff.1 h.2
  exact Value.ranged_of_ofInt? hk

theorem integerComparison_concludes {op : Int → Int → Bool} : Concludes R slack (integerComparison op n) :=
  .next keeps_glance fun _ _ => .next keeps_glance fun _ _ => answerTruth_concludes

theorem bitOp_concludes {op : Nat → Nat → Nat} : Concludes R slack (bitOp op n) :=
  .next keeps_glance fun _ _ => .next keeps_glance fun _ _ => answering_concludes keeps_newPositive32

theorem bitShift_concludes : Concludes R slack (bitShift n) :=
  .next keeps_glance fun _ _ => .next keeps_glance fun _ _ => .next keeps_glance fun _ _ =>
    answering_concludes keeps_newPositive32

theorem point_concludes : Concludes R slack (point n) :=
  .next keeps_stackValue fun _ hx => .next keeps_stackValue fun _ hy =>
    answering_concludes (keeps_lift (Action.keeps_makePoint hx hy))

theorem floatOp_concludes {op : UInt64 → UInt64 → Option UInt64} : Concludes R slack (floatOp op n) :=
  .next keeps_glance fun _ _ => .next keeps_glance fun _ _ => .next keeps_glance fun _ _ =>
    answering_concludes (keeps_lift Action.keeps_makeFloat)

theorem floatComparison_concludes {op : UInt64 → UInt64 → Bool} : Concludes R slack (floatComparison op n) :=
  .next keeps_glance fun _ _ => .next keeps_glance fun _ _ => answerTruth_concludes

theorem asFloat_concludes : Concludes R slack (asFloat n) :=
  .next keeps_glance fun _ _ => answering_concludes (keeps_lift Action.keeps_makeFloat)

/-- A number between two integers has its integral part between them. -/
theorem truncated_concludes : Concludes R slack (truncated n) :=
  .next keeps_glance fun _ _ => .next keeps_require fun _ h =>
    answer_concludes (Value.ranged_small (Double.truncate_of_isBetween h))

theorem logarithm_concludes : Concludes R slack (logarithm n) :=
  .next keeps_glance fun _ _ => answering_concludes (keeps_lift Action.keeps_makeFloat)

/-! ### Elements -/

theorem readElement_concludes : Concludes R slack (readElement mode n) := answering_concludes keeps_indexedAt

theorem writeElement_concludes : Concludes R slack (writeElement mode n) :=
  answering_concludes keeps_indexedAtPut

theorem size_concludes : Concludes R slack (size n) :=
  .next keeps_glance fun _ _ => .next keeps_glance fun _ _ => .next keeps_glance fun _ _ =>
    answering_concludes keeps_newPositive32

/-- What is copied has been a field of the source. -/
theorem replaceElements_concludes : Concludes R slack (replaceElements n) := by
  refine .next keeps_stackObject fun dest hdest => .next keeps_glance fun start _ => ?_
  refine .next keeps_glance fun stop _ => .next keeps_glance fun source _ => ?_
  refine .next keeps_glance fun sourceStart _ => .next keeps_glance fun count _ => ?_
  refine .next keeps_glance fun destPos _ => .next keeps_glance fun sourcePos _ => ?_
  refine .next (keeps_lift Action.keeps_object) fun destObject hd => ?_
  refine .next (keeps_lift Action.keeps_object) fun sourceObject hs => ?_
  refine .ite (fun _ => ?_) fun _ => .ite (fun _ => ?_) fun _ => .ite (fun _ => ?_) fun _ => ?_
  · refine .next keeps_glance fun _ _ => .next keeps_glance fun _ _ => ?_
    refine .next keeps_ofOption fun part hpart => .next keeps_ofOption fun pointers hpointers => ?_
    refine .next (keeps_modifyMemory fun o ho => ?_) fun _ _ => answer_concludes hdest
    refine ⟨ho.cls, (size_of_overwrite? hpointers).trans_le hd.2.size, fun x hx => ?_⟩
    rcases mem_of_overwrite? hpointers hx with hx | hx
    · exact hd.2.fields _ hx
    · exact hs.2.fields _ (mem_of_slice? hpart hx)
  · refine .next keeps_glance fun _ _ => .next keeps_glance fun _ _ => ?_
    exact .next (keeps_modifyMemory fun _ ho => ho.body rfl rfl) fun _ _ => answer_concludes hdest
  · refine .next keeps_glance fun _ _ => .next keeps_glance fun _ _ => ?_
    exact .next (keeps_modifyMemory fun _ ho => ho.body rfl rfl) fun _ _ => answer_concludes hdest
  · exact .next keeps_glance fun _ _ => answer_concludes hdest

/-! ### Objects -/

theorem keeps_newInstanceOf {count : Nat} (hcount : count ≤ maxIndexable) :
    Keeps R slack (newInstanceOf cls count) fun v => v.Ranged :=
  .next keeps_glance fun _ _ => .next keeps_glance fun _ _ => keeps_lift (Action.keeps_instantiate hcount)

theorem basicNew_concludes : Concludes R slack (basicNew n) :=
  .next keeps_glance fun _ _ => answering_concludes (keeps_newInstanceOf (Nat.zero_le _))

theorem basicNewSized_concludes : Concludes R slack (basicNewSized n) :=
  .next keeps_glance fun _ _ => .next keeps_glance fun _ _ => .next keeps_require fun _ hcount =>
    answering_concludes (keeps_newInstanceOf hcount)

theorem identityHash_concludes : Concludes R slack (identityHash n) :=
  .next keeps_glance fun _ _ => .next keeps_glance fun o _ =>
    answer_concludes (Value.ranged_count (o.hash.toNat_lt.trans (by decide)))

/-- A query finds an object. -/
theorem keeps_query {f : Memory → Option Value × Memory} (hf : ∀ memory, Found memory (f memory)) :
    Keeps R slack (liftM (Action.query f) : Attempt (Option Value)) fun found =>
      ∀ w, w.Ranged → (found.getD w).Ranged := by
  refine keeps_lift ⟨fun m hm => ?_⟩
  obtain ⟨⟨hint, hmemory⟩, hlive⟩ := hf m.memory
  refine ⟨hm.withMemory (hm.memory.of_slots (by rw [hmemory])), fun w hw => ?_⟩
  cases hfound : (f m.memory).1 with
  | none => exact hw
  | some v => exact .of_isLive (hlive v hfound)

theorem keeps_nil : Keeps R slack (liftM Action.nil : Attempt Value) fun v => v.Ranged :=
  keeps_lift Action.keeps_nil

theorem someInstance_concludes : Concludes R slack (someInstance n) :=
  .next keeps_glance fun _ _ => .next (keeps_query fun _ => enumerate_found ..) fun _ hfound =>
    .next keeps_nil fun _ hnil => answer_concludes (hfound _ hnil)

theorem nextInstance_concludes : Concludes R slack (nextInstance n) :=
  .next keeps_glance fun _ _ => .next (keeps_query fun _ => nextInstance_found ..) fun _ hfound =>
    .next keeps_nil fun _ hnil => answer_concludes (hfound _ hnil)

theorem someObject_concludes : Concludes R slack (someObject n) :=
  .next (keeps_query fun _ => enumerate_found ..) fun _ hfound =>
    .next keeps_nil fun _ hnil => answer_concludes (hfound _ hnil)

theorem nextObject_concludes : Concludes R slack (nextObject n) :=
  .next keeps_glance fun after _ => .next (keeps_query fun memory => follow_found memory after none)
    fun _ hfound => answer_concludes (hfound _ (Value.ranged_count (by decide)))

/-- A header comes from the stack, and there are few literals. -/
theorem newMethod_concludes : Concludes R slack (newMethod n) := by
  refine .next keeps_stackObject fun cls hcls => .next keeps_glance fun count _ => ?_
  refine .next keeps_stackInteger fun header hheader => .next keeps_glance fun spec _ => ?_
  refine .next keeps_glance fun _ _ => .next keeps_nil fun nil hnil => answering_concludes ?_
  refine keeps_lift (Action.keeps_allocate ⟨hcls, ?_, fun x hx => ?_⟩)
  · have hlt := (MethodHeader.mk header).literalCount_lt
    simp only [Object.ofMethod, Array.size_append, Array.size_replicate, maxFields]
    simp only [List.size_toArray, List.length_cons, List.length_nil]
    omega
  · rcases Array.mem_append.1 hx with hx | hx
    · exact (List.mem_singleton.1 (List.mem_toArray.1 hx)) ▸ Value.ranged_small hheader
    · exact (Array.mem_replicate.1 hx).2 ▸ hnil

theorem identical_concludes : Concludes R slack (identical n) :=
  .next keeps_glance fun _ _ => .next keeps_glance fun _ _ => answerTruth_concludes

theorem classOf_concludes : Concludes R slack (classOf n) :=
  .next keeps_glance fun _ _ => answering_concludes keeps_classOf

theorem keeps_get : Keeps R slack (get : Attempt Machine) fun m => m.Ranged slack :=
  keeps_look fun _ _ hm hrun => (get_ok.1 hrun).1 ▸ hm

theorem specialObjectsArray_concludes : Concludes R slack (specialObjectsArray n) :=
  .next keeps_get fun _ hm => answer_concludes hm.outfitted.array

theorem clone_concludes : Concludes R slack (clone n) :=
  .next keeps_glance fun _ _ => .next (keeps_lift Action.keeps_object) fun _ ho =>
    answering_concludes (keeps_lift (Action.keeps_allocate ho.2))

/-! ### Becoming -/

theorem ranged_apply {source target : List Value} {twoWay : Bool} {names : Renaming}
    (hnames : Renaming.ofLists source target twoWay = .ok names) (hsource : ∀ x ∈ source, x.Ranged)
    (htarget : ∀ x ∈ target, x.Ranged) (hv : v.Ranged) : (names.apply v).Ranged := by
  rcases Machine.apply_eq_or_mem names v with hsame | ⟨p, hp, hnew⟩
  · rw [hsame]
    exact hv
  · rw [← hnew]
    rcases List.mem_append.1 (Machine.mem_of_ofLists hnames p hp) with hx | hx
    · exact hsource _ hx
    · exact htarget _ hx

theorem ranged_load {memory : Memory} {array : Value} {specials : SpecialObjects} (hmemory : memory.Ranged)
    (harray : array.Ranged) (h : SpecialObjects.load memory array = .ok specials) :
    specials.array.Ranged ∧ specials.nil.Ranged ∧ specials.falseObject.Ranged ∧
      specials.trueObject.Ranged := by
  obtain ⟨rfl, hnil, hfalse, htrue⟩ := Machine.load_ok h
  exact ⟨harray, (hmemory.cell hnil), (hmemory.cell hfalse), (hmemory.cell htrue)⟩

/-- A renaming moves values from one place to another. -/
theorem keeps_become {source target : List Value} {twoWay : Bool} (hsource : ∀ x ∈ source, x.Ranged)
    (htarget : ∀ x ∈ target, x.Ranged) :
    Action.Keeps R slack (Action.become source target twoWay) fun _ => True := by
  unfold Action.become
  cases hnames : Renaming.ofLists source target twoWay with
  | error refusal => exact .answer trivial
  | ok names =>
    have apply : ∀ {v : Value}, v.Ranged → (names.apply v).Ranged := fun {_} =>
      ranged_apply hnames hsource htarget
    have renamed : Action.Keeps R slack (Action.modifyMemory fun m => m.rename names) fun _ => True :=
      ⟨fun m hm => ⟨hm.withMemory (hm.memory.rename fun _ => apply), trivial⟩⟩
    have registers : Action.Keeps R slack (Action.modifyRegisters fun r => r.rename names) fun _ => True :=
      Action.ends_modifyRegisters fun r hr => ⟨apply hr.context, apply hr.home, apply hr.method,
        apply hr.receiver, hr.literals, hr.pc, hr.sp⟩
    have array : Action.Keeps R slack (modify fun m : Machine => { m with
        specials := { m.specials with array := names.apply m.specials.array } }) fun _ => True := by
      refine ⟨fun m hm => ?_⟩
      have f := hm.outfitted
      exact ⟨⟨hm.memory, hm.registers, apply f.array, f.nil, f.falseObject, f.trueObject, f.pool,
        f.devices⟩, trivial⟩
    refine .next renamed fun _ _ => .next registers fun _ _ => .next array fun _ _ => ?_
    refine .next Action.keeps_get fun m hm => .next Action.keeps_get fun m' hm' => ?_
    refine .next (Action.keeps_look fun specials _ _ hrun =>
      ranged_load hm.memory hm'.outfitted.array (Action.ofExcept_ok.1 hrun).1) fun specials hspecials => ?_
    refine Ends.next (P := fun _ => True)
      ⟨fun before hbefore => ⟨⟨hbefore.memory, hbefore.registers, ?_⟩, trivial⟩⟩ fun _ _ => .answer trivial
    obtain ⟨harray, hnil, hfalse, htrue⟩ := hspecials
    have f := hbefore.outfitted
    exact ⟨harray, hnil, hfalse, htrue, fun w hw => absurd hw List.not_mem_nil, f.devices⟩

theorem arrayBecome_concludes {twoWay : Bool} : Concludes R slack (arrayBecome twoWay n) := by
  refine .next keeps_glance fun receiver _ => .next keeps_glance fun argument _ => ?_
  refine .next (keeps_lift Action.keeps_object) fun o ho => ?_
  refine .next (keeps_lift Action.keeps_object) fun o' ho' => ?_
  refine .next (keeps_lift (keeps_become (fun x hx => ho.2.fields _ (Array.mem_toList_iff.1 hx))
    fun x hx => ho'.2.fields _ (Array.mem_toList_iff.1 hx))) fun _ _ => ?_
  exact .next keeps_glance fun _ _ => answering_concludes keeps_stackValue

end Primitive

/-! ### Blocks and performs -/

theorem Action.keeps_lookup {R : Int → Machine → Prop} {slack : Nat} {selector cls : Value} :
    Action.Keeps R slack (Action.lookup selector cls) fun _ => True := by
  refine ⟨fun m hm => ?_⟩
  unfold Action.lookup
  dsimp only
  cases hrun : cachedLookup m.memory cls selector m.specials.nil m.methodCache with
  | ok found cache => exact ⟨hm.alike rfl rfl rfl (fun _ hv => hv) rfl, trivial⟩
  | error e cache =>
    refine faulted_of_accepts hm.memory ?_
    rcases cachedLookup_error hrun with h | ⟨v, rfl, -⟩
    · exact Fault.rejected?_of_ordinary h
    · rfl

namespace Attempt

variable {R : Int → Machine → Prop} {slack extra n : Nat} {v selector cls : Value}

/-- A block starts two bytes further on. -/
theorem keeps_blockCopy (hslack : 2 ≤ slack) : Keeps R slack Attempt.blockCopy fun v => v.Ranged := by
  refine .next keeps_glance fun context _ => .next keeps_stackValue fun argCount hargCount => ?_
  refine .next keeps_glance fun _ _ => .next keeps_glance fun _ _ => .next keeps_glance fun _ _ => ?_
  refine .next keeps_glance fun slot _ => ?_
  have copied : ∀ home : Value, Keeps R slack (do
      let o ← Action.object home
      let nil ← Action.nil
      let cls ← Action.special Special.classBlockContext
      let block ← Action.allocate (.ofPointers cls o.format (Array.replicate o.pointers.size nil))
      let r ← Action.registers
      let start ← Action.immediate (Context.encodePc (r.pc + 2) r.literalCount)
      Action.assertFrame block
      Action.store block Context.caller nil
      Action.store block Context.instructionPointer start
      Action.store block Context.stackPointer (.small 0)
      Action.store block Context.blockArgCount argCount
      Action.store block Context.initialPointer start
      Action.store block Context.home home
      modify fun m => { m with reclaimable := 0 }
      return block) fun v => v.Ranged := by
    intro home
    refine .next (keeps_lift Action.keeps_object) fun o ho => ?_
    refine .next (keeps_lift Action.keeps_nil) fun nil hnil => ?_
    refine .next (keeps_lift Action.keeps_special) fun cls hcls => ?_
    refine .next (keeps_lift (Action.keeps_allocate (Object.ranged_filled hcls rfl hnil ho.2.size)))
      fun block hblock => ?_
    refine .next (keeps_lift Action.keeps_registers) fun r hr => ?_
    have hstart : Value.InRange (Context.encodePc (r.pc + 2) r.literalCount) :=
      Action.inRange_encodePc (by have := hr.pc; omega)
    refine .next (keeps_lift (Action.keeps_immediate hstart)) fun start hstart => ?_
    refine .next keeps_glance fun _ _ => ?_
    refine .next (keeps_lift (Action.keeps_store hnil)) fun _ _ => ?_
    refine .next (keeps_lift (Action.keeps_store hstart)) fun _ _ => ?_
    refine .next (keeps_lift (Action.keeps_store (Value.ranged_count (n := 0) (by decide)))) fun _ _ => ?_
    refine .next (keeps_lift (Action.keeps_store hargCount)) fun _ _ => ?_
    refine .next (keeps_lift (Action.keeps_store hstart)) fun _ _ => ?_
    refine .next (keeps_lift (Action.keeps_store ho.1)) fun _ _ => ?_
    refine .next (keeps_modify fun _ => ?_) fun _ _ => .answer hblock
    exact ⟨rfl, rfl, rfl, fun _ hv => hv, rfl⟩
  exact .ite (fun _ => .next keeps_glance fun home _ => copied home) fun _ =>
    .next keeps_glance fun home _ => copied home

/-- A block that is entered has its own registers loaded. -/
theorem ends_blockValue : Ends (refused R slack) (Machine.Ranged slack) (Attempt.blockValue n)
    (keeping (Machine.Ranged 0) fun _ => True) := by
  refine .next keeps_stackValue fun block hblock => .next keeps_glance fun _ _ => ?_
  refine .next keeps_glance fun _ _ => .next (keeps_lift Action.keeps_fetch) fun slot hslot => ?_
  refine .next keeps_ofOption fun expected hexpected => .next keeps_require fun _ hcount => ?_
  refine .next keeps_glance fun _ _ => .next keeps_glance fun _ _ => .next keeps_glance fun _ _ => ?_
  refine .next keeps_glance fun _ _ => .next keeps_glance fun _ _ => ?_
  refine .next (keeps_lift Action.keeps_stackValues) fun arguments harguments => ?_
  refine .next (keeps_lift Action.keeps_fetch) fun start hstart => ?_
  refine .next (keeps_lift Action.keeps_registers) fun r hr => ?_
  refine .next (.forM fun argument hargument => ?_) fun _ _ => ?_
  · have hx := harguments.1 _ (List.fst_mem_of_mem_zipIdx hargument)
    exact .done (keeps_lift (Action.keeps_store hx))
  have hargCount : (Value.small n).Ranged := by
    cases slot with
    | small k =>
      obtain rfl : k = expected := Option.some.inj hexpected
      exact hcount ▸ hslot.2
    | ref index generation => cases hexpected
  refine .next (keeps_lift (Action.keeps_store hstart.2)) fun _ _ => ?_
  refine .next (keeps_lift (Action.keeps_store hargCount)) fun _ _ => ?_
  refine .next (keeps_lift (Action.keeps_store hr.context)) fun _ _ => ?_
  refine .next (keeps_lift Action.keeps_popN) fun _ _ => ?_
  exact ends_lift (Action.ends_activate hblock)

theorem keeps_checkArity : Keeps R slack (checkArity selector cls n) fun _ => True := by
  refine .next (keeps_lift Action.keeps_lookup) fun found _ => ?_
  cases found with
  | none => exact .answer trivial
  | some e => exact .next keeps_glance fun _ _ => .next keeps_glance fun _ _ => keeps_glance

theorem keeps_pushes {arguments : List Value} (h : ∀ x ∈ arguments, x.Ranged) :
    Keeps R slack (arguments.forM fun x => liftM (Action.push x)) fun _ => True :=
  .forM fun x hx => keeps_lift (Action.keeps_push (h x hx))

theorem performWithArray_concludes (hcls : cls.Ranged) : Concludes R slack (performWithArray cls extra) := by
  refine .next keeps_stackObject fun selector hselector => .next keeps_glance fun array _ => ?_
  refine .next (keeps_lift Action.keeps_object) fun o ho => .next keeps_glance fun _ _ => ?_
  refine .next keeps_glance fun r _ => .next keeps_glance fun context _ => .next keeps_glance fun _ _ => ?_
  refine .next keeps_checkArity fun _ _ => .next (keeps_lift Action.keeps_popN) fun _ _ => ?_
  refine .next (keeps_pushes fun x hx => ho.2.fields _ (Array.mem_toList_iff.1 hx)) fun _ _ => ?_
  exact .pure fun m hm => ⟨hm, hselector, hcls⟩

end Attempt

namespace Primitive

open Attempt

variable {R : Int → Machine → Prop} {slack n : Nat} {v cls : Value}

theorem blockCopy_concludes (hslack : 2 ≤ slack) : Concludes R slack (blockCopy n) :=
  answering_concludes (keeps_blockCopy hslack)

theorem blockValue_concludes : Concludes R slack (blockValue n) :=
  .next ends_blockValue fun _ _ => finished

theorem perform_concludes : Concludes R slack (perform n) := by
  cases n with
  | zero => exact .throw fun _ hm => hm
  | succ n =>
    refine .next keeps_stackObject fun selector hselector => .next keeps_glance fun receiver _ => ?_
    refine .next keeps_classOf fun cls hcls => .next keeps_checkArity fun _ _ => ?_
    refine .next (keeps_lift Action.keeps_stackValues) fun arguments harguments => ?_
    refine .next (keeps_lift Action.keeps_popN) fun _ _ => .next (keeps_pushes harguments.1) fun _ _ => ?_
    exact .pure fun m hm => ⟨hm, hselector, hcls⟩

theorem performWithArguments_concludes : Concludes R slack (performWithArguments n) :=
  .next keeps_glance fun _ _ => .next keeps_classOf fun _ hcls => performWithArray_concludes hcls

theorem performInSuperclass_concludes : Concludes R slack (performInSuperclass n) :=
  .next keeps_stackObject fun _ hcls => .next keeps_glance fun _ _ => .next keeps_glance fun _ _ =>
    .next keeps_glance fun _ _ => .next keeps_glance fun _ _ => performWithArray_concludes hcls

/-- What holds no integers is changed. -/
theorem modify_concludes {g : Machine → Machine}
    (hg : ∀ m, (g m).memory = m.memory ∧ (g m).registers = m.registers ∧ (g m).specials = m.specials ∧
      (∀ v ∈ (g m).pool.roots, v ∈ m.pool.roots) ∧ (g m).devices = m.devices) :
    Concludes R slack (do
      modify g
      return .done) := .next (keeps_modify hg) fun _ _ => finished

theorem flushCache_concludes : Concludes R slack (flushCache n) :=
  modify_concludes fun _ => ⟨rfl, rfl, rfl, fun _ hv => hv, rfl⟩

theorem flushMethod_concludes : Concludes R slack (flushMethod n) :=
  .next keeps_glance fun _ _ => modify_concludes fun _ => ⟨rfl, rfl, rfl, fun _ hv => hv, rfl⟩

theorem flushSelector_concludes : Concludes R slack (flushSelector n) :=
  .next keeps_glance fun _ _ => modify_concludes fun _ => ⟨rfl, rfl, rfl, fun _ hv => hv, rfl⟩

/-! ### Processes -/

theorem keeps_receiverOf {i : Nat} : Keeps R slack (receiverOf i) fun v => v.Ranged :=
  .next (keeps_lift Action.keeps_stackValue) fun _ hv => .next keeps_glance fun _ _ =>
    .next keeps_glance fun _ _ => .answer hv

/-- The count of the semaphore may be rejected. -/
theorem signal_concludes (hR : ∀ n m, m.Overruns n → R n m) : Concludes R slack (signal n) :=
  .next keeps_glance fun _ _ => .next (ends_lift (Action.ends_signal hR)) fun _ _ => finished

theorem wait_concludes : Concludes R slack (wait n) :=
  .next keeps_glance fun _ _ => .next (ends_lift Action.ends_wait) fun _ _ =>
    finished

theorem resume_concludes : Concludes R slack (resume n) :=
  .next keeps_receiverOf fun _ hprocess => .next keeps_glance fun _ _ => .next keeps_glance fun _ _ =>
    .next (ends_lift (Action.ends_resume hprocess)) fun _ _ => finished

theorem suspend_concludes : Concludes R slack (suspend n) :=
  .next keeps_glance fun _ _ => .next keeps_glance fun _ _ => .next keeps_glance fun _ _ =>
    .next keeps_nil fun _ hnil => .next (keeps_lift (Action.keeps_popThenPush hnil)) fun _ _ =>
      .next (ends_lift Action.ends_suspendActive) fun _ _ => finished

theorem keeps_registerSemaphore {i : Nat} (hv : v.Ranged) :
    Keeps R slack (registerSemaphore i v) fun _ => True := by
  refine .next keeps_glance fun isSemaphore _ => .next keeps_nil fun nil hnil => ?_
  refine .next keeps_glance fun m _ => ?_
  refine .done (keeps_lift (Action.keeps_store ?_))
  cases isSemaphore with
  | true => exact hv
  | false => exact hnil

theorem lowSpaceSemaphore_concludes : Concludes R slack (lowSpaceSemaphore n) :=
  .next keeps_stackValue fun _ hv => .next (keeps_registerSemaphore hv) fun _ _ =>
    answering_concludes keeps_stackValue

theorem interruptSemaphore_concludes : Concludes R slack (interruptSemaphore n) :=
  .next keeps_stackValue fun _ hv => .next (keeps_registerSemaphore hv) fun _ _ =>
    answering_concludes keeps_stackValue

theorem lowSpaceThreshold_concludes : Concludes R slack (lowSpaceThreshold n) :=
  .next keeps_glance fun _ _ => .next (keeps_modify fun _ => ⟨rfl, rfl, rfl, fun _ hv => hv, rfl⟩)
    fun _ _ => answering_concludes keeps_stackValue

theorem signalAtMilliseconds_concludes : Concludes R slack (signalAtMilliseconds n) :=
  .next keeps_stackValue fun _ hv => .next keeps_glance fun _ _ =>
    .next (keeps_registerSemaphore hv) fun _ _ =>
    .next keeps_glance fun _ _ => .next (keeps_modify fun _ => ⟨rfl, rfl, rfl, fun _ hv => hv, rfl⟩)
      fun _ _ => answering_concludes keeps_stackValue

/-! ### The system -/

/-- The space is cut off at the greatest integer. -/
theorem keeps_spaceLeft : Keeps R slack spaceLeft fun v => v.Ranged := by
  have cut (memory : Memory) : Action.Keeps R slack (Action.ofExcept memory.spaceLeft) fun left =>
      left ≤ 0x3FFFFFFF := by
    refine Action.keeps_look fun left _ _ hrun => ?_
    obtain ⟨_, -, hleft⟩ := Checked.bind_ok.1 (Action.ofExcept_ok.1 hrun).1
    exact Checked.pure_ok.1 hleft ▸ Int.min_le_right ..
  refine .next keeps_glance fun m _ => .next (keeps_lift (cut m.memory)) fun left hleft => ?_
  exact .answer (Value.ranged_small (Value.inRange_iff.2 (by omega)))

theorem bytesLeft_concludes : Concludes R slack (bytesLeft n) := answering_concludes keeps_spaceLeft

theorem quit_concludes : Concludes R slack (quit n) :=
  modify_concludes fun _ => ⟨rfl, rfl, rfl, fun _ hv => hv, rfl⟩

theorem imageName_concludes : Concludes R slack (imageName n) :=
  .next keeps_glance fun _ _ => .next keeps_glance fun _ _ => .next keeps_glance fun _ _ =>
    .next keeps_glance fun _ _ => answering_concludes (keeps_lift Action.keeps_makeString)

theorem keeps_reclaimYoungTimes {count : Nat} :
    Action.Keeps R slack (reclaimYoungTimes count) fun _ => True := by
  induction count with
  | zero => exact .answer trivial
  | succ count ih => exact .next Action.keeps_reclaim fun _ _ => ih

theorem fullCollection_concludes : Concludes R slack (fullCollection n) := by
  refine .next (keeps_modify fun _ => ⟨rfl, rfl, rfl, ?_, rfl⟩) fun _ _ => ?_
  · exact fun _ hv => absurd hv List.not_mem_nil
  · exact .next (keeps_lift keeps_reclaimYoungTimes) fun _ _ =>
      .next (keeps_lift Action.keeps_reclaim) fun _ _ => answering_concludes keeps_spaceLeft

theorem incrementalCollection_concludes : Concludes R slack (incrementalCollection n) :=
  .next (keeps_lift Action.keeps_reclaim) fun _ _ => answering_concludes keeps_spaceLeft

theorem millisecondClock_concludes : Concludes R slack (millisecondClock n) :=
  .next keeps_glance fun m _ => answer_concludes (Value.ranged_small m.clock.inRange_milliseconds)

theorem secondsClock_concludes : Concludes R slack (secondsClock n) :=
  .next keeps_glance fun _ _ => answering_concludes keeps_newPositive32

theorem vmPath_concludes : Concludes R slack (vmPath n) :=
  .next keeps_glance fun _ _ => answering_concludes (keeps_lift Action.keeps_makeString)

theorem systemAttribute_concludes : Concludes R slack (systemAttribute n) := answering_concludes keeps_nil

end Primitive

end Smalltalk
