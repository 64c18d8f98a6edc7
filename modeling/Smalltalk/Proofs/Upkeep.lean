import Smalltalk.Proofs.Closure

/-!
# Keeping a machine safe

What the larger changes do to a machine that is safe: pushing, pinning, loading registers, taking a
context from the pool or giving it back, and renaming objects throughout. After the last allocation of
a step only safety matters; what keeps a machine ready to allocate is said where it is needed.
-/

namespace Smalltalk.Machine

variable {m m' : Machine} {s : SpecialObjects} {v x : Value} {i n : Nat}

/-- Safety is kept and nothing that was proper is lost. -/
structure Follows (s : SpecialObjects) (m m' : Machine) : Prop where
  safe : m'.Safe s
  proper : ∀ x, m.Proper x → m'.Proper x

theorem Follows.refl (h : m.Safe s) : Follows s m m := ⟨h, fun _ => id⟩

theorem Follows.trans {m'' : Machine} (h : Follows s m m') (h' : Follows s m' m'') :
    Follows s m m'' := ⟨h'.safe, fun x hx => h'.proper x (h.proper x hx)⟩

theorem Safe.follows_modified (h : m.Safe s) {f : Object → Object}
    (hf : ∀ o, m.memory.get? v = some o →
      ∀ x ∈ (f o).cls :: (f o).pointers.toList, m.Proper x) : Follows s m (m.modified v f) where
  safe := h.modified hf
  proper _ hx := hx.mono (Memory.later_modify ..) fun w live => by
    rw [Machine.modified, Memory.isLive_modify]
    exact live

theorem Safe.follows_setCell (h : m.Safe s) (hx : m.Proper x) : Follows s m (m.setCell v i x) where
  safe := h.setCell hx
  proper _ hy := hy.mono (Memory.later_modify ..) fun w live => by
    rw [Machine.setCell, Memory.isLive_setField]
    exact live

theorem Safe.follows_withRegisters {r : Registers} (h : m.Safe s) (context : m.Proper r.context)
    (home : m.Proper r.home) (method : m.Proper r.method) (receiver : m.Proper r.receiver) :
    Follows s m (m.withRegisters r) :=
  ⟨h.withRegisters context home method receiver, fun _ => id⟩

theorem Safe.follows_alike (h : m.Safe s) (e : Alike m m') : Follows s m m' :=
  ⟨h.alike e, fun x hx => hx.mono (.of_slots (by rw [e.memory])) fun _ live => by
    rw [e.memory]
    exact live⟩

/-! ### The stack -/

theorem Safe.follows_popped (h : m.Safe s) (n : Nat) : Follows s m (Action.popped m n) :=
  ⟨h.withSp _, fun _ => id⟩

theorem Safe.follows_pushed (h : m.Safe s) (hx : m.Proper x) :
    Follows s m (Action.pushed m x) := by
  have hset := h.follows_setCell (v := m.registers.context) (i := m.registers.sp + 1) hx
  exact ⟨hset.safe.withSp _, hset.proper⟩

theorem Sound.popped (h : m.Sound s) (n : Nat) : (Action.popped m n).Sound s := h.withSp _

theorem Sound.pushed (h : m.Sound s) (hx : m.Proper x) : (Action.pushed m x).Sound s :=
  (h.setCell (v := m.registers.context) (i := m.registers.sp + 1) hx fun _ => h.frame).withSp _

/-- Putting back what stands there changes no field. -/
theorem cell_putBack (h : m.memory.cell m.registers.context (m.registers.sp - 1) = some x)
    (hsp : 2 ≤ m.registers.sp) (w : Value) (j : Nat) :
    (Action.pushed (Action.popped m 2) x).memory.cell w j = m.memory.cell w j := by
  have hindex : m.registers.sp - 2 + 1 = m.registers.sp - 1 := by omega
  change (m.memory.setField m.registers.context (m.registers.sp - 2 + 1) x).cell w j = _
  rw [hindex, Memory.cell_setField]
  split
  · rename_i e
    rw [e.1, e.2, h, Option.map_some]
  · rfl

/-! ### Pins -/

/-- The machine with other pins. -/
def withPins (m : Machine) (pins : Array Value) : Machine :=
  { m with memory := { m.memory with pins } }

theorem held_withPins (m : Machine) (pins : Array Value) (hv : v ∈ (m.withPins pins).held) :
    v ∈ m.held ∨ v ∈ pins := by
  simp only [held, withPins, List.mem_append] at hv ⊢
  rcases hv with (hv | hv) | hv
  · exact .inl (.inl (.inl hv))
  · exact .inr (Array.mem_toList_iff.1 hv)
  · exact .inl (.inr hv)

theorem wellFormed_withPins (pins : Array Value) (h : m.memory.WellFormed) :
    (m.withPins pins).memory.WellFormed := ⟨⟨h.listed, h.once⟩, ⟨h.vacant, h.distinct⟩⟩

theorem Safe.withPins (h : m.Safe s) {pins : Array Value} (hpins : ∀ v ∈ pins, m.Proper v) :
    (m.withPins pins).Safe s := by
  refine h.update rfl (.of_slots rfl) (h.stocked.of_slots rfl rfl) (wellFormed_withPins pins)
    (fun _ => id) (fun v c ps hs x hx => h.proper_of_shape hs hx) fun v hv => ?_
  rcases held_withPins m pins hv with hv | hv
  · exact h.proper_of_held hv
  · exact hpins v hv

theorem Sound.withPins (h : m.Sound s) {pins : Array Value} (hpins : ∀ v ∈ pins, m.Proper v) :
    (m.withPins pins).Sound s :=
  ⟨h.toSafe.withPins hpins,
    fun room => (h.coherent ⟨room.size, room.generation⟩).of_cell rfl fun _ => rfl, h.frame⟩

theorem Safe.proper_pin (h : m.Safe s) (hv : v ∈ m.memory.pins) : m.Proper v :=
  h.proper_of_held (List.mem_append_left _ (List.mem_append_right _ (Array.mem_toList_iff.2 hv)))

theorem reachable_withPins {pins : Array Value} {roots : List Value}
    (h : m.memory.Reachable roots v) : (m.withPins pins).memory.Reachable roots v :=
  h.of_get? fun _ _ => rfl

/-- With more pins, more is anchored. -/
theorem anchors_withPins (m : Machine) (values : Array Value) :
    m.anchors ⊆ (m.withPins (m.memory.pins ++ values)).anchors := by
  intro w hw
  rw [anchors] at hw ⊢
  rcases List.mem_append.1 hw with hw | hw
  · exact List.mem_append_left _ hw
  · refine List.mem_append_right _ ?_
    rw [Machine.withPins, Array.toList_append]
    exact List.mem_append_left _ hw

theorem Anchored.withPins (hv : m.Anchored v) (values : Array Value) :
    (m.withPins (m.memory.pins ++ values)).Anchored v := fun room =>
  (hv ⟨room.size, room.generation⟩).imp_right fun h =>
    reachable_withPins (h.mono (anchors_withPins m values))

/-- A pinned value is anchored. -/
theorem anchored_pinned {values : Array Value}
    (hvalues : ∀ x ∈ values, m.Proper x) (hv : v ∈ values) :
    (m.withPins (m.memory.pins ++ values)).Anchored v := by
  intro room
  refine (hvalues v hv ⟨room.size, room.generation⟩).imp_right fun live => .root ?_ live
  refine List.mem_append_right _ ?_
  rw [Machine.withPins, Array.toList_append]
  exact List.mem_append_right _ (Array.mem_toList_iff.2 hv)

theorem Sound.pinned (h : m.Sound s) {values : Array Value} (hvalues : ∀ x ∈ values, m.Proper x) :
    (m.withPins (m.memory.pins ++ values)).Sound s := by
  refine h.withPins fun w hw => ?_
  rcases Array.mem_append.1 hw with hw | hw
  · exact h.toSafe.proper_pin hw
  · exact hvalues w hw

/-- An allocation while values were pinned is an allocation without them. -/
theorem Allots.unpin {values : Array Value}
    (h : Allots s (m.withPins (m.memory.pins ++ values)) v m') :
    Allots s m v (m'.withPins (m'.memory.pins.take m.memory.pins.size)) := by
  have hpins : m'.memory.pins.take m.memory.pins.size = m.memory.pins := by
    rw [h.pins, Machine.withPins]
    simp
  have hsub := anchors_withPins m values
  rw [hpins]
  refine ⟨h.sound.withPins fun w hw => h.sound.toSafe.proper_pin ?_, fun room => ?_,
    fun room w hw => h.fresh ⟨room.size, room.generation⟩ w (reachable_withPins (hw.mono hsub)),
    ⟨h.later.size, h.later.slot⟩, fun w hw => h.kept w (reachable_withPins (hw.mono hsub)), h.registers, h.specials, rfl⟩
  · rw [h.pins, Machine.withPins]
    exact Array.mem_append_left _ hw
  · exact h.proper ⟨room.size, room.generation⟩

/-! ### Contexts -/

/-- What taking a context `v` leaves behind. -/
structure Supplies (s : SpecialObjects) (m : Machine) (v : Value) (m' : Machine) : Prop where
  safe : m'.Safe s
  proper : m'.Proper v
  registers : m'.registers = m.registers
  anchored : ∀ x, m.Anchored x → m'.Proper x

/-- The pool may start at other contexts that are proper. -/
theorem Safe.withPool {pool : ContextPool} (h : m.Safe s) (hpool : ∀ v ∈ pool.roots, m.Proper v) :
    { m with pool }.Safe s := by
  refine h.update rfl (.refl _) h.stocked id (fun _ => id) (fun v c ps hs x hx =>
    h.proper_of_shape hs hx) fun v hv => ?_
  rcases List.mem_append.1 hv with hv | hv
  · exact h.proper_of_held (List.mem_append_left _ hv)
  · exact hpool v hv

theorem mem_roots_setHead {pool : ContextPool} {large : Bool} {context : Option Value}
    (hv : v ∈ (pool.setHead large context).roots) : v ∈ pool.roots ∨ context = some v := by
  cases large with
  | false =>
    simp only [ContextPool.setHead, ContextPool.roots, Bool.false_eq_true, if_false,
      List.mem_append, Option.mem_toList] at hv ⊢
    rcases hv with hv | hv
    · exact .inr hv
    · exact .inl (.inr hv)
  | true =>
    simp only [ContextPool.setHead, ContextPool.roots, if_true,
      List.mem_append, Option.mem_toList] at hv ⊢
    rcases hv with hv | hv
    · exact .inl (.inl hv)
    · exact .inr hv

theorem Safe.proper_pool (h : m.Safe s) (hv : v ∈ m.pool.roots) : m.Proper v :=
  h.proper_of_held (List.mem_append_right _ hv)

theorem mem_roots_of_head {pool : ContextPool} {large : Bool} (h : pool.head large = some v) :
    v ∈ pool.roots := by
  cases large with
  | false =>
    have hsmall : pool.small = some v := h
    simp [ContextPool.roots, hsmall]
  | true =>
    have hlarge : pool.large = some v := h
    simp [ContextPool.roots, hlarge]

theorem Safe.proper_nil (h : m.Safe s) : m.Proper m.specials.nil :=
  h.proper_of_held (by simp [held])

/-- A context of the pool is wiped, and the pool goes on where it led to. -/
theorem Safe.wiped {o : Object} {next : Value} (h : m.Safe s) (large : Bool)
    (ho : m.memory.get? v = some o)
    (hnext : (o.pointers[Context.sender]?).getD m.specials.nil = next) :
    Follows s m { m with
      pool := m.pool.setHead large (if next = m.specials.nil then none else some next)
      memory := m.memory.replace v (Action.wiped o m.specials.nil) } := by
  have hproper : m.Proper next := by
    subst hnext
    cases hx : o.pointers[Context.sender]? with
    | none => exact h.proper_nil
    | some x =>
      exact h.proper_of_cell (v := v) (i := Context.sender)
        (Memory.cell_eq_some.2 ⟨o, ho, hx⟩)
  have hwipe : Follows s m (m.modified v fun _ => Action.wiped o m.specials.nil) := by
    refine h.follows_modified fun _ _ x hx => ?_
    rcases List.mem_cons.1 hx with rfl | hx
    · exact h.proper_of_shape (Memory.shape_of_get? ho) List.mem_cons_self
    · have hx : x ∈ Array.replicate o.pointers.size m.specials.nil := Array.mem_toList_iff.1 hx
      rw [(Array.mem_replicate.1 hx).2]
      exact h.proper_nil
  refine ⟨hwipe.safe.withPool fun w hw => hwipe.proper w ?_, hwipe.proper⟩
  rcases mem_roots_setHead hw with hw | hw
  · exact h.proper_pool hw
  · split at hw
    · exact absurd hw (by simp)
    · obtain rfl := Option.some.inj hw
      exact hproper

theorem supplied_supplies {large : Bool} (h : m.Sound s) (hsupply : Action.Supplied large m v m') :
    Supplies s m v m' := by
  cases hsupply with
  | pooled hhead ho hnext =>
    have hwipe := h.toSafe.wiped large ho hnext
    exact ⟨hwipe.safe, hwipe.proper v (h.toSafe.proper_pool (mem_roots_of_head hhead)), rfl,
      fun x hx => hwipe.proper x hx.proper⟩
  | @fresh m₁ hash o ht hhead ho hv =>
    subst hv
    have fields : ∀ x ∈ o.cls :: o.pointers.toList, m.Anchored x := by
      intro x hx
      subst ho
      rcases List.mem_cons.1 hx with rfl | hx
      · exact h.anchored_special _
      · have hx : x ∈ Array.replicate (Context.size large) m.specials.nil :=
          Array.mem_toList_iff.1 hx
        rw [(Array.mem_replicate.1 hx).2]
        exact h.anchored_nil
    have halloc := allots_placed (ht.sound h) fun x hx => (ht.anchored (fields x hx)).proper
    refine ⟨halloc.sound.toSafe.withPool fun w hw => halloc.sound.toSafe.proper_pool ?_,
      halloc.proper, halloc.registers.trans ht.registers,
      fun x hx => (halloc.anchored (ht.anchored hx)).proper⟩
    have hpool : (Action.placed m₁ o).pool.roots = m.pool.roots := congrArg _ hhead.1
    rw [hpool]
    exact hw

theorem allocateContext_supplies {large : Bool} (h : m.Sound s)
    (hrun : Action.allocateContext large m = .ok v m') : Supplies s m v m' := by
  obtain ⟨m₁, ht, hsupply⟩ := Action.allocateContext_ok hrun
  have hs := supplied_supplies (ht.sound h) hsupply
  exact ⟨hs.safe, hs.proper, hs.registers.trans ht.registers,
    fun x hx => hs.anchored x (ht.anchored hx)⟩

/-- A context goes back to the pool. -/
theorem Safe.recycled {cls : Value} (h : m.Safe s) (hv : m.Proper v) :
    Follows s m { m with
      pool := (m.pool.recycle m.memory v cls m.specials.nil).2.1
      memory := (m.pool.recycle m.memory v cls m.specials.nil).2.2 } := by
  cases hchain : ContextPool.chainOf? m.memory v cls with
  | none =>
    simp only [ContextPool.recycle, hchain]
    exact .refl h
  | some large =>
    simp only [ContextPool.recycle, hchain]
    have hhead : m.Proper ((m.pool.head large).getD m.specials.nil) := by
      cases hx : m.pool.head large with
      | none => exact h.proper_nil
      | some x => exact h.proper_pool (mem_roots_of_head hx)
    have hset := h.follows_setCell (v := v) (i := Context.sender) hhead
    refine ⟨hset.safe.withPool fun w hw => hset.proper w ?_, hset.proper⟩
    have hw : w ∈ (m.pool.setHead large (some v)).roots := hw
    rcases mem_roots_setHead hw with hw | hw
    · exact h.proper_pool hw
    · obtain rfl := Option.some.inj hw
      exact hv

/-! ### Registers -/

theorem Safe.follows_saved (h : m.Safe s) : Follows s m (Action.saved m) := by
  have hpc := h.follows_setCell (v := m.registers.context) (i := Context.instructionPointer)
    (proper_small (Context.encodePc m.registers.pc m.registers.literalCount))
  exact hpc.trans (hpc.safe.follows_setCell (proper_small _))

/-- The registers of a context come from its fields and those of its home. -/
theorem Safe.follows_loaded {context : Value} {r : Registers} (h : m.Safe s)
    (hcontext : m.Proper r.context) (hfrom : m.Proper context)
    (hloaded : Action.Loaded m.memory context r) : Follows s m (m.withRegisters r) := by
  obtain ⟨slot, hslot, hhome⟩ := hloaded.home
  have home : m.Proper r.home := by
    rcases hhome with ⟨-, hhome, -⟩ | ⟨-, hhome, -⟩
    · exact h.proper_of_cell hhome
    · rw [hhome]
      exact hfrom
  have method : m.Proper r.method := by
    rcases hhome with ⟨-, -, hmethod⟩ | ⟨-, -, hmethod⟩
    · exact h.proper_of_cell hmethod
    · rw [hmethod]
      exact h.proper_of_cell hslot
  exact h.follows_withRegisters hcontext home method (h.proper_of_cell hloaded.receiver)

/-! ### Renaming -/

theorem mem_of_extend {names names' : Renaming} {pairs : List (Value × Value)}
    (h : names.extend pairs = .ok names') : ∀ p ∈ names', p ∈ names ∨ p ∈ pairs := by
  induction pairs generalizing names with
  | nil =>
    obtain rfl := Except.ok.inj h
    exact fun p hp => .inl hp
  | cons pair pairs ih =>
    obtain ⟨old, new⟩ := pair
    simp only [Renaming.extend] at h
    split at h
    · exact absurd h (by simp)
    · split at h
      · exact absurd h (by simp)
      · intro p hp
        rcases ih h p hp with hp | hp
        · rcases List.mem_cons.1 hp with rfl | hp
          · exact .inr List.mem_cons_self
          · exact .inl hp
        · exact .inr (List.mem_cons_of_mem _ hp)

/-- Every new name is one of the values that were paired. -/
theorem mem_of_ofLists {source target : List Value} {twoWay : Bool} {names : Renaming}
    (h : Renaming.ofLists source target twoWay = .ok names) :
    ∀ p ∈ names, p.2 ∈ source ++ target := by
  simp only [Renaming.ofLists] at h
  split at h
  · exact absurd h (by simp)
  · cases hforward : Renaming.extend [] (source.zip target) with
    | error e => simp [hforward, bind, Except.bind] at h
    | ok forward =>
      have hfirst : ∀ p ∈ forward, p.2 ∈ source ++ target := by
        intro p hp
        rcases mem_of_extend hforward p hp with hp | hp
        · exact absurd hp List.not_mem_nil
        · exact List.mem_append_right _ (List.of_mem_zip hp).2
      simp only [hforward, bind, Except.bind] at h
      split at h
      · intro p hp
        rcases mem_of_extend h p hp with hp | hp
        · exact hfirst p hp
        · exact List.mem_append_left _ (List.of_mem_zip hp).2
      · obtain rfl := Except.ok.inj h
        exact hfirst

theorem apply_eq_or_mem (names : Renaming) (v : Value) :
    names.apply v = v ∨ ∃ p ∈ names, p.2 = names.apply v := by
  cases hv : names.lookup v with
  | none => exact .inl (by rw [Renaming.apply, hv, Option.getD_none])
  | some w =>
    obtain ⟨before, after, rfl, -⟩ := List.lookup_eq_some_iff.1 hv
    refine .inr ⟨(v, w), by simp, ?_⟩
    rw [Renaming.apply, hv, Option.getD_some]

theorem get?_rename (memory : Memory) (names : Renaming) (v : Value) :
    (memory.rename names).get? v = (memory.get? v).map names.applyObject := by
  cases v with
  | small n => rfl
  | ref index generation =>
    simp only [Memory.get?, Memory.rename, Array.getElem?_map]
    cases memory.slots[index.toNat]? with
    | none => rfl
    | some slot =>
      simp only [Option.map_some]
      split <;> rfl

theorem load_ok {memory : Memory} {array : Value} {known : SpecialObjects}
    (h : SpecialObjects.load memory array = .ok known) : known.array = array ∧
      memory.cell array Special.nilObject = some known.nil ∧
      memory.cell array Special.falseObject = some known.falseObject ∧
      memory.cell array Special.trueObject = some known.trueObject := by
  simp only [SpecialObjects.load, bind, Except.bind] at h
  cases hn : memory.field .specialObjects array Special.nilObject with
  | error e => simp [hn] at h
  | ok nil =>
    cases hf : memory.field .specialObjects array Special.falseObject with
    | error e => simp [hn, hf] at h
    | ok falseObject =>
      cases ht : memory.field .specialObjects array Special.trueObject with
      | error e => simp [hn, hf, ht] at h
      | ok trueObject =>
        simp only [hn, hf, ht] at h
        obtain rfl := Except.ok.inj h
        exact ⟨rfl, Action.field_ok.1 hn, Action.field_ok.1 hf, Action.field_ok.1 ht⟩

/-- A machine whose objects were renamed, and which has taken up its special objects anew. -/
structure Renamed (names : Renaming) (m m' : Machine) : Prop where
  memory : m'.memory = m.memory.rename names
  registers : m'.registers = m.registers.rename names
  specials : SpecialObjects.load m'.memory (names.apply m.specials.array) = .ok m'.specials
  pool : m'.pool = m.pool.clear

theorem become_ok {source target : List Value} {twoWay b : Bool}
    (h : Action.become source target twoWay m = .ok b m') :
    (b = false ∧ m' = m) ∨ (b = true ∧ ∃ names, Renaming.ofLists source target twoWay = .ok names ∧
      Renamed names m m') := by
  cases hnames : Renaming.ofLists source target twoWay with
  | error e =>
    simp only [Action.become, hnames, Outcome.pure_ok] at h
    obtain ⟨rfl, rfl⟩ := h
    exact .inl ⟨rfl, rfl⟩
  | ok names =>
    simp only [Action.become, hnames, Outcome.bind_ok, Action.modifyMemory_ok, Action.modifyRegisters_ok,
      Outcome.modify_ok, Outcome.get_ok, Action.ofExcept_ok, Outcome.pure_ok] at h
    obtain ⟨_, _, rfl, _, _, rfl, _, _, rfl, _, _, ⟨rfl, rfl⟩, _, _, ⟨rfl, rfl⟩, known, _,
      ⟨hload, rfl⟩, _, _, rfl, rfl, rfl⟩ := h
    exact .inr ⟨rfl, names, rfl, rfl, rfl, hload, rfl⟩

/-- Renaming objects to objects that are there leaves no stale reference behind. -/
theorem Renamed.safe {names : Renaming} (hr : Renamed names m m') (h : m.Safe s)
    (hnames : ∀ p ∈ names, m.Proper p.2) : m'.Safe m'.specials ∧ m'.Coherent := by
  have apply : ∀ {x}, m.Proper x → m.Proper (names.apply x) := by
    intro x hx
    rcases apply_eq_or_mem names x with e | ⟨p, hp, e⟩
    · rw [e]
      exact hx
    · rw [← e]
      exact hnames p hp
  have live : ∀ w, m'.memory.isLive w = m.memory.isLive w := by
    intro w
    rw [hr.memory, Memory.isLive, get?_rename, Option.isSome_map, Memory.isLive]
  have later : m.memory.Later m'.memory := by
    rw [hr.memory]
    exact Memory.later_rename ..
  have mono : ∀ {x}, m.Proper x → m'.Proper x := fun hx =>
    hx.mono later fun w hw => by rw [live]; exact hw
  have fields : ∀ v c ps, m'.memory.shape v = some (c, ps) → ∀ x ∈ c :: ps.toList, m'.Proper x := by
    intro v c ps hs x hx
    rw [hr.memory, Memory.shape, get?_rename] at hs
    cases ho : m.memory.get? v with
    | none => simp [ho] at hs
    | some o =>
      simp only [ho, Option.map_some, Option.some.injEq, Prod.mk.injEq] at hs
      obtain ⟨rfl, rfl⟩ := hs
      have hx : x ∈ (o.cls :: o.pointers.toList).map names.apply := by
        rw [List.map_cons, ← Array.toList_map]
        exact hx
      obtain ⟨y, hy, rfl⟩ := List.mem_map.1 hx
      exact mono (apply (h.proper_of_shape (Memory.shape_of_get? ho) hy))
  obtain ⟨harray, hnil, hfalse, htrue⟩ := load_ok hr.specials
  have known : ∀ {w : Value} {i : Nat} {x : Value}, m'.memory.cell w i = some x → m'.Proper x := by
    intro w i x hx
    obtain ⟨c, ps, hs, hmem⟩ := Memory.mem_of_cell hx
    exact fields w c ps hs x hmem
  have register : ∀ {x}, x ∈ m.held → m'.Proper (names.apply x) := fun hx =>
    mono (apply (h.proper_of_held hx))
  have held : ∀ w ∈ m'.held, m'.Proper w := by
    intro w hw
    simp only [Machine.held, hr.registers, hr.pool, Registers.rename, ContextPool.clear,
      ContextPool.roots, Option.toList_none, List.append_nil, List.mem_append, List.mem_cons,
      List.not_mem_nil, or_false] at hw
    rcases hw with (rfl | rfl | rfl | rfl | rfl | rfl | rfl | rfl) | hw
    · rw [harray]
      exact register (by simp [Machine.held])
    · exact known hnil
    · exact known hfalse
    · exact known htrue
    · exact register (by simp [Machine.held])
    · exact register (by simp [Machine.held])
    · exact register (by simp [Machine.held])
    · exact register (by simp [Machine.held])
    · rw [hr.memory, Memory.rename, Array.toList_map] at hw
      obtain ⟨y, hy, rfl⟩ := List.mem_map.1 hw
      exact register (List.mem_append_left _ (List.mem_append_right _ hy))
  refine ⟨⟨rfl, ?_, fun room => ⟨?_, fun v c ps hs x hx => fields v c ps hs x hx room,
    fun w hw => held w hw room⟩⟩, ?_⟩
  · rw [hr.memory]
    exact h.stocked.rename names
  · have hwf := (h.secure (later.addressable room)).wellFormed
    refine ⟨⟨fun w => ?_, ?_⟩, ?_⟩
    · rw [live, hr.memory]
      exact hwf.listed w
    · rw [hr.memory]
      exact hwf.once
    · rw [hr.memory]
      exact h.stocked.rename names
  · rw [← harray] at hnil hfalse htrue
    exact ⟨hnil, hfalse, htrue⟩

end Smalltalk.Machine
