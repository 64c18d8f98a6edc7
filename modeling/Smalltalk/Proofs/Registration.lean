import Smalltalk.Proofs.Staleness

/-!
# What a registration answers

A registration answers a reference that did not resolve before, and through it the new object is
found, with its new identity hash. There is one exception. A slot that has been vacated `2^30` times is
on the free list like any other, but a reference has no room for its count: the next object that is
put there is registered, and the reference that is answered for it reads generation zero and does not
resolve. The exception can be reached from the empty memory, with a table of a single place, by freeing
and registering one object after the other.
-/

namespace Smalltalk.Memory

variable {m m₁ m' : Memory} {v : Value} {o : Object} {settings : TableSettings} {k : Nat}

/-! ### Slots that are vacated -/

/-- Some slots have been vacated, none of them twice, and nothing else has become of the slots. -/
structure Vacates (m m' : Memory) : Prop where
  size : m'.slots.size = m.slots.size
  slot : ∀ (i : Nat) (s' : Slot), m'.slots[i]? = some s' → m.slots[i]? = some s' ∨
    s'.object = none ∧ ∃ s, m.slots[i]? = some s ∧ s.object.isSome = true ∧
      s'.generation.toNat = s.generation.toNat + 1

namespace Vacates

theorem of_slots (h : m'.slots = m.slots) : Vacates m m' :=
  ⟨by rw [h], fun i s' hs => .inl (h ▸ hs)⟩

theorem trans (h : Vacates m m₁) (h' : Vacates m₁ m') : Vacates m m' := by
  refine ⟨h'.size.trans h.size, fun i s' hs => ?_⟩
  rcases h'.slot i s' hs with hs | ⟨hnone, s, hs, hsome, hg⟩
  · exact h.slot i s' hs
  · rcases h.slot i s hs with hs | ⟨hvacant, -⟩
    · exact .inr ⟨hnone, s, hs, hsome, hg⟩
    · rw [hvacant] at hsome
      exact absurd hsome (by simp)

theorem vacate (m : Memory) (v : Value) : Vacates m (m.vacate v) := by
  by_cases live : m.isLive v = true
  · obtain ⟨index, generation, s, rfl, hs, hg, hsome, hv⟩ := vacate_of_isLive live
    rw [hv]
    refine ⟨Array.size_setIfInBounds, fun i s' hs' => ?_⟩
    rw [Array.getElem?_setIfInBounds] at hs'
    split at hs'
    · rename_i hi
      subst hi
      split at hs'
      · obtain rfl := Option.some.inj hs'
        refine .inr ⟨rfl, s, hs, hsome, ?_⟩
        have hlt := generation.isLt
        have hone : (1 : UInt32).toNat = 1 := rfl
        simp only [UInt32.toNat_add, hone]
        omega
      · cases hs'
    · exact .inl hs'
  · rw [vacate_of_not_isLive live]
    exact .of_slots rfl

theorem foldl_vacate (dead : List Value) (m : Memory) :
    Vacates m (dead.foldl Memory.vacate m) := by
  induction dead generalizing m with
  | nil => exact .of_slots rfl
  | cons v dead ih => exact (vacate m v).trans (ih _)

theorem reclaim (m : Memory) (roots : List Value) (scope : Scope) :
    Vacates m (m.reclaim roots scope).2 := by
  have htrimmed : Vacates m (m.trimmed roots scope) := .of_slots rfl
  exact (htrimmed.trans (foldl_vacate _ _)).trans (.of_slots (reclaim_slots m roots scope))

/-- What is answered for a new object resolved neither when its slot was vacant nor before that. -/
theorem place_dead (h : Vacates m m') (hstocked : m'.Stocked) (room : m.slots.size < 0x100000000)
    (o : Object) : m.isLive (m'.place o).1 = false := by
  cases hf : m'.free with
  | nil =>
    have hindex : (UInt32.ofNat m'.slots.size).toNat = m.slots.size := by
      rw [h.size]
      exact UInt32.toNat_ofNat_of_lt' room
    simp [place, hf, isLive, Value.reference, get?, hindex]
  | cons index free =>
    obtain ⟨s', hs', hnone⟩ := hstocked.vacant index (by rw [hf]; exact List.mem_cons_self)
    simp only [place, hf, isLive, Value.reference, get?, hs', Option.map_some, Option.getD_some]
    rcases h.slot _ s' hs' with hs | ⟨-, s, hs, -, hg⟩
    · simp [hs, hnone]
    · have hread : (s'.generation.toBitVec.setWidth 30).toNat =
          s'.generation.toNat % 2 ^ 30 := BitVec.toNat_setWidth ..
      rw [hs]
      simp only [hread, hg]
      rw [if_neg (by omega)]
      rfl

end Vacates

/-- The slot that a value names has been vacated more often than a reference can tell. -/
def Overrun (m : Memory) : Value → Prop
  | .small _ => False
  | .ref index _ => ∃ s, m.slots[index.toNat]? = some s ∧ 0x40000000 ≤ s.generation.toNat

/-- An object that is placed is found, unless its slot is overrun. -/
theorem get?_place_self (h : m.Stocked) (room : m.slots.size < 0x100000000) (o : Object) :
    (¬ (m.place o).2.Overrun (m.place o).1 → (m.place o).2.get? (m.place o).1 = some o) ∧
    ((m.place o).2.Overrun (m.place o).1 → (m.place o).2.get? (m.place o).1 = none) := by
  cases hf : m.free with
  | nil =>
    have hplaceable : m.Placeable := by
      simp only [Placeable, hf]
      exact room
    have hindex : (UInt32.ofNat m.slots.size).toNat = m.slots.size :=
      UInt32.toNat_ofNat_of_lt' room
    refine ⟨fun _ => by rw [get?_place hplaceable, if_pos rfl], fun hover => ?_⟩
    simp [place, hf, Value.reference, Overrun, hindex] at hover
  | cons index free =>
    obtain ⟨s, hs, hnone⟩ := h.vacant index (by rw [hf]; exact List.mem_cons_self)
    have hover : (m.place o).2.Overrun (m.place o).1 ↔ 0x40000000 ≤ s.generation.toNat := by
      simp [place, hf, hs, Value.reference, Overrun, Array.getElem?_modify]
    rw [hover]
    refine ⟨fun hlt => ?_, fun hle => ?_⟩
    · have hplaceable : m.Placeable := by
        simp only [Placeable, hf]
        exact ⟨s, hs, hnone, Nat.not_le.1 hlt⟩
      rw [get?_place hplaceable, if_pos rfl]
    · have hread := (s.generation.toBitVec.setWidth 30).isLt
      simp only [place, hf, hs, Option.map_some, Option.getD_some, Value.reference, get?,
        Array.getElem?_modify, if_true]
      exact if_neg (by omega)

/-! ### Every run keeps the free list -/

theorem Stocked.account_register {s : Account} (h : s.2.Stocked) (o : Object) :
    (s.register (Memory.registerHashed o)).2.Stocked := by
  rcases s.register_cases o with hrun | hrun
  · rw [hrun]
    exact h
  · rw [hrun]
    have hready : s.2.readied.Stocked :=
      h.of_slots (Memory.readied_slots s.2) (Memory.readied_free s.2)
    exact hready.place

theorem Stocked.perform {s : Account} (h : s.2.Stocked) (op : Operation) :
    (op.perform s).2.Stocked := by
  cases op with
  | register o =>
    exact account_register (s := (s.1, s.2.setHashSeed (nextSeed s.2.hashSeed)))
      (h.of_slots rfl rfl) _
  | registerHashed o => exact h.account_register o
  | write v i x => exact h.modify v _
  | become source target twoWay =>
    simp only [Operation.perform, Memory.become]
    cases Renaming.ofLists source target twoWay with
    | error refusal => exact h
    | ok r => exact h.rename r
  | pin v => exact h.of_slots rfl rfl
  | releasePins count => exact h.of_slots rfl rfl
  | reclaim roots scope => exact h.reclaim roots scope
  | grow =>
    simp only [Operation.perform, attempted_grow]
    split
    · split
      · exact h.of_slots rfl rfl
      · exact h
    · exact h
  | markOldBoundary => exact h.of_slots rfl rfl
  | setHashSeed seed => exact h.of_slots rfl rfl
  | indexOf v =>
    simp only [Operation.perform, Memory.indexOf]
    split
    · exact h
    · split
      · exact h.of_slots rfl rfl
      · exact h
  | enumerate start cls =>
    simp only [Operation.perform, Memory.enumerate]
    split
    · exact h.of_slots rfl rfl
    · exact h

theorem stocked_account (settings : TableSettings) (ops : List Operation) :
    (account settings ops).2.Stocked := by
  have run : ∀ s : Account, s.2.Stocked → (ops.foldl (fun s op => op.perform s) s).2.Stocked := by
    induction ops with
    | nil => exact fun _ h => h
    | cons op ops ih => exact fun s h => ih (op.perform s) (h.perform op)
  exact run _ (wellFormed_empty settings).toStocked

/-! ### Registrations -/

/-- What is to be seen of a registration that answered `v` for the object `o`. -/
structure Entered (m : Memory) (o : Object) (v : Value) (m' : Memory) : Prop where
  fresh : m.isLive v = false
  kept : ∀ w, m.isLive w = true → m'.get? w = m.get? w
  found : ¬ m'.Overrun v → m'.get? v = some o
  lost : m'.Overrun v → m'.get? v = none

theorem Stocked.entered_place (h : m.Stocked) (room : m.slots.size < 0x100000000) (o : Object) :
    m.Entered o (m.place o).1 (m.place o).2 where
  fresh := Vacates.place_dead (.of_slots rfl) h room o
  kept w live := by
    rcases h.get?_place o w with hsame | ⟨-, hnone, -⟩
    · exact hsame
    · rw [isLive, hnone] at live
      exact absurd live (by simp)
  found := (get?_place_self h room o).1
  lost := (get?_place_self h room o).2

/-- After every run, a registration that succeeds enters the object under its new identity hash. -/
theorem register_enters (ops : List Operation)
    (room : (account settings ops).2.slots.size < 0x100000000)
    (h : register o (account settings ops).2 = .ok v m') :
    (account settings ops).2.Entered
      { o with hash := seedHash (nextSeed (account settings ops).2.hashSeed) } v m' := by
  obtain ⟨rfl, rfl⟩ := registerHashed_ok h
  have hslots := readied_slots
    ((account settings ops).2.setHashSeed (nextSeed (account settings ops).2.hashSeed))
  have hfree := readied_free
    ((account settings ops).2.setHashSeed (nextSeed (account settings ops).2.hashSeed))
  have hstocked := (stocked_account settings ops).of_slots hslots hfree
  have hget := get?_congr hslots
  obtain ⟨hfresh, hkept, hfound, hlost⟩ := hstocked.entered_place (hslots ▸ room)
    { o with hash := seedHash (nextSeed (account settings ops).2.hashSeed) }
  rw [isLive_congr hget] at hfresh hkept
  rw [hget] at hkept
  exact ⟨hfresh, hkept, hfound, hlost⟩

/-! ### Wearing a slot out -/

/-- A table with one place for ever. -/
def single : TableSettings := { initial := 1, growth := 1, maximum := 1 }

/-- An object is registered, and then freed and registered again `k` times. -/
def wearing (k : Nat) : List Operation :=
  .register (.ofBytes (.small 0) #[]) ::
    (List.replicate k [.reclaim [] .full, .register (.ofBytes (.small 0) #[])]).flatten

/-- A memory whose only slot is in its `k`-th generation and occupied. -/
structure Worn (k : Nat) (m : Memory) : Prop where
  slots : ∃ o, m.slots = #[⟨UInt32.ofNat k, some o⟩]
  free : m.free = []
  table : m.table = #[.reference 0 (UInt32.ofNat k)]
  pins : m.pins = #[]
  capacity : m.capacity = 1
  settings : m.settings = single

/-- The same memory after its object has been freed. -/
structure Emptied (k : Nat) (m : Memory) : Prop where
  slots : m.slots = #[⟨UInt32.ofNat k, none⟩]
  free : m.free = [0]
  table : m.table = #[]
  pins : m.pins = #[]
  capacity : m.capacity = 1
  settings : m.settings = single

/-- As long as a reference has room for the count, the slot can be vacated. -/
theorem vacate_reference (hslots : m.slots = #[⟨UInt32.ofNat k, some o⟩]) (hk : k < 0x40000000) :
    m.vacate (.reference 0 (UInt32.ofNat k)) = { m with
      slots := #[⟨UInt32.ofNat (k + 1), none⟩]
      free := 0 :: m.free
      reclaimed := m.reclaimed + 1 } := by
  have hword : (UInt32.ofNat k).toNat = k := UInt32.toNat_ofNat_of_lt' (hk.trans (by decide))
  have hread : (UInt32.ofNat k).toNat = ((UInt32.ofNat k).toBitVec.setWidth 30).toNat := by
    rw [BitVec.toNat_setWidth, UInt32.toNat_toBitVec, hword, Nat.mod_eq_of_lt hk]
  have hnext : UInt32.ofNat k + 1 = UInt32.ofNat (k + 1) := by
    rw [UInt32.ofNat_add]
    rfl
  have hslot : m.slots[(0 : UInt32).toNat]? = some ⟨UInt32.ofNat k, some o⟩ := by rw [hslots]; rfl
  simp only [Value.reference, vacate, hslot]
  rw [if_pos ⟨hread, rfl⟩, hnext, hslots]
  rfl

/-- An object that nothing refers to is freed. -/
theorem Worn.reclaim (h : m.Worn k) (hk : k < 0x40000000) :
    (m.reclaim [] .full).2.Emptied (k + 1) := by
  obtain ⟨⟨o, hslots⟩, hfree, htable, hpins, hcapacity, hsettings⟩ := h
  have hmarks : m.reach ([] ++ m.pins.toList ++ m.table.toList.take 0) = #[false] := by
    simp [reach, mark, hpins, hslots]
  have hdoomed : ([Value.reference 0 (UInt32.ofNat k)].filter fun v => !markOf #[false] v) =
      [.reference 0 (UInt32.ofNat k)] := rfl
  have hkept : [Value.reference 0 (UInt32.ofNat k)].filter (markOf #[false]) = [] := rfl
  have hsweep : m.sweep #[false] 0 = { m with
      slots := #[⟨UInt32.ofNat (k + 1), none⟩]
      free := [0]
      table := #[]
      reclaimed := m.reclaimed + 1 } := by
    simp only [sweep, htable, List.drop_zero, hdoomed, hkept, List.foldl_cons, List.foldl_nil]
    refine (vacate_reference (m := { m with
      table := #[.reference 0 (UInt32.ofNat k)].take 0 ++ #[] }) (o := o) hslots hk).trans ?_
    simp [hfree]
  simp only [Memory.reclaim, sweepStart, hmarks, hsweep]
  exact ⟨rfl, rfl, rfl, hpins, hcapacity, hsettings⟩

theorem Emptied.register (h : m.Emptied k) (o : Object) :
    ∃ m', Memory.register o m = .ok (.reference 0 (UInt32.ofNat k)) m' ∧ m'.Worn k := by
  obtain ⟨slots, free, table, capacity, oldBoundary, hashSeed, hint, pins, settings, n, i, g⟩ := m
  obtain ⟨hslots, hfree, htable, hpins, hcapacity, hsettings⟩ := h
  simp only at hslots hfree htable hpins hcapacity hsettings
  subst hslots hfree htable hpins hcapacity hsettings
  exact ⟨_, rfl, ⟨⟨_, rfl⟩, rfl, rfl, rfl, rfl, rfl⟩⟩

theorem wearing_succ (k : Nat) : wearing (k + 1) =
    wearing k ++ [.reclaim [] .full, .register (.ofBytes (.small 0) #[])] := by
  simp [wearing, List.replicate_succ']

/-- After each turn an object is in the slot, whose generation counts the turns. -/
theorem worn_wearing (hk : k ≤ 0x40000000) : (account single (wearing k)).2.Worn k := by
  induction k with
  | zero => exact ⟨⟨_, rfl⟩, rfl, rfl, rfl, rfl, rfl⟩
  | succ k ih =>
    have hemptied := (ih (Nat.le_of_succ_le hk)).reclaim hk
    obtain ⟨m', hregister, hworn⟩ := hemptied.register (.ofBytes (.small 0) #[])
    rw [wearing_succ, account_append]
    simp only [List.foldl_cons, List.foldl_nil, Operation.perform, Account.register, hregister]
    exact hworn

theorem emptied_wearing (hk : k < 0x40000000) :
    (account single (wearing k ++ [.reclaim [] .full])).2.Emptied (k + 1) := by
  rw [account_append]
  exact (worn_wearing (Nat.le_of_lt hk)).reclaim hk

/-- When the slot is vacated for the `2^30`-th time it is overrun, and the next object is lost. -/
theorem register_enters_worn :
    (account single (wearing 0x3FFFFFFF ++ [.reclaim [] .full])).2.slots.size < 0x100000000 ∧
    ∃ v m', register (.ofBytes (.small 0) #[])
        (account single (wearing 0x3FFFFFFF ++ [.reclaim [] .full])).2 = .ok v m' ∧
      m'.get? v = none := by
  have hemptied : (account single (wearing 0x3FFFFFFF ++ [.reclaim [] .full])).2.Emptied
      0x40000000 := emptied_wearing (k := 0x3FFFFFFF) (by decide)
  have room : (account single (wearing 0x3FFFFFFF ++ [.reclaim [] .full])).2.slots.size <
      0x100000000 := by
    rw [hemptied.slots]
    decide
  obtain ⟨m', hregister, hworn⟩ := hemptied.register (.ofBytes (.small 0) #[])
  obtain ⟨o, hslots⟩ := hworn.slots
  have hlarge : 0x40000000 ≤ (UInt32.ofNat 0x40000000).toNat := by decide
  have hover : m'.Overrun (.reference 0 (UInt32.ofNat 0x40000000)) :=
    ⟨⟨UInt32.ofNat 0x40000000, some o⟩, by rw [hslots]; rfl, hlarge⟩
  exact ⟨room, _, m', hregister, (register_enters _ room hregister).lost hover⟩

end Smalltalk.Memory
