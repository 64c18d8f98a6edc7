import Mathlib
import Smalltalk.Image.Load
import Smalltalk.MethodHeader
import Smalltalk.Proofs.Checked
import Smalltalk.Proofs.Reclamation
import Smalltalk.Proofs.Upkeep

/-!
# What a loaded image holds

A stream that loads may hold anything, so what is known of the objects comes from the loader alone.
Reading gives records, no more than fit the range of a slot index. Registering them in order makes a
memory without gaps (`Rowed`): the reference to the object of record `i` is `entry i`, and these are
all the live references. Filling in changes the objects one by one and keeps that shape, so whatever
the resolver answers stays live to the end. `load_sound` collects what follows for the whole image.
-/

namespace Smalltalk

namespace TableSettings

/-- The capacity a table starts with. -/
def start (s : TableSettings) : Nat := min s.initial s.maximum

/-- The first step of growth does not leave a word. -/
def StepFits (s : TableSettings) : Prop := s.start + s.growth < 0x10000000000000000

/-- A table that so many objects are put into has to grow, and its first step leaves a word. -/
def Outgrown (s : TableSettings) (n : Nat) : Prop :=
  s.initial < n ∧ 0x10000000000000000 ≤ s.initial + s.growth

instance (s : TableSettings) (n : Nat) : Decidable (s.Outgrown n) := inferInstanceAs (Decidable (_ ∧ _))

end TableSettings

namespace Image

open Checked

variable {limit offset : Nat} {words : List UInt32} {records : List Record}

/-! ### Reading the records -/

/-- Reading stops at the limit, or reads one record and goes on behind it. -/
theorem readRecords_ok : readRecords limit offset words = .ok records ↔
    limit ≤ offset ∧ records = [] ∨
    ∃ word rest head tail, offset < limit ∧ words = word :: rest ∧
      readHead offset word rest = .ok head ∧ head.size ≠ 0 ∧
      head.size - 1 ≤ rest.length - head.extraWords ∧
      readRecords limit (offset + 4 * (head.extraWords + head.size))
        (rest.drop (head.extraWords + (head.size - 1))) = .ok tail ∧
      records = head.record offset ((rest.drop head.extraWords).take (head.size - 1)) :: tail := by
  rw [readRecords.eq_def]
  by_cases hlt : offset < limit
  · rw [if_pos hlt]
    cases words with
    | nil => simp [hlt]
    | cons word rest =>
      simp only [bind_ok, guard_ok, pure_ok, List.length_take, List.length_drop, List.drop_drop]
      constructor
      · rintro ⟨head, hhead, hsize, hbody, tail, htail, rfl⟩
        refine .inr ⟨word, rest, head, tail, hlt, rfl, hhead, hsize, by omega, ?_, rfl⟩
        rw [← htail]
        congr 1
        simp only [RecordHead.record]
        omega
      · rintro (⟨hle, -⟩ | ⟨_, _, head, tail, -, ⟨rfl, rfl⟩, hhead, hsize, hbody, htail, rfl⟩)
        · omega
        · refine ⟨head, hhead, hsize, by omega, tail, ?_, rfl⟩
          rw [← htail]
          congr 1
          simp only [RecordHead.record]
          omega
  · rw [if_neg hlt, Except.ok.injEq]
    constructor
    · exact fun h => .inl ⟨by omega, h.symm⟩
    · rintro (⟨-, rfl⟩ | ⟨_, _, _, _, hlt', -⟩)
      · rfl
      · exact absurd hlt' hlt

/-- A record takes at least one word, so their number is bounded by the limit. -/
theorem length_readRecords (h : readRecords limit offset words = .ok records) :
    4 * records.length ≤ limit + 3 - offset := by
  induction records generalizing offset words with
  | nil => exact Nat.zero_le _
  | cons record records ih =>
    rcases readRecords_ok.1 h with ⟨-, h⟩ | ⟨_, _, head, tail, hlt, -, -, hsize, -, htail, hrec⟩
    · exact absurd h (List.cons_ne_nil _ _)
    · cases hrec
      have := ih htail
      rw [List.length_cons]
      omega

/-- What holds of every record that can be made of header words and fields holds of all that are read. -/
theorem forall_of_readRecords {P : Record → Prop}
    (hP : ∀ {offset word rest head fields}, readHead offset word rest = .ok head →
      fields.length < head.size → P (head.record offset fields))
    (h : readRecords limit offset words = .ok records) : ∀ record ∈ records, P record := by
  induction records generalizing offset words with
  | nil => exact fun _ hr => absurd hr List.not_mem_nil
  | cons first records ih =>
    rcases readRecords_ok.1 h with ⟨-, h⟩ | ⟨_, _, head, tail, -, -, hhead, hsize, -, htail, hrec⟩
    · exact absurd h (List.cons_ne_nil _ _)
    · cases hrec
      intro record hr
      rcases List.mem_cons.1 hr with rfl | hr
      · refine hP hhead ?_
        rw [List.length_take]
        omega
      · exact ih htail record hr

/-- An identity hash has twelve bits. -/
theorem hash_lt_of_readRecords (h : readRecords limit offset words = .ok records)
    {record : Record} (hr : record ∈ records) : record.hash.toNat < 4096 := by
  refine forall_of_readRecords (P := fun record => record.hash.toNat < 4096) ?_ h record hr
  intro _ _ _ head _ _ _
  have hle : (head.base >>> 17 &&& 4095).toNat ≤ 4095 := by
    rw [UInt32.toNat_and]
    exact Nat.and_le_right
  simp only [RecordHead.record, UInt32.toNat_toUInt16]
  omega

/-- A size has thirty bits. -/
theorem size_lt_of_readHead {word : UInt32} {rest : List UInt32} {head : RecordHead}
    (h : readHead offset word rest = .ok head) : head.size < 0x40000000 := by
  have hshort : ∀ base : UInt32, (base >>> 2 &&& 63).toNat < 0x40000000 := fun base => by
    rw [UInt32.toNat_and]
    exact Nat.and_le_right.trans_lt (by decide)
  unfold readHead at h
  split at h
  · cases h
    have hlt := word.toNat_lt
    have hshift : (word >>> 2).toNat = word.toNat / 4 := by
      rw [UInt32.toNat_shiftRight, Nat.shiftRight_eq_div_pow]
      rfl
    simp only [hshift]
    omega
  · cases h
  · cases h
    exact hshort _
  · cases h
  · cases h
  · dsimp only at h
    split at h
    · cases h
    · cases h
      exact hshort _

/-- So has the number of fields. -/
theorem length_lt_of_readRecords (h : readRecords limit offset words = .ok records)
    {record : Record} (hr : record ∈ records) : record.words.length < 0x40000000 := by
  refine forall_of_readRecords (P := fun record => record.words.length < 0x40000000) ?_ h record hr
  intro _ _ _ _ _ hhead hfields
  exact hfields.trans (size_lt_of_readHead hhead)

/-! ### Registering the records -/

/-- The reference to the object of the record at position `i`. -/
def entry (i : Nat) : Value := .ref (UInt32.ofNat i) 0

theorem entry_inj {i j : Nat} (hi : i < 0x100000000) (hj : j < 0x100000000) :
    entry i = entry j ↔ i = j := by
  constructor
  · intro h
    rw [entry, entry, Value.ref.injEq, ← UInt32.toNat_inj, UInt32.toNat_ofNat_of_lt' hi,
      UInt32.toNat_ofNat_of_lt' hj] at h
    exact h.1
  · exact fun h => h ▸ rfl

/-- A memory into which objects were put but none was ever removed: the slots are in use in their
first generation, and the table lists them in order. Its capacity is what it started with, unless the
first step of growth fits a word. -/
structure Rowed (n : Nat) (m : Memory) : Prop where
  free : m.free = []
  pins : m.pins = #[]
  slots : m.slots.size = n
  used : ∀ slot ∈ m.slots, slot.generation = 0 ∧ slot.object.isSome = true
  table : m.table.toList = (List.range n).map entry
  capped : m.capacity ≤ m.settings.maximum
  grown : m.capacity = m.settings.start ∨
    m.settings.StepFits ∧ min m.settings.growth m.settings.maximum ≤ m.capacity
  entered : n ≤ m.settings.start ∨ m.settings.StepFits

namespace Rowed

variable {n : Nat} {m : Memory}

theorem empty (settings : TableSettings) : Rowed 0 (Memory.empty settings) where
  free := rfl
  pins := rfl
  slots := rfl
  used _ h := absurd h (Array.not_mem_empty _)
  table := rfl
  capped := Nat.min_le_right ..
  grown := .inl rfl
  entered := .inl (Nat.zero_le _)

theorem size_table (h : Rowed n m) : m.table.size = n := by
  rw [← Array.length_toList, h.table, List.length_map, List.length_range]

/-- A table that is readied for an object has not grown, or its first step of growth fits. -/
theorem readied (h : Rowed n m) (hfits : m.isFull = true → m.GrowthFits) :
    Rowed n m.readied ∧ (n < m.settings.start ∨ m.settings.StepFits) := by
  rw [Memory.readied]
  split
  · rename_i hfull
    have hstep : m.settings.StepFits := by
      have hgrowth : m.capacity + m.settings.growth < 0x10000000000000000 := hfits hfull
      rcases h.grown with hstart | ⟨hstep, -⟩
      · rwa [hstart] at hgrowth
      · exact hstep
    refine ⟨{ h with capped := Nat.min_le_right .., grown := .inr ⟨hstep, ?_⟩ }, .inr hstep⟩
    change min m.settings.growth m.settings.maximum ≤ min (m.capacity + m.settings.growth) m.settings.maximum
    omega
  · rename_i hfull
    have hroom : n < m.capacity := by simpa [Memory.isFull, h.size_table] using hfull
    exact ⟨h, h.grown.imp (fun hstart => hroom.trans_eq hstart) And.left⟩

theorem place (h : Rowed n m) (o : Object) (hroom : n < m.settings.start ∨ m.settings.StepFits) :
    (m.place o).1 = entry n ∧ Rowed (n + 1) (m.place o).2 := by
  have hplace : m.place o = (entry n, { m with
      slots := m.slots.push { generation := 0, object := some o }
      table := m.table.push (entry n) }) := by
    simp only [Memory.place, h.free, h.slots]
    rfl
  rw [hplace]
  refine ⟨rfl, { h with slots := ?_, used := ?_, table := ?_, entered := hroom }⟩
  · rw [Array.size_push, h.slots]
  · intro slot hslot
    rcases Array.mem_push.1 hslot with hslot | rfl
    · exact h.used slot hslot
    · exact ⟨rfl, rfl⟩
  · rw [Array.toList_push, h.table, List.range_succ, List.map_append, List.map_singleton]

/-- Why no object can be registered in a row of `n`. -/
inductive Blocked (settings : TableSettings) (n : Nat) : Fault → Prop
  /-- The maximum is reached. -/
  | full (h : settings.maximum ≤ n) : Blocked settings n (.objectTableFull n)
  /-- The table would have to grow by more than a word holds. -/
  | overgrown {capacity : Nat} (h : capacity ≤ n) (below : capacity < settings.maximum)
      (grown : capacity = settings.start ∨ min settings.growth settings.maximum ≤ capacity)
      (leaves : 0x10000000000000000 ≤ capacity + settings.growth) :
      Blocked settings n (.panic (.overflow .natural64 (capacity + settings.growth)))

/-- Registration adds an object at the end, unless something stands against it. -/
theorem registerHashed (h : Rowed n m) (o : Object) :
    (∃ e, Blocked m.settings n e ∧ Memory.registerHashed o m = .error e m) ∨
    ∃ m', Memory.registerHashed o m = .ok (entry n) m' ∧ Rowed (n + 1) m' ∧
      m'.settings = m.settings := by
  have hsize := h.size_table
  have hrun := Memory.registerHashed_eq o m
  by_cases hfull : (m.isFull && !m.canGrow) = true
  · rw [if_pos hfull, hsize] at hrun
    simp only [Memory.isFull, Memory.canGrow, Bool.and_eq_true, decide_eq_true_eq,
      Bool.not_eq_true', decide_eq_false_iff_not] at hfull
    exact .inl ⟨_, .full (by omega), hrun⟩
  · rw [if_neg hfull] at hrun
    by_cases hpanic : m.isFull = true ∧ ¬ m.GrowthFits
    · rw [if_pos hpanic] at hrun
      have hcapacity : m.capacity ≤ m.table.size := of_decide_eq_true hpanic.1
      have hbelow : m.capacity < m.settings.maximum := by
        simpa [hpanic.1, Memory.canGrow] using hfull
      exact .inl ⟨_, .overgrown (hsize ▸ hcapacity) hbelow (h.grown.imp_right And.right)
        (Nat.le_of_not_lt hpanic.2), hrun⟩
    · rw [if_neg hpanic] at hrun
      obtain ⟨hready, hroom⟩ := h.readied fun hfull => not_not.1 fun hfits => hpanic ⟨hfull, hfits⟩
      have hsettings : m.readied.settings = m.settings := by rw [Memory.readied_frame]
      rw [← hsettings] at hroom
      obtain ⟨hentry, hplaced⟩ := hready.place o hroom
      rw [hentry] at hrun
      refine .inr ⟨_, hrun, hplaced, hsettings ▸ ?_⟩
      rw [Memory.place]
      split <;> rfl

theorem reserveNext (h : Rowed n m) (values : Array Value) (record : Record) :
    (∃ e, Blocked m.settings n e ∧ Image.reserveNext values record m = .error e m) ∨
    ∃ m', Image.reserveNext values record m = .ok (values.push (entry n)) m' ∧ Rowed (n + 1) m' ∧
      m'.settings = m.settings := by
  rcases h.registerHashed { Object.ofPointers (.small 0) .empty #[] with hash := record.hash } with
    ⟨e, hblocked, hrun⟩ | ⟨m', hrun, hm', hsettings⟩
  · exact .inl ⟨e, hblocked, by simp only [Image.reserveNext, bind, EStateM.bind, hrun]⟩
  · refine .inr ⟨m', ?_, hm', hsettings⟩
    simp only [Image.reserveNext, bind, EStateM.bind, hrun]
    rfl

/-- Reserving gives every record the next entry, unless something stands against one of them. -/
theorem reserve (h : Rowed n m) (values : Array Value) (hvalues : values = m.table)
    (records : List Record) :
    (∃ k < n + records.length, ∃ e m', Blocked m.settings k e ∧
      records.foldlM Image.reserveNext values m = .error e m') ∨
    ∃ m', records.foldlM Image.reserveNext values m = .ok m'.table m' ∧
      Rowed (n + records.length) m' ∧ m'.settings = m.settings := by
  induction records generalizing n m values with
  | nil =>
    subst hvalues
    exact .inr ⟨m, rfl, h, rfl⟩
  | cons record records ih =>
    rw [List.foldlM_cons, List.length_cons]
    rcases h.reserveNext values record with ⟨e, hblocked, hrun⟩ | ⟨m', hrun, hm', hsettings⟩
    · exact .inl ⟨n, by omega, e, m, hblocked, by simp only [bind, EStateM.bind, hrun]⟩
    · have hpush : values.push (entry n) = m'.table := by
        rw [← Array.toList_inj, Array.toList_push, hvalues, h.table, hm'.table, List.range_succ,
          List.map_append, List.map_singleton]
      have hnext : (Image.reserveNext values record >>= fun values =>
          records.foldlM Image.reserveNext values) m =
          records.foldlM Image.reserveNext (values.push (entry n)) m' := by
        simp only [bind, EStateM.bind, hrun]
      rw [hnext, show n + (records.length + 1) = n + 1 + records.length by omega, ← hsettings]
      exact ih hm' _ hpush

/-- The live references are the entries. -/
theorem isLive_iff (h : Rowed n m) (hn : n ≤ 0x100000000) {v : Value} :
    m.isLive v = true ↔ ∃ i < n, v = entry i := by
  constructor
  · intro hv
    obtain ⟨o, ho⟩ := Memory.isLive_iff.1 hv
    obtain ⟨index, generation, slot, rfl, hs, hg, -⟩ := Memory.get?_eq_some.1 ho
    obtain ⟨hi, hslot⟩ := Array.getElem?_eq_some_iff.1 hs
    refine ⟨index.toNat, h.slots ▸ hi, ?_⟩
    have hzero : generation = 0 := by
      apply BitVec.eq_of_toNat_eq
      rw [← hg, (h.used slot (Array.mem_of_getElem? hs)).1]
      rfl
    rw [entry, hzero, UInt32.ofNat_toNat]
  · rintro ⟨i, hi, rfl⟩
    have hslots : i < m.slots.size := h.slots ▸ hi
    obtain ⟨hg, ho⟩ := h.used m.slots[i] (Array.getElem_mem hslots)
    have hindex : (UInt32.ofNat i).toNat = i := UInt32.toNat_ofNat_of_lt' (by
      show i < 0x100000000
      omega)
    obtain ⟨o, ho⟩ := Option.isSome_iff_exists.1 ho
    refine Memory.isLive_of_get? (o := o) (Memory.get?_eq_some.2 ⟨_, _, m.slots[i], rfl, ?_, ?_, ho⟩)
    · rw [hindex, Array.getElem?_eq_getElem hslots]
    · rw [hg]
      rfl

theorem getElem?_table (h : Rowed n m) {i : Nat} {v : Value} :
    m.table[i]? = some v ↔ i < n ∧ v = entry i := by
  rw [← Array.getElem?_toList, h.table, List.getElem?_map, Option.map_eq_some_iff]
  constructor
  · rintro ⟨j, hj, rfl⟩
    obtain ⟨hi, rfl⟩ := List.getElem?_eq_some_iff.1 hj
    rw [List.length_range] at hi
    rw [List.getElem_range]
    exact ⟨hi, rfl⟩
  · rintro ⟨hi, rfl⟩
    exact ⟨i, List.getElem?_range hi, rfl⟩

theorem tabled (h : Rowed n m) (hn : n ≤ 0x100000000) : m.Tabled where
  listed v := by
    rw [h.isLive_iff hn, Array.mem_iff_getElem?]
    simp only [h.getElem?_table]
  once := by
    rw [h.table]
    refine List.Nodup.map_on (fun i hi j hj e => ?_) List.nodup_range
    rw [List.mem_range] at hi hj
    exact (entry_inj (by omega) (by omega)).1 e

theorem modify (h : Rowed n m) (v : Value) (f : Object → Object) : Rowed n (m.modify v f) := by
  cases v with
  | small k => exact h
  | ref index generation =>
    simp only [Memory.modify]
    split
    · refine { h with slots := ?_, used := ?_ }
      · simp [Memory.modifyAt, h.slots]
      · intro slot hslot
        obtain ⟨i, hi⟩ := Array.mem_iff_getElem?.1 hslot
        simp only [Memory.modifyAt, Array.getElem?_modify] at hi
        split at hi
        · obtain ⟨slot', hs, rfl⟩ := Option.map_eq_some_iff.1 hi
          obtain ⟨hg, ho⟩ := h.used slot' (Array.mem_of_getElem? hs)
          exact ⟨hg, by rw [Option.isSome_map, ho]⟩
        · exact h.used slot (Array.mem_of_getElem? hi)
    · exact h

end Rowed

/-- What becomes of the records: there is no entry for one of them, or one for each. -/
theorem reserve_cases (records : List Record) (settings : TableSettings) :
    (∃ n < records.length, ∃ e m', Rowed.Blocked settings n e ∧
      reserve records (Memory.empty settings) = .error e m') ∨
    ∃ m', reserve records (Memory.empty settings) = .ok m'.table m' ∧ Rowed records.length m' ∧
      m'.settings = settings := by
  have h := (Rowed.empty settings).reserve #[] rfl records
  rwa [Nat.zero_add] at h

/-- Up to the maximum there is an entry for each record, unless the table is outgrown. -/
theorem reserve_exact {records : List Record} (settings : TableSettings)
    (hsize : records.length ≤ settings.maximum) (hlength : records.length ≤ 0x100000000) :
    (settings.Outgrown records.length ∧ ∃ m', reserve records (Memory.empty settings) =
      .error (.panic (.overflow .natural64 (settings.initial + settings.growth))) m') ∨
    ¬ settings.Outgrown records.length ∧
      ∃ m', reserve records (Memory.empty settings) = .ok m'.table m' ∧ Rowed records.length m' := by
  rcases reserve_cases records settings with ⟨n, hn, e, m', hblocked, hreserve⟩ | ⟨m', hreserve, hrow, hsettings⟩
  · cases hblocked with
    | full hfull => omega
    | @overgrown capacity hcapacity hbelow hgrown hleaves =>
      simp only [TableSettings.start] at hgrown
      obtain rfl : capacity = settings.initial := by omega
      exact .inl ⟨⟨by omega, hleaves⟩, m', hreserve⟩
  · refine .inr ⟨fun ⟨hinitial, hleaves⟩ => ?_, m', hreserve, hrow⟩
    have hentered := hrow.entered
    simp only [hsettings, TableSettings.StepFits, TableSettings.start] at hentered
    omega

/-! ### Resolving addresses -/

variable {base address : UInt32}

theorem getElem?_enterAddress (map : Std.HashMap UInt32 Nat) (p : Record × Nat) :
    (enterAddress base map p)[address]? =
      if p.1.address base = address then some p.2 else map[address]? := by
  rw [enterAddress, Std.HashMap.getElem?_insert]
  simp only [beq_iff_eq]

/-- What the fold has entered came from one of the numbered records. -/
theorem mem_of_foldl_enterAddress {pairs : List (Record × Nat)} {map : Std.HashMap UInt32 Nat}
    {i : Nat} (h : (pairs.foldl (enterAddress base) map)[address]? = some i) :
    map[address]? = some i ∨ ∃ p ∈ pairs, p.1.address base = address ∧ p.2 = i := by
  induction pairs generalizing map with
  | nil => exact .inl h
  | cons p pairs ih =>
    rcases ih h with h | ⟨q, hq, hi⟩
    · rw [getElem?_enterAddress] at h
      split at h
      · exact .inr ⟨p, List.mem_cons_self, by assumption, Option.some.inj h⟩
      · exact .inl h
    · exact .inr ⟨q, List.mem_cons_of_mem _ hq, hi⟩

/-- What an address leads to is a record that stood there. -/
theorem address_of_addresses {i : Nat} (h : (addresses base records)[address]? = some i) :
    ∃ record, records[i]? = some record ∧ record.address base = address := by
  rcases mem_of_foldl_enterAddress h with h | ⟨p, hp, haddress, rfl⟩
  · rw [Std.HashMap.getElem?_empty] at h
    exact absurd h (Option.some_ne_none i).symm
  · exact ⟨p.1, List.mem_zipIdx_iff_getElem?.1 hp, haddress⟩

variable {r : Resolver}

theorem Resolver.index_ok {i : Nat} : r.index address = .ok i ↔ r.addresses[address]? = some i := by
  rw [Resolver.index]
  cases r.addresses[address]? with
  | none => simp
  | some j => simp

theorem Resolver.value_ok {v : Value} :
    r.value address = .ok v ↔ ∃ i, r.addresses[address]? = some i ∧ r.values[i]? = some v := by
  simp only [Resolver.value, bind_ok, Resolver.index_ok]
  refine exists_congr fun i => and_congr_right fun _ => ?_
  cases r.values[i]? with
  | none => simp [throw_ne_ok]
  | some w => simp [pure_ok]

/-- A tagged word is an integer of 31 bits. -/
theorem inRange_tagged (word : UInt32) : Value.InRange (word.toBitVec.toInt >>> (1 : Nat)) := by
  have hlow := BitVec.le_toInt word.toBitVec
  have hhigh := BitVec.toInt_lt (x := word.toBitVec)
  rw [Int.shiftRight_eq_div_pow]
  constructor
  · simp only [Value.smallMin]
    omega
  · simp only [Value.smallMax]
    omega

theorem Resolver.pointers_ok {words : List UInt32} {values : Array Value} :
    r.pointers words = .ok values ↔
      List.Forall₂ (fun word v => r.pointer word = .ok v) words values.toList := by
  simp only [Resolver.pointers, bind_ok, mapM_ok, pure_ok]
  constructor
  · rintro ⟨vs, hvs, rfl⟩
    exact hvs
  · exact fun h => ⟨values.toList, h, values.toArray_toList⟩

/-- The bits of a word from `low` on, as many as a mask of `width` ones leaves. -/
theorem toNat_bits (word shift mask : UInt32) (low width : Nat) (hshift : shift.toNat % 32 = low)
    (hmask : mask.toNat = 2 ^ width - 1) :
    (word >>> shift &&& mask).toNat = word.toNat / 2 ^ low % 2 ^ width := by
  rw [UInt32.toNat_and, UInt32.toNat_shiftRight, hshift, hmask, Nat.and_two_pow_sub_one_eq_mod,
    Nat.shiftRight_eq_div_pow]

/-- The literal count of a tagged header word, read before or after the tag is taken off. -/
theorem literalCount_tagged (word : UInt32) :
    (MethodHeader.mk (word.toBitVec.toInt >>> (1 : Nat))).literalCount =
      (word >>> 10 &&& 255).toNat := by
  have hint := BitVec.toInt_eq_toNat_cond word.toBitVec
  rw [UInt32.toNat_toBitVec] at hint
  have hlt := word.toNat_lt
  rw [toNat_bits word 10 255 10 8 rfl rfl, MethodHeader.literalCount, MethodHeader.bits]
  simp only [Int.shiftRight_eq_div_pow]
  change (word.toBitVec.toInt / 2 / 512 % 256).toNat = word.toNat / 1024 % 256
  split at hint
  · omega
  · omega

/-! ### Decoding a record -/

/-- Where the contents of an object stand, by its format: pointer fields only, raw words or, if it may
be one, a float of two words, raw bytes, or a header and literals before raw bytes. -/
def Shaped (record : Record) (mayBeFloat : Prop) (o : Object) : Prop :=
  match o.format with
  | .words => o.pointers = #[] ∧ (o.body = .words record.words.toArray ∨
      mayBeFloat ∧ ∃ high low, record.words = [high, low] ∧
        o.body = .float (high.toUInt64 <<< 32 ||| low.toUInt64))
  | .bytes => o.pointers = #[] ∧
      o.body = .bytes (decodeBytes record.words (record.formatCode % 4))
  | .method => 0 < o.pointers.size ∧ o.pointers.size ≤ record.words.length ∧
      o.body = .bytes (decodeBytes (record.words.drop o.pointers.size) (record.formatCode % 4))
  | _ => o.pointers.size = record.words.length ∧ o.body = .none

/-- A method has a header and as many literals as the header counts. -/
def Measured (o : Object) : Prop :=
  o.format = .method → ∀ n, o.pointers[0]? = some (.small n) →
    o.pointers.size = (MethodHeader.mk n).literalCount + 1

variable {record : Record} {cls : Value} {isFloat : Bool} {o : Object}

theorem Resolver.size_pointers {words : List UInt32} {values : Array Value}
    (h : r.pointers words = .ok values) : values.size = words.length := by
  rw [← Array.length_toList]
  exact (Resolver.pointers_ok.1 h).length_eq.symm

/-- Every pointer field comes from the word in its place. -/
theorem Resolver.pointer_of_getElem? {words : List UInt32} {values : Array Value}
    (h : r.pointers words = .ok values) {i : Nat} {v : Value} (hv : values[i]? = some v) :
    ∃ word, words[i]? = some word ∧ r.pointer word = .ok v := by
  obtain ⟨hlength, hget⟩ := List.forall₂_iff_get.1 (Resolver.pointers_ok.1 h)
  rw [← Array.getElem?_toList] at hv
  obtain ⟨hi, rfl⟩ := List.getElem?_eq_some_iff.1 hv
  have hi' : i < words.length := hlength ▸ hi
  exact ⟨words[i], List.getElem?_eq_getElem hi', hget i hi' hi⟩

theorem Resolver.pointer_of_mem {words : List UInt32} {values : Array Value}
    (h : r.pointers words = .ok values) {v : Value} (hv : v ∈ values) :
    ∃ word, r.pointer word = .ok v := by
  obtain ⟨i, hi⟩ := Array.mem_iff_getElem?.1 hv
  obtain ⟨word, -, hword⟩ := Resolver.pointer_of_getElem? h hi
  exact ⟨word, hword⟩

/-- Only a tagged word stands for an integer, as long as all records have references. -/
theorem Resolver.pointer_small (hrefs : ∀ v ∈ r.values, v.isReference = true) {word : UInt32}
    {n : Int} (h : r.pointer word = .ok (.small n)) : n = word.toBitVec.toInt >>> (1 : Nat) := by
  rw [Resolver.pointer] at h
  split at h
  · exact ((Value.small.injEq ..).mp (Except.ok.inj h)).symm
  · obtain ⟨i, -, hi⟩ := Resolver.value_ok.1 h
    exact absurd (hrefs _ (Array.mem_of_getElem? hi)) Bool.false_ne_true

/-- What is known of the contents of a record of class `cls`. -/
structure Decoded (r : Resolver) (record : Record) (cls : Value) (isFloat : Bool) (o : Object) :
    Prop where
  cls : o.cls = cls
  format : Format.ofCode? record.formatCode = some o.format
  pointers : ∀ v ∈ o.pointers, ∃ word, r.pointer word = .ok v
  shaped : Shaped record (isFloat = true) o
  measured : Measured o

theorem decodeMethod_ok (hrefs : ∀ v ∈ r.values, v.isReference = true)
    (hformat : Format.ofCode? record.formatCode = some .method)
    (h : decodeMethod r record cls = .ok o) : Decoded r record cls isFloat o := by
  cases hwords : record.words with
  | nil => simp [decodeMethod, hwords] at h
  | cons header rest =>
    simp only [decodeMethod, hwords, guard_ok, bind_ok, pure_ok, not_lt] at h
    obtain ⟨hcount, pointers, hpointers, rfl⟩ := h
    have hsize := Resolver.size_pointers hpointers
    rw [List.length_take, Nat.min_eq_left hcount] at hsize
    have hshaped : Shaped record (isFloat = true) (Object.ofMethod cls pointers
        (decodeBytes ((header :: rest).drop pointers.size) (record.formatCode % 4))) := by
      simp only [Shaped, Object.ofMethod, hwords]
      exact ⟨by omega, by omega, trivial⟩
    rw [hsize] at hshaped
    refine ⟨rfl, hformat, fun v hv => Resolver.pointer_of_mem hpointers hv, hshaped, ?_⟩
    intro _ n hn
    obtain ⟨word, hword, hpointer⟩ := Resolver.pointer_of_getElem? hpointers hn
    obtain rfl : header = word := by simpa using hword
    rw [Resolver.pointer_small hrefs hpointer, literalCount_tagged]
    exact hsize

theorem decodeWords_ok (hformat : Format.ofCode? record.formatCode = some .words) :
    Decoded r record cls isFloat (decodeWords record cls isFloat) := by
  unfold decodeWords
  split
  · exact ⟨rfl, hformat, fun v hv => absurd hv (Array.not_mem_empty v),
      ⟨rfl, .inr ⟨rfl, _, _, by assumption, rfl⟩⟩, by rintro ⟨⟩⟩
  · exact ⟨rfl, hformat, fun v hv => absurd hv (Array.not_mem_empty v), ⟨rfl, .inl rfl⟩, by rintro ⟨⟩⟩

theorem decodePointers_ok {format : Format} (hpointers : format.isPointers = true)
    (hformat : Format.ofCode? record.formatCode = some format) {values : Array Value}
    (h : r.pointers record.words = .ok values) :
    Decoded r record cls isFloat (Object.ofPointers cls format values) := by
  have hsize := Resolver.size_pointers h
  refine ⟨rfl, hformat, fun v hv => Resolver.pointer_of_mem h hv, ?_, ?_⟩
  · cases format <;> first | exact ⟨hsize, rfl⟩ | cases hpointers
  · intro hmethod
    cases hmethod
    cases hpointers

theorem decodeContents_ok (hrefs : ∀ v ∈ r.values, v.isReference = true)
    (h : decodeContents r record cls isFloat = .ok o) : Decoded r record cls isFloat o := by
  cases hformat : Format.ofCode? record.formatCode with
  | none => simp [decodeContents, hformat] at h
  | some format =>
    simp only [decodeContents, hformat] at h
    cases format with
    | method => exact decodeMethod_ok hrefs hformat h
    | bytes =>
      cases h
      exact ⟨rfl, hformat, fun v hv => absurd hv (Array.not_mem_empty v), ⟨rfl, rfl⟩, by rintro ⟨⟩⟩
    | words =>
      cases h
      exact decodeWords_ok hformat
    | _ =>
      obtain ⟨values, hvalues, h⟩ := bind_ok.1 h
      obtain rfl := pure_ok.1 h
      exact decodePointers_ok rfl hformat hvalues

theorem decodeObject_ok (hrefs : ∀ v ∈ r.values, v.isReference = true)
    (h : decodeObject r record cls isFloat = .ok o) :
    Decoded r record cls isFloat o ∧ o.hash = record.hash := by
  obtain ⟨contents, hcontents, h⟩ := bind_ok.1 h
  obtain rfl := pure_ok.1 h
  obtain ⟨hcls, hformat, hpointers, hshaped, hmeasured⟩ := decodeContents_ok hrefs hcontents
  exact ⟨⟨hcls, hformat, hpointers, hshaped, hmeasured⟩, rfl⟩

/-! ### Filling the objects in -/

/-- Every registered object ends as the object of its record. -/
theorem fill_ok {compact : List UInt32} {floatClass : UInt32} {n : Nat} {m m' : Memory}
    {pairs : List (Record × Value)} (h : fill r compact floatClass pairs m = .ok m')
    (hrow : Rowed n m) (hnodup : (pairs.map Prod.snd).Nodup)
    (hlive : ∀ p ∈ pairs, m.isLive p.2 = true) :
    Rowed n m' ∧ (∀ v, v ∉ pairs.map Prod.snd → m'.get? v = m.get? v) ∧
    ∀ p ∈ pairs, ∃ cls o, r.value (classAddress compact p.1.classRef) = .ok cls ∧
      decodeObject r p.1 cls (classAddress compact p.1.classRef = floatClass) = .ok o ∧
      m'.get? p.2 = some o := by
  induction pairs generalizing m with
  | nil =>
    cases h
    exact ⟨hrow, fun _ _ => rfl, fun p hp => absurd hp List.not_mem_nil⟩
  | cons p pairs ih =>
    obtain ⟨record, v⟩ := p
    obtain ⟨cls, hcls, h⟩ := bind_ok.1 h
    obtain ⟨o, ho, h⟩ := bind_ok.1 h
    rw [List.map_cons, List.nodup_cons] at hnodup
    have hlive' : ∀ q ∈ pairs, (m.replace v o).isLive q.2 = true := fun q hq =>
      (Memory.isLive_modify ..).trans (hlive q (List.mem_cons_of_mem _ hq))
    obtain ⟨hrow', hother, hfilled⟩ := ih h (hrow.modify v _) hnodup.2 hlive'
    refine ⟨hrow', fun w hw => ?_, fun q hq => ?_⟩
    · rw [List.map_cons, List.mem_cons, not_or] at hw
      rw [hother w hw.2, Memory.replace, Memory.get?_modify, if_neg hw.1]
    · rcases List.mem_cons.1 hq with rfl | hq
      · obtain ⟨old, hold⟩ := Memory.isLive_iff.1 (hlive (record, v) List.mem_cons_self)
        refine ⟨cls, o, hcls, ho, ?_⟩
        rw [hother v hnodup.1, Memory.replace, Memory.get?_modify, if_pos rfl, hold]
        rfl
      · exact hfilled q hq

/-- With one reserved entry for each record, entry `i` ends as the object of record `i`. -/
theorem Rowed.fill {compact : List UInt32} {floatClass : UInt32} {m m' : Memory}
    (hrow : Rowed records.length m) (hlength : records.length ≤ 0x100000000)
    (h : fill r compact floatClass (records.zip m.table.toList) m = .ok m') :
    Rowed records.length m' ∧ m'.table = m.table ∧
    ∀ (i : Nat) (record : Record), records[i]? = some record →
      ∃ cls o, r.value (classAddress compact record.classRef) = .ok cls ∧
        decodeObject r record cls (classAddress compact record.classRef = floatClass) = .ok o ∧
        m'.get? (entry i) = some o := by
  have htabled := hrow.tabled hlength
  have hsnd : ((records.zip m.table.toList).map Prod.snd).Nodup := by
    rw [← List.unzip_snd, List.unzip_zip_right (by rw [Array.length_toList, hrow.size_table])]
    exact htabled.once
  obtain ⟨hrow', -, hfilled⟩ := fill_ok h hrow hsnd fun p hp =>
    (htabled.listed p.2).1 (Array.mem_toList_iff.1 (List.of_mem_zip hp).2)
  refine ⟨hrow', by rw [← Array.toList_inj, hrow.table, hrow'.table], fun i record hi => ?_⟩
  obtain ⟨hlt, -⟩ := List.getElem?_eq_some_iff.1 hi
  have hentry : m.table.toList[i]? = some (entry i) := by
    rw [Array.getElem?_toList, hrow.getElem?_table]
    exact ⟨hlt, rfl⟩
  have hzip : (records.zip m.table.toList)[i]? = some (record, entry i) :=
    List.getElem?_zip_eq_some.2 ⟨hi, hentry⟩
  exact hfilled (record, entry i) (List.mem_of_getElem? hzip)

theorem specialWord_ok {i : Nat} {word : UInt32} :
    specialWord record i = .ok word ↔ record.words[i]? = some word := by
  rw [specialWord]
  cases record.words[i]? with
  | none => simp
  | some w => simp

theorem fillAll_ok {header : Header} {m m' : Memory} {array : Value}
    (h : fillAll r records header m = .ok (m', array)) :
    ∃ i specials compact floatClass, r.addresses[header.specialObjects]? = some i ∧
      records[i]? = some specials ∧ r.values[i]? = some array ∧
      specials.words[Special.classFloat]? = some floatClass ∧
      fill r compact floatClass (records.zip r.values.toList) m = .ok m' := by
  simp only [fillAll, bind_ok, Resolver.index_ok] at h
  obtain ⟨i, hi, h⟩ := h
  cases hspecials : records[i]? with
  | none =>
    rw [hspecials] at h
    exact absurd h throw_ne_ok
  | some specials =>
    simp only [hspecials, bind_ok, specialWord_ok, Resolver.value_ok, pure_ok, Prod.mk.injEq] at h
    obtain ⟨compact, -, floatClass, hfloat, _, hfill, _, ⟨j, hj, harray⟩, rfl, rfl⟩ := h
    rw [hi] at hj
    cases hj
    exact ⟨i, specials, compact, floatClass, hi, hspecials, harray, hfloat, hfill⟩

/-! ### What a loaded image is -/

/-- Whether `v` is the object of the record that stood at an address. -/
def Locates (records : List Record) (loaded : Loaded) (address : UInt32) (v : Value) : Prop :=
  ∃ (i : Nat) (record : Record), records[i]? = some record ∧ record.address loaded.header.baseAddress = address ∧
    loaded.memory.table[i]? = some v

/-- Whether `v` is the class that the special objects record names as that of floats. -/
def IsFloatClass (records : List Record) (loaded : Loaded) (v : Value) : Prop :=
  ∃ (i : Nat) (specials : Record) (word : UInt32), records[i]? = some specials ∧
    loaded.memory.table[i]? = some loaded.specials.array ∧
    specials.words[Special.classFloat]? = some word ∧ Locates records loaded word v

/-- What holds of the object that a record has become. -/
structure Faithful (records : List Record) (loaded : Loaded) (record : Record) (o : Object) :
    Prop where
  /-- Its class is an object. -/
  cls : loaded.memory.isLive o.cls = true
  /-- Its fields are integers that have a representation, or objects. -/
  pointers : ∀ v ∈ o.pointers,
    (∃ n, v = .small n ∧ Value.InRange n) ∨ loaded.memory.isLive v = true
  /-- Its format is that of the record. -/
  format : Format.ofCode? record.formatCode = some o.format
  /-- The format says where its contents stand. -/
  shaped : Shaped record (IsFloatClass records loaded o.cls) o
  /-- A method has the literals that its header counts. -/
  measured : Measured o
  /-- Its identity hash is that of the record and has twelve bits. -/
  hash : o.hash = record.hash ∧ o.hash.toNat < 4096

/-- What holds of an image that was loaded from some records. -/
structure Sound (records : List Record) (loaded : Loaded) : Prop where
  /-- The table is exact. -/
  tabled : loaded.memory.Tabled
  /-- There are as many objects as records. -/
  size : loaded.memory.table.size = records.length
  /-- The objects stand in the order of the records. -/
  objects : ∀ (i : Nat) (record : Record), records[i]? = some record →
    ∃ v o, loaded.memory.table[i]? = some v ∧ loaded.memory.get? v = some o ∧ Faithful records loaded record o
  /-- The special objects array is the object that the header names. -/
  array : Locates records loaded loaded.header.specialObjects loaded.specials.array
  /-- The cached objects are the first entries of the array. -/
  specials :
    loaded.memory.cell loaded.specials.array Special.nilObject = some loaded.specials.nil ∧
    loaded.memory.cell loaded.specials.array Special.falseObject =
      some loaded.specials.falseObject ∧
    loaded.memory.cell loaded.specials.array Special.trueObject = some loaded.specials.trueObject
  /-- Everything is old: a young reclamation needs no roots to keep it all. -/
  old : (loaded.memory.reclaim [] .young).1 = 0 ∧
    (loaded.memory.reclaim [] .young).2.get? = loaded.memory.get?

/-- With everything old there is nothing to sweep. -/
theorem reclaim_markOldBoundary (m : Memory) (roots : List Value) :
    (m.markOldBoundary.reclaim roots .young).1 = 0 ∧
      (m.markOldBoundary.reclaim roots .young).2.get? = m.markOldBoundary.get? := by
  have hdoomed : m.markOldBoundary.doomed roots .young = [] := by
    have hdrop : m.markOldBoundary.table.toList.drop (m.markOldBoundary.sweepStart .young) = [] :=
      List.drop_eq_nil_of_le (by simp [Memory.sweepStart, Memory.markOldBoundary])
    rw [Memory.doomed, hdrop, List.filter_nil]
  constructor
  · rw [Memory.reclaim_freed, hdoomed, List.foldl_nil]
    exact Nat.sub_self _
  · funext v
    rw [Memory.reclaim_get?, hdoomed, if_neg List.not_mem_nil]

/-- What the resolver answers is located where it was asked for. -/
theorem locates_of_value (loaded : Loaded) {v : Value}
    (h : (Resolver.mk (addresses loaded.header.baseAddress records) loaded.memory.table).value
      address = .ok v) : Locates records loaded address v := by
  obtain ⟨i, hi, hv⟩ := Resolver.value_ok.1 h
  obtain ⟨record, hrecord, haddress⟩ := address_of_addresses hi
  exact ⟨i, record, hrecord, haddress, hv⟩

/-- What an address or a tagged word stands for is an integer that has a representation or one of the
objects. -/
theorem Resolver.pointer_sound {m : Memory} (hlive : ∀ v ∈ r.values, m.isLive v = true)
    {word : UInt32} {v : Value} (h : r.pointer word = .ok v) :
    (∃ n, v = .small n ∧ Value.InRange n) ∨ m.isLive v = true := by
  rw [Resolver.pointer] at h
  split at h
  · exact .inl ⟨_, (Except.ok.inj h).symm, inRange_tagged word⟩
  · obtain ⟨i, -, hi⟩ := Resolver.value_ok.1 h
    exact .inr (hlive v (Array.mem_of_getElem? hi))

/-- The shape allows a float only where the class allows it. -/
theorem Shaped.imp {p q : Prop} (hpq : p → q) (h : Shaped record p o) : Shaped record q o := by
  cases o with
  | mk cls format hash pointers body =>
    cases format with
    | words => exact ⟨h.1, h.2.imp_right fun hf => ⟨hpq hf.1, hf.2⟩⟩
    | _ => exact h

/-- Once the records are resolved and the objects filled in, the image is sound. -/
theorem sound_of_fillAll {header : Header} {m m' : Memory} {array : Value}
    {specials : SpecialObjects} (hrow : Rowed records.length m)
    (hlength : records.length ≤ 0x100000000) (hhash : ∀ record ∈ records, record.hash.toNat < 4096)
    (hfill : fillAll ⟨addresses header.baseAddress records, m.table⟩ records header m =
      .ok (m', array)) (hload : SpecialObjects.load m' array = .ok specials) :
    Sound records
      { memory := (m'.setHashSeed header.lastHash).markOldBoundary, specials, header } := by
  obtain ⟨s, special, compact, floatClass, hs, hspecial, hvalue, hfloat, hfill⟩ := fillAll_ok hfill
  obtain ⟨harray, hnil, hfalse, htrue⟩ := Machine.load_ok hload
  obtain ⟨hrow', htable, hfilled⟩ := hrow.fill hlength hfill
  have htabled := hrow'.tabled hlength
  rw [← htable] at hvalue hfilled
  have hlive : ∀ v ∈ m'.table, m'.isLive v = true := fun v hv => (htabled.listed v).1 hv
  have hrefs : ∀ v ∈ m'.table, v.isReference = true := fun v hv =>
    Memory.isReference_of_isLive (hlive v hv)
  -- the seed and the boundary are no part of what is looked up
  let loaded : Loaded :=
    { memory := (m'.setHashSeed header.lastHash).markOldBoundary, specials, header }
  have hget : loaded.memory.get? = m'.get? := Memory.get?_congr rfl
  have hisLive : loaded.memory.isLive = m'.isLive := Memory.isLive_congr hget
  have hcell : ∀ i, loaded.memory.cell array i = m'.cell array i := fun i => by
    rw [Memory.cell, Memory.cell, hget]
  refine ⟨⟨fun v => ?_, htabled.once⟩, hrow'.size_table, fun i record hi => ?_, ?_, ?_,
    reclaim_markOldBoundary _ []⟩
  · rw [hisLive]
    exact htabled.listed v
  · obtain ⟨hlt, -⟩ := List.getElem?_eq_some_iff.1 hi
    obtain ⟨cls, o, hcls, ho, hentry⟩ := hfilled i record hi
    obtain ⟨hdecoded, hash⟩ := decodeObject_ok hrefs ho
    refine ⟨entry i, o, hrow'.getElem?_table.2 ⟨hlt, rfl⟩, by rw [hget, hentry], ?_⟩
    refine ⟨?_, fun v hv => ?_, hdecoded.format, ?_, hdecoded.measured, hash, ?_⟩
    · obtain ⟨j, -, hj⟩ := Resolver.value_ok.1 hcls
      rw [hisLive, hdecoded.cls]
      exact hlive cls (Array.mem_of_getElem? hj)
    · obtain ⟨word, hword⟩ := hdecoded.pointers v hv
      rw [hisLive]
      exact Resolver.pointer_sound hlive hword
    · refine hdecoded.shaped.imp fun hfloatClass => ?_
      rw [decide_eq_true_eq] at hfloatClass
      rw [hfloatClass, ← hdecoded.cls] at hcls
      exact ⟨s, special, floatClass, hspecial, by rw [harray]; exact hvalue, hfloat,
        locates_of_value loaded hcls⟩
    · rw [hash]
      exact hhash record (List.mem_of_getElem? hi)
  · have h : (Resolver.mk (addresses header.baseAddress records) m'.table).value
        header.specialObjects = .ok specials.array :=
      Resolver.value_ok.2 ⟨s, hs, by rw [harray]; exact hvalue⟩
    exact locates_of_value loaded h
  · rw [harray]
    exact ⟨(hcell _).trans hnil, (hcell _).trans hfalse, (hcell _).trans htrue⟩

/-- Whatever the stream, the objects that are made of its records are sound. -/
theorem sound_of_install {bytes : List UInt8} {header : Header} {settings : TableSettings} {loaded : Loaded}
    (hstream : readStream bytes = .ok (header, records)) (h : install records header settings = .ok loaded) :
    loaded.header = header ∧ Sound records loaded := by
  obtain ⟨⟨order, rest⟩, -, hread⟩ := bind_ok.1 hstream
  obtain ⟨⟨header', body⟩, hheader, hread⟩ := bind_ok.1 hread
  obtain ⟨records', hrecords, hread⟩ := bind_ok.1 hread
  cases pure_ok.1 hread
  have hlength := length_readRecords hrecords
  have hlimit := header.endOfMemory.toNat_lt
  rcases reserve_cases records settings with ⟨-, -, e, m, -, hreserve⟩ | ⟨m, hreserve, hrow, -⟩
  · simp only [install, hreserve] at h
    exact absurd h throw_ne_ok
  · simp only [install, hreserve, bind_ok, mapError_ok, pure_ok] at h
    obtain ⟨⟨m', array⟩, hfill, specials, hload, rfl⟩ := h
    exact ⟨rfl, sound_of_fillAll hrow (by omega)
      (fun record hr => hash_lt_of_readRecords hrecords hr) hfill hload⟩

/-- Whatever the stream and the settings, an image that loads is sound. -/
theorem load_sound {bytes : List UInt8} {settings : TableSettings} {loaded : Loaded}
    (h : load bytes settings = .ok loaded) :
    ∃ records, readStream bytes = .ok (loaded.header, records) ∧ Sound records loaded := by
  obtain ⟨⟨header, records⟩, hstream, h⟩ := bind_ok.1 h
  rw [mapError_ok] at hstream
  obtain ⟨rfl, hsound⟩ := sound_of_install hstream h
  exact ⟨records, hstream, hsound⟩

/-- An array that is its own table of compact classes, the class of floats, a float and a method. -/
def gallery : List UInt8 :=
  let words : List UInt32 :=
    [6502, 64, 176, 32, 40, 1, 2, 0, 0, 0, 0, 0, 0, 0, 0, 0] ++
    [128, 40, 0x000E0200, 172] ++ List.replicate 8 40 ++ [172] ++ List.replicate 21 40 ++
    [41, 0x00020005] ++
    [0x0004160F, 0x40091EB8, 0x51EB851F] ++
    [41, 0x00060D11, 1025, 40, 0x7C000000]
  words.flatMap bytesOfWord

theorem isOk_load_gallery : (load gallery {}).isOk = true := by cbv

theorem load_sound_gallery : ∃ loaded records, load gallery {} = .ok loaded ∧
    readStream gallery = .ok (loaded.header, records) ∧ Sound records loaded := by
  cases h : load gallery {} with
  | error e =>
    have hok := isOk_load_gallery
    rw [h] at hok
    exact absurd hok Bool.false_ne_true
  | ok loaded =>
    obtain ⟨records, hstream, hsound⟩ := load_sound h
    exact ⟨loaded, records, rfl, hstream, hsound⟩

end Image

end Smalltalk
