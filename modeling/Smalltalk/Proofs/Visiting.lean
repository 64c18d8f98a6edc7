import Smalltalk.Proofs.Bookkeeping
import Smalltalk.Proofs.Chains
import Smalltalk.Proofs.Trials

/-!
# Visiting every object

The queries that walk over the objects keep no place of their own. Each is given the object that the
last one answered, and looks up its position in the table, first where the last query of any kind has
ended. That gives the right place because the table lists every live reference once and nothing else.
So a walk visits what the table lists, in the order of registration, wherever other queries have left
the hint between two of its steps.
-/

namespace Smalltalk.Memory

variable {m m' : Memory} {v w : Value} {o : Object} {settings : TableSettings} {issued : List Value}
  {cls : Option Value} {start count : Nat}

/-! ### The order of registration -/

/-- The reference that a registration answers, if it succeeds. -/
def answered (attempt : Change Value) (m : Memory) : List Value :=
  match attempt m with
  | .ok v _ => [v]
  | .error .. => []

/-- The references to new objects that an operation answers. -/
def Operation.answers : Operation → Memory → List Value
  | .register o => answered (Memory.register o)
  | .registerHashed o => answered (Memory.registerHashed o)
  | _ => fun _ => []

/-- The memories that operations and changes of single objects lead to from the empty memory, each
with all references that registrations have answered on the way. -/
inductive Reached (settings : TableSettings) : List Value → Memory → Prop where
  | empty : Reached settings [] (empty settings)
  | perform {issued : List Value} {m : Memory} (n : Nat) (op : Operation)
      (h : Reached settings issued m) :
      Reached settings (issued ++ op.answers m) (op.perform (n, m)).2
  | modify {issued : List Value} {m : Memory} (v : Value) (f : Object → Object)
      (h : Reached settings issued m) : Reached settings issued (m.modify v f)

/-- The references that the registrations of a run answer. -/
def answersOf : List Operation → Account → List Value
  | [], _ => []
  | op :: ops, s => op.answers s.2 ++ answersOf ops (op.perform s)

theorem Reached.foldl_perform {s : Account} (h : Reached settings issued s.2)
    (ops : List Operation) : Reached settings (issued ++ answersOf ops s)
      (ops.foldl (fun s op => op.perform s) s).2 := by
  induction ops generalizing s issued with
  | nil => rwa [answersOf, List.append_nil]
  | cons op ops ih =>
    rw [answersOf, ← List.append_assoc]
    exact ih (h.perform s.1 op)

theorem reached_account (settings : TableSettings) (ops : List Operation) :
    Reached settings (answersOf ops (0, empty settings)) (account settings ops).2 :=
  Reached.foldl_perform (s := (0, empty settings)) .empty ops

/-- The table lists what has been issued and is live, in the order it was issued. -/
structure Ledger (issued : List Value) (m : Memory) : Prop extends WellFormed m where
  given : ∀ v ∈ issued, m.Issued v
  order : m.table.toList = issued.filter m.isLive

namespace Ledger

/-- Whatever leaves the slots, the free list and the table alone keeps the order. -/
theorem alike (h : Ledger issued m) (hslots : m'.slots = m.slots) (hfree : m'.free = m.free)
    (htable : m'.table = m.table) : Ledger issued m' where
  listed v := by rw [htable, isLive_congr (get?_congr hslots)]; exact h.listed v
  once := by rw [htable]; exact h.once
  toStocked := h.toStocked.of_slots hslots hfree
  given v hv := (Later.of_slots hslots).issued (h.given v hv)
  order := by rw [htable, isLive_congr (get?_congr hslots)]; exact h.order

/-- So does what changes objects in place. -/
theorem in_place (h : Ledger issued m) (hwell : m'.WellFormed) (hlater : Later m m')
    (htable : m'.table = m.table) (hlive : m'.isLive = m.isLive) : Ledger issued m' where
  toWellFormed := hwell
  given v hv := hlater.issued (h.given v hv)
  order := by rw [htable, hlive]; exact h.order

theorem modify (h : Ledger issued m) (v : Value) (f : Object → Object) :
    Ledger issued (m.modify v f) := by
  refine h.in_place (Machine.wellFormed_modify h.toWellFormed v f) (later_modify m v f)
    (by rw [modify_frame]) ?_
  funext w
  rw [isLive, get?_modify]
  split
  · rename_i hw
    rw [Option.isSome_map, hw, isLive]
  · rfl

theorem rename (h : Ledger issued m) (r : Renaming) : Ledger issued (m.rename r) := by
  have hlive : (m.rename r).isLive = m.isLive := by
    funext w
    rw [isLive, Machine.get?_rename, Option.isSome_map, isLive]
  refine h.in_place ⟨⟨fun v => ?_, h.once⟩, h.toStocked.rename r⟩ (later_rename m r) rfl hlive
  rw [hlive]
  exact h.listed v

/-- A new object is issued last, and listed last. -/
theorem place (h : Ledger issued m) (room : (m.place o).2.Addressable) :
    Ledger (issued ++ [(m.place o).1]) (m.place o).2 := by
  have hplaceable := h.placeable room
  have hnew : (m.place o).2.isLive (m.place o).1 = true := by
    rw [isLive, Memory.get?_place hplaceable, if_pos rfl]
    rfl
  have hfresh := h.toStocked.place_unissued room.size hnew
  refine ⟨h.toWellFormed.place room, fun v hv => ?_, ?_⟩
  · rcases List.mem_append.1 hv with hv | hv
    · exact (later_place m o).issued (h.given v hv)
    · rw [List.mem_singleton.1 hv]
      exact issued_of_isLive hnew
  · have hold : issued.filter (m.place o).2.isLive = issued.filter m.isLive := by
      refine List.filter_congr fun v hv => ?_
      have hne : v ≠ (m.place o).1 := fun e => hfresh (e ▸ h.given v hv)
      rw [isLive, Memory.get?_place hplaceable, if_neg hne, isLive]
    rw [place_table, Array.toList_push, h.order, List.filter_append, hold,
      List.filter_cons_of_pos hnew, List.filter_nil]

/-- What a reclamation frees leaves the table, and the others keep their order. -/
theorem reclaim (h : Ledger issued m) (roots : List Value) (scope : Scope) :
    Ledger issued (m.reclaim roots scope).2 := by
  refine ⟨h.toWellFormed.reclaim roots scope,
    fun v hv => (later_reclaim m roots scope).issued (h.given v hv), ?_⟩
  rw [reclaim_order h.toTabled, h.order, List.filter_filter]
  refine List.filter_congr fun v _ => ?_
  -- whatever is live afterwards was so before
  rw [Bool.eq_iff_iff, Bool.and_eq_true]
  exact ⟨fun hv => hv.1, fun hv => ⟨hv, ((isLive_reclaim h.toTabled).1 hv).live⟩⟩

theorem registerHashed {n : Nat} (h : Ledger issued m) (o : Object)
    (room : (Account.register (Memory.registerHashed o) (n, m)).2.Addressable) :
    Ledger (issued ++ answered (Memory.registerHashed o) m)
      (Account.register (Memory.registerHashed o) (n, m)).2 := by
  rw [Account.register] at room ⊢
  rw [answered]
  cases hrun : Memory.registerHashed o m with
  | ok v m' =>
    rw [hrun] at room
    obtain ⟨rfl, rfl⟩ := registerHashed_ok hrun
    have hready : Ledger issued m.readied :=
      h.alike (readied_slots m) (readied_free m) (readied_table m)
    exact hready.place room
  | error e m' =>
    obtain rfl := registerHashed_error hrun
    exact (List.append_nil issued).symm ▸ h

/-- Every operation keeps the order of registration. -/
theorem perform (h : Ledger issued m) (n : Nat) (op : Operation)
    (room : (op.perform (n, m)).2.Addressable) :
    Ledger (issued ++ op.answers m) (op.perform (n, m)).2 := by
  cases op with
  | register o =>
    have hseed : Ledger issued (m.setHashSeed (nextSeed m.hashSeed)) := h.alike rfl rfl rfl
    exact hseed.registerHashed { o with hash := seedHash (nextSeed m.hashSeed) } room
  | registerHashed o => exact h.registerHashed o room
  | write v i x => exact (List.append_nil issued).symm ▸ h.modify v _
  | become source target twoWay =>
    rw [Operation.answers.eq_def, List.append_nil]
    simp only [Operation.perform, Memory.become]
    cases Renaming.ofLists source target twoWay with
    | error refusal => exact h
    | ok r => exact h.rename r
  | reclaim roots scope => exact (List.append_nil issued).symm ▸ h.reclaim roots scope
  | pin v => exact (List.append_nil issued).symm ▸ h.alike rfl rfl rfl
  | releasePins count => exact (List.append_nil issued).symm ▸ h.alike rfl rfl rfl
  | markOldBoundary => exact (List.append_nil issued).symm ▸ h.alike rfl rfl rfl
  | setHashSeed seed => exact (List.append_nil issued).symm ▸ h.alike rfl rfl rfl
  | grow =>
    rw [Operation.answers.eq_def, List.append_nil]
    simp only [Operation.perform, attempted_grow]
    split
    · split
      · exact h.alike rfl rfl rfl
      · exact h
    · exact h
  | indexOf v =>
    rw [Operation.answers.eq_def, List.append_nil]
    obtain ⟨hint, hmemory⟩ := Primitive.indexOf_hint m v
    simp only [Operation.perform, hmemory]
    exact h.alike rfl rfl rfl
  | enumerate start cls =>
    rw [Operation.answers.eq_def, List.append_nil]
    obtain ⟨⟨hint, hmemory⟩, -⟩ := Primitive.enumerate_found m start cls
    simp only [Operation.perform, hmemory]
    exact h.alike rfl rfl rfl

end Ledger

/-- Every memory that is reached keeps the order of registration. -/
theorem Reached.ledger (h : Reached settings issued m) (room : m.Addressable) : Ledger issued m := by
  induction h with
  | empty =>
    exact ⟨wellFormed_empty settings, fun v hv => absurd hv List.not_mem_nil, rfl⟩
  | perform n op _ ih =>
    -- slots only get older, so the memory before was addressable too
    exact (ih ((op.later_perform _).addressable room)).perform n op room
  | modify v f _ ih => exact (ih ((later_modify _ v f).addressable room)).modify v f

/-! ### Steps of a walk -/

/-- The memory after queries that have left the hint at `k`. -/
def hinted (m : Memory) (k : Nat) : Memory := { m with hint := k }

@[simp] theorem hinted_table (m : Memory) (k : Nat) : (m.hinted k).table = m.table := rfl

@[simp] theorem hinted_hinted (m : Memory) (k k' : Nat) : (m.hinted k).hinted k' = m.hinted k' := rfl

theorem isWanted_hinted (m : Memory) (k : Nat) (cls : Option Value) :
    (m.hinted k).isWanted cls = m.isWanted cls := rfl

theorem findFrom_hinted (m : Memory) (k : Nat) (cls : Option Value) (start count : Nat) :
    (m.hinted k).findFrom cls start count = m.findFrom cls start count := by
  induction count generalizing start with
  | zero => rfl
  | succ count ih => simp only [findFrom, hinted_table, isWanted_hinted, ih]

/-- Asking `next` for the successor of each answer gives `vs` one after the other, and then nothing,
whatever other queries do to the hint between two steps. -/
inductive Visits (next : Memory → Value → Option Value × Memory) :
    Option Value × Memory → List Value → Prop where
  | done (m : Memory) : Visits next (none, m) []
  | more (m : Memory) (v : Value) (vs : List Value)
      (rest : ∀ k, Visits next (next (m.hinted k) v) vs) : Visits next (some v, m) (v :: vs)

/-- The successor of `v` among what is wanted: the first one behind its position. -/
def following (cls : Option Value) (m : Memory) (v : Value) : Option Value × Memory :=
  match m.indexOf v with
  | (some i, m) => m.enumerate (i + 1) cls
  | (none, m) => (none, m)

/-- A search finds the first of the entries that are wanted. -/
theorem findFrom_filter (m : Memory) (cls : Option Value) (start count : Nat)
    (hcount : m.table.size ≤ start + count) :
    match m.findFrom cls start count with
    | none => (m.table.toList.drop start).filter (m.isWanted cls) = []
    | some (i, v) => m.table[i]? = some v ∧ m.isWanted cls v = true ∧
        (m.table.toList.drop start).filter (m.isWanted cls) =
          v :: (m.table.toList.drop (i + 1)).filter (m.isWanted cls) := by
  induction count generalizing start with
  | zero =>
    have hend : m.table.toList.drop start = [] := List.drop_eq_nil_of_le hcount
    rw [findFrom, hend, List.filter_nil]
  | succ count ih =>
    rw [findFrom]
    cases hv : m.table[start]? with
    | none =>
      have hend : m.table.toList.drop start = [] :=
        List.drop_eq_nil_of_le (Array.getElem?_eq_none_iff.1 hv)
      simp only [hend, List.filter_nil]
    | some v =>
      have hsplit : m.table.toList.drop start = v :: m.table.toList.drop (start + 1) := by
        obtain ⟨hlt, hget⟩ := Array.getElem?_eq_some_iff.1 hv
        rw [← List.cons_getElem_drop_succ (h := by simpa using hlt)]
        simp [hget]
      by_cases hwanted : m.isWanted cls v = true
      · simp only [hwanted, if_true]
        exact ⟨hv, trivial, by rw [hsplit, List.filter_cons_of_pos hwanted]⟩
      · rw [hsplit, List.filter_cons_of_neg hwanted]
        simp only [hwanted]
        exact ih (start + 1) (by omega)

/-- Where a value is in the table does not depend on the hint. -/
theorem indexOf_hinted (h : m.Tabled) (k i : Nat) :
    ((m.hinted k).indexOf v).1 = some i ↔ m.table[i]? = some v := by
  have hunique : ∀ i j : Nat, m.table[i]? = some v → m.table[j]? = some v → i = j := by
    intro i j hi hj
    rw [← Array.getElem?_toList] at hi hj
    exact (List.getElem?_inj (List.getElem?_eq_some_iff.1 hi).1 h.once).1 (hi.trans hj.symm)
  by_cases hhint : m.table[k]? = some v
  · rw [indexOf, if_pos (show (m.hinted k).table[(m.hinted k).hint]? = some v from hhint)]
    exact ⟨fun e => Option.some.inj e ▸ hhint, fun hi => congrArg some (hunique _ _ hhint hi)⟩
  · rw [indexOf, if_neg (show ¬ (m.hinted k).table[(m.hinted k).hint]? = some v from hhint),
      hinted_table]
    cases hfind : m.table.findIdx? (· == v) with
    | none =>
      rw [Array.findIdx?_eq_none_iff] at hfind
      refine ⟨fun e => absurd e (by simp), fun hi => ?_⟩
      exact absurd (hfind v (Array.mem_of_getElem? hi)) (by simp)
    | some j =>
      obtain ⟨hlt, hj, -⟩ := Array.findIdx?_eq_some_iff_getElem.1 hfind
      have hj : m.table[j]? = some v := by rw [Array.getElem?_eq_getElem hlt, eq_of_beq hj]
      exact ⟨fun e => Option.some.inj e ▸ hj, fun hi => congrArg some (hunique _ _ hj hi)⟩

theorem indexOf_memory (m : Memory) (k : Nat) (v : Value) :
    ∃ k', ((m.hinted k).indexOf v).2 = m.hinted k' := Primitive.indexOf_hint (m.hinted k) v

/-- The successor of a table entry is looked for right behind it. -/
theorem following_hinted (cls : Option Value) (h : m.Tabled) {i : Nat} (hi : m.table[i]? = some v)
    (k : Nat) : ∃ k', following cls (m.hinted k) v = (m.hinted k').enumerate (i + 1) cls := by
  obtain ⟨k', hmemory⟩ := indexOf_memory m k v
  have hindex := (indexOf_hinted h k i).2 hi
  refine ⟨k', ?_⟩
  rw [following]
  rcases hquery : (m.hinted k).indexOf v with ⟨found, memory⟩
  rw [hquery] at hindex hmemory
  simp only at hindex hmemory
  rw [hindex, hmemory]

/-- A walk from a table position visits everything wanted that is listed from there on. -/
theorem visits_enumerate (cls : Option Value) {next : Memory → Value → Option Value × Memory}
    (h : m.Tabled)
    (hnext : ∀ k v, m.isWanted cls v = true → next (m.hinted k) v = following cls (m.hinted k) v)
    (k start : Nat) :
    Visits next ((m.hinted k).enumerate start cls)
      ((m.table.toList.drop start).filter (m.isWanted cls)) := by
  have hsearch := findFrom_filter m cls start (m.table.size - start) (by omega)
  -- the rest of the walk starts behind what has been found, with fewer entries left
  induction hvs : (m.table.toList.drop start).filter (m.isWanted cls) generalizing k start with
  | nil =>
    cases hfound : m.findFrom cls start (m.table.size - start) with
    | none =>
      have hnone : (m.hinted k).enumerate start cls = (none, m.hinted k) := by
        rw [enumerate, findFrom_hinted, hinted_table, hfound]
      rw [hnone]
      exact .done _
    | some found =>
      rw [hfound] at hsearch
      exact absurd (hvs.symm.trans hsearch.2.2) (by simp)
  | cons v vs ih =>
    cases hfound : m.findFrom cls start (m.table.size - start) with
    | none =>
      rw [hfound] at hsearch
      exact absurd (hvs.symm.trans hsearch) (by simp)
    | some found =>
      obtain ⟨i, w⟩ := found
      rw [hfound] at hsearch
      obtain ⟨hi, hwanted, hfilter⟩ := hsearch
      obtain ⟨rfl, hrest⟩ := List.cons.inj (hvs.symm.trans hfilter)
      have hsome : (m.hinted k).enumerate start cls = (some v, m.hinted i) := by
        rw [enumerate, findFrom_hinted, hinted_table, hfound]
        rfl
      rw [hsome]
      refine .more _ v vs fun k₁ => ?_
      obtain ⟨k₂, hfollowing⟩ := following_hinted cls h hi k₁
      rw [hinted_hinted, hnext k₁ v hwanted, hfollowing]
      exact ih k₂ (i + 1) (findFrom_filter m cls (i + 1) _ (by omega)) hrest.symm

theorem isWanted_none (m : Memory) : m.isWanted none = m.isLive := by
  funext v
  simp only [isWanted, isLive]
  cases m.get? v <;> rfl

/-- Whether a value refers to an object of the class `c`. -/
def isInstance (m : Memory) (c v : Value) : Bool := (m.get? v).any fun o => o.cls == c

theorem isWanted_some (m : Memory) (c : Value) : m.isWanted (some c) = m.isInstance c := by
  funext v
  simp only [isWanted, isInstance]
  cases m.get? v <;> rfl

theorem nextInstance_hinted {c : Value} (hv : m.isWanted (some c) v = true) (k : Nat) :
    (m.hinted k).nextInstance v = following (some c) (m.hinted k) v := by
  rw [isWanted_some, isInstance, Option.any_eq_true] at hv
  obtain ⟨o, ho, hcls⟩ := hv
  have hget : (m.hinted k).get? v = some o := ho
  rw [nextInstance, hget, ← eq_of_beq hcls]
  rfl

/-! ### Complete walks -/

/-- What the queries answer in a memory in which `issued` is what registrations have answered so far,
for every position of the hint. -/
structure Enumerated (issued : List Value) (m : Memory) : Prop where
  order : m.table.toList = issued.filter m.isLive
  complete : ∀ v, v ∈ m.table.toList ↔ m.isLive v = true
  once : m.table.toList.Nodup
  position : ∀ k v i, ((m.hinted k).indexOf v).1 = some i ↔ m.table[i]? = some v
  objects : ∀ k, Visits nextObject (m.hinted k).firstObject m.table.toList
  instances : ∀ k c, Visits nextInstance ((m.hinted k).firstInstance c)
    (m.table.toList.filter (m.isInstance c))

/-- In every memory that is reached the position of a value is found, the walk over all objects visits
every live object once, in the order of registration, and the walk over the instances of a class those
of them that are of the class. -/
theorem visits_all (h : Reached settings issued m) (room : m.Addressable) :
    Enumerated issued m := by
  have hledger := h.ledger room
  have htabled := hledger.toTabled
  have hall : m.table.toList.filter m.isLive = m.table.toList := by
    rw [List.filter_eq_self]
    exact fun v hv => (htabled.listed v).1 (Array.mem_toList_iff.1 hv)
  refine ⟨hledger.order, fun v => Array.mem_toList_iff.trans (htabled.listed v), htabled.once,
    fun k v i => indexOf_hinted htabled k i, fun k => ?_, fun k c => ?_⟩
  · have hwalk := visits_enumerate none htabled (fun _ _ _ => rfl) k 0
    rw [List.drop_zero, isWanted_none, hall] at hwalk
    exact hwalk
  · have hwalk := visits_enumerate (some c) htabled
      (fun k v hv => nextInstance_hinted hv k) k 0
    rw [List.drop_zero, isWanted_some] at hwalk
    exact hwalk

/-- The run that uses a slot again, and a query that leaves the hint behind. -/
def queried : List Operation := reuse ++ [.indexOf (.ref 0 1)]

theorem addressable_queried : (account narrow queried).2.Addressable := by
  have hslots : (account narrow queried).2.slots = (account narrow reuse).2.slots := by
    obtain ⟨hint, hmemory⟩ := Primitive.indexOf_hint (account narrow reuse).2 (.ref 0 1)
    have hrun : (account narrow queried).2 = ((account narrow reuse).2.indexOf (.ref 0 1)).2 := by
      rw [queried, account, List.foldl_append]
      rfl
    rw [hrun, hmemory]
  exact (Later.of_slots hslots.symm).addressable addressable_reuse

/-- Three references have been issued, the first of them is stale, and the last one uses its slot. -/
theorem visits_all_queried :
    (Reached narrow [.ref 0 0, .ref 1 0, .ref 0 1] (account narrow queried).2 ∧
      (account narrow queried).2.Addressable) ∧
    (account narrow queried).2.table = #[.ref 1 0, .ref 0 1] ∧
    (account narrow queried).2.hint = 1 ∧
    Enumerated [.ref 0 0, .ref 1 0, .ref 0 1] (account narrow queried).2 := by
  have hanswers : answersOf queried (0, empty narrow) = [.ref 0 0, .ref 1 0, .ref 0 1] := by cbv
  have hreached := reached_account narrow queried
  rw [hanswers] at hreached
  exact ⟨⟨hreached, addressable_queried⟩, by cbv, by cbv,
    visits_all hreached addressable_queried⟩

end Smalltalk.Memory
