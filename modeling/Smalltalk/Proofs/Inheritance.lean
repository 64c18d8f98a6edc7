import Smalltalk.Proofs.Caching

/-!
# The nearest definition

A method is entered into a dictionary at the first free position in cyclic order, from the position
on that the hash of its selector asks for. What is entered later takes free positions only, so none of
the positions that were passed on the way becomes free again: a search from the same position passes
them too and comes to the selector, however far it has been displaced, and a free position tells that
the selector is not there. The dictionary may have any size and be full to the last position.

Lookup searches the dictionary of one class after the other, so it finds the method that the first of
them has which has any.
-/

namespace Smalltalk

open Checked

namespace Dictionary

variable {m : Memory} {nil selector dictionary : Value} {entries : List (Value × Value)}
  {start capacity i j : Nat} {e : Value × Value}

/-! ### Positions in cyclic order -/

/-- All positions in cyclic order, from `start` on. -/
def cycle (start capacity : Nat) : List Nat :=
  (List.range capacity).map fun k => (start + k) % capacity

theorem mem_cycle (hstart : start < capacity) (hi : i < capacity) : i ∈ cycle start capacity := by
  refine List.mem_map.2 ⟨(i + capacity - start) % capacity, ?_, ?_⟩
  · exact List.mem_range.2 (Nat.mod_lt _ (Nat.zero_lt_of_lt hi))
  · rw [Nat.add_mod_mod, Nat.add_sub_of_le (by omega), Nat.add_mod_right, Nat.mod_eq_of_lt hi]

/-- A search probes in this order. -/
theorem probes_eq_cycle (hstart : start < capacity) : probes start capacity = cycle start capacity := by
  refine List.ext_getElem ?_ fun k hk hk' => ?_
  · simp only [probes, cycle, List.length_append, List.length_range', List.length_range, List.length_map]
    omega
  · simp only [cycle, List.length_map, List.length_range] at hk'
    simp only [probes, cycle, List.getElem_append, List.length_range', List.getElem_range',
      List.getElem_range, List.getElem_map, Nat.one_mul]
    split
    · rw [Nat.mod_eq_of_lt (by omega)]
    · rw [Nat.mod_eq_sub_mod (by omega), Nat.mod_eq_of_lt (by omega)]
      omega

/-- The position that the hash of a selector asks for. -/
def home (m : Memory) (selector : Value) (capacity : Nat) : Nat :=
  (selectorHash m selector).toNat &&& (capacity - 1)

theorem home_lt (m : Memory) (selector : Value) (hcapacity : 0 < capacity) :
    home m selector capacity < capacity := by
  have hle : home m selector capacity ≤ capacity - 1 := Nat.and_le_right
  omega

/-! ### How a dictionary is filled -/

/-- What stands at the positions of a dictionary: a selector, or nil if the position is free, and a
method. -/
structure Places where
  keys : List Value
  methods : List Value
  deriving DecidableEq

namespace Places

/-- The dictionary without methods. -/
def free (nil : Value) (capacity : Nat) : Places where
  keys := List.replicate capacity nil
  methods := List.replicate capacity nil

/-- The selector at a position. -/
def key (t : Places) (nil : Value) (i : Nat) : Value := (t.keys[i]?).getD nil

/-- Enters a method under a selector, at the first free position in cyclic order from the one that the
hash of the selector asks for. -/
def enter (m : Memory) (nil : Value) (t : Places) (e : Value × Value) : Places :=
  let order := cycle (home m e.1 t.keys.length) t.keys.length
  match order.find? fun i => t.keys[i]? == some nil with
  | some i => { keys := t.keys.set i e.1, methods := t.methods.set i e.2 }
  | none => t

/-- A dictionary with so many positions into which methods have been entered one after the other. -/
def filled (m : Memory) (nil : Value) (capacity : Nat) (entries : List (Value × Value)) : Places :=
  entries.foldl (enter m nil) (free nil capacity)

end Places

/-- What a dictionary with so many positions may have: methods for distinct selectors. -/
structure Fits (nil : Value) (capacity : Nat) (entries : List (Value × Value)) : Prop where
  distinct : (entries.map Prod.fst).Nodup
  proper : ∀ e ∈ entries, e.1 ≠ nil
  length : entries.length ≤ capacity

/-- Each method stands beside its selector, and no position before it, from the one on that the hash
asks for, is free. -/
structure Places.Holds (m : Memory) (nil : Value) (capacity : Nat) (entries : List (Value × Value))
    (t : Places) : Prop where
  keys : t.keys.length = capacity
  methods : t.methods.length = capacity
  room : t.keys.count nil + entries.length = capacity
  paired : ∀ i, t.key nil i ≠ nil → ∃ x, t.methods[i]? = some x ∧ (t.key nil i, x) ∈ entries
  reached : ∀ e ∈ entries, ∃ before i after,
    cycle (home m e.1 capacity) capacity = before ++ i :: after ∧
      t.key nil i = e.1 ∧ ∀ j ∈ before, t.key nil j ≠ nil

namespace Places

variable {t : Places}

theorem holds_free (m : Memory) (nil : Value) (capacity : Nat) :
    (free nil capacity).Holds m nil capacity [] where
  keys := List.length_replicate
  methods := List.length_replicate
  room := by simp [free]
  paired i hi := by
    refine absurd ?_ hi
    rw [key, free, List.getElem?_replicate]
    split <;> rfl
  reached e he := absurd he List.not_mem_nil

/-- A method is entered at the first free position, as long as there is one. -/
theorem Holds.enter (h : t.Holds m nil capacity entries) (hproper : ∀ e ∈ entries, e.1 ≠ nil)
    (he : e.1 ≠ nil) (hroom : entries.length < capacity) :
    (t.enter m nil e).Holds m nil capacity (entries ++ [e]) := by
  have hstart := home_lt m e.1 (Nat.zero_lt_of_lt hroom)
  -- the count tells that some position is free
  have hpos : 0 < t.keys.count nil := by
    have := h.room
    omega
  obtain ⟨free, hfree⟩ := List.mem_iff_getElem?.1 (List.count_pos_iff.1 hpos)
  have hlt : free < capacity := h.keys ▸ (List.getElem?_eq_some_iff.1 hfree).1
  obtain ⟨i, hi⟩ : ∃ i, (cycle (home m e.1 capacity) capacity).find?
      (fun i => t.keys[i]? == some nil) = some i := by
    rw [← Option.isSome_iff_exists, List.find?_isSome]
    exact ⟨free, mem_cycle hstart hlt, by simp [hfree]⟩
  obtain ⟨hnil, before, after, hcycle, hbefore⟩ := List.find?_eq_some_iff_append.1 hi
  have hnil : t.keys[i]? = some nil := by simpa using hnil
  have hplace : i < t.keys.length := (List.getElem?_eq_some_iff.1 hnil).1
  have henter : t.enter m nil e = { keys := t.keys.set i e.1, methods := t.methods.set i e.2 } := by
    simp only [Places.enter, h.keys, hi]
  have hkey (j : Nat) : (t.enter m nil e).key nil j = if j = i then e.1 else t.key nil j := by
    rw [henter, key, key, List.getElem?_set]
    by_cases hj : j = i
    · simp [hj, hplace]
    · simp [hj, Ne.symm hj]
  have hpassed {j : Nat} (hj : t.key nil j ≠ nil) : (t.enter m nil e).key nil j ≠ nil := by
    rw [hkey]
    split
    · exact he
    · exact hj
  have hfreed : t.key nil i = nil := by rw [key, hnil, Option.getD_some]
  refine ⟨?_, ?_, ?_, fun j hj => ?_, fun e' he' => ?_⟩
  · rw [henter, List.length_set, h.keys]
  · rw [henter, List.length_set, h.methods]
  · have hcount := List.count_set (a := e.1) (b := nil) hplace
    have hat : t.keys[i] = nil := Option.some.inj ((List.getElem?_eq_getElem hplace).symm.trans hnil)
    have hold := h.room
    simp only [hat, beq_self_eq_true, if_true, beq_iff_eq, he, if_false] at hcount
    rw [henter, List.length_append, List.length_singleton, hcount]
    omega
  · rw [hkey] at hj ⊢
    by_cases hji : j = i
    · subst hji
      refine ⟨e.2, ?_, by simp⟩
      rw [henter, List.getElem?_set_self (h.methods ▸ h.keys ▸ hplace)]
    · rw [if_neg hji] at hj ⊢
      obtain ⟨x, hx, hmem⟩ := h.paired j hj
      refine ⟨x, ?_, List.mem_append_left _ hmem⟩
      rw [henter, List.getElem?_set_ne (Ne.symm hji), hx]
  · rcases List.mem_append.1 he' with he' | he'
    · obtain ⟨before', i', after', hcycle', hi', hbefore'⟩ := h.reached e' he'
      have hne : i' ≠ i := by
        rintro rfl
        exact hproper e' he' (hi'.symm.trans hfreed)
      exact ⟨before', i', after', hcycle', by rw [hkey, if_neg hne, hi'],
        fun j hj => hpassed (hbefore' j hj)⟩
    · obtain rfl := List.mem_singleton.1 he'
      refine ⟨before, i, after, hcycle, by rw [hkey, if_pos rfl], fun j hj => hpassed fun hkeyj => ?_⟩
      have hlt : j < t.keys.length := by
        rw [h.keys]
        have hmem : j ∈ cycle (home m e'.1 capacity) capacity := by
          rw [hcycle]
          exact List.mem_append_left _ hj
        obtain ⟨k, -, rfl⟩ := List.mem_map.1 hmem
        exact Nat.mod_lt _ (Nat.zero_lt_of_lt hroom)
      have hused := hbefore j hj
      rw [key, List.getElem?_eq_getElem hlt, Option.getD_some] at hkeyj
      simp [List.getElem?_eq_getElem hlt, hkeyj] at hused

/-- Everything that fits is entered. -/
theorem holds_filled (h : Fits nil capacity entries) :
    (filled m nil capacity entries).Holds m nil capacity entries := by
  have run : ∀ (rest done : List (Value × Value)) (t : Places), t.Holds m nil capacity done →
      (∀ e ∈ done ++ rest, e.1 ≠ nil) → (done ++ rest).length ≤ capacity →
      (rest.foldl (Places.enter m nil) t).Holds m nil capacity (done ++ rest) := by
    intro rest
    induction rest with
    | nil =>
      intro done t ht _ _
      rw [List.append_nil]
      exact ht
    | cons e rest ih =>
      intro done t ht hproper hlength
      have hstep := ht.enter (fun e' he' => hproper e' (List.mem_append_left _ he'))
        (hproper e (by simp)) (by rw [List.length_append, List.length_cons] at hlength; omega)
      rw [List.append_cons] at hproper hlength ⊢
      exact ih _ _ hstep hproper hlength
  exact run entries [] _ (holds_free m nil capacity) h.proper h.length

end Places

/-! ### Searching -/

/-- A search comes to a selector if no position before it is free. -/
theorem search_of_reached {key : Nat → Value} {before : List Nat} (after : List Nat)
    (hselector : selector ≠ nil) (hi : key i = selector) (hbefore : ∀ j ∈ before, key j ≠ nil) :
    ∃ place, search key selector nil (before ++ i :: after) = some place ∧ key place = selector := by
  induction before with
  | nil =>
    refine ⟨i, ?_, hi⟩
    rw [List.nil_append, search, if_neg (hi ▸ hselector), if_pos hi]
  | cons j before ih =>
    rw [List.cons_append, search, if_neg (hbefore j List.mem_cons_self)]
    by_cases hj : key j = selector
    · exact ⟨j, if_pos hj, hj⟩
    · rw [if_neg hj]
      exact ih fun j hj => hbefore j (List.mem_cons_of_mem _ hj)

/-- What a dictionary field leads to: no object at all, or one without a position, which count as an
empty dictionary, or a dictionary of some size with an array of methods beside it. -/
inductive Contains (m : Memory) (nil : Value) (dictionary : Value) : List (Value × Value) → Prop
  | absent (dead : m.isLive dictionary = false) : Contains m nil dictionary []
  | bare {o : Object} (found : m.get? dictionary = some o) (size : o.pointers.size ≤ keyStart) :
      Contains m nil dictionary []
  | filled {capacity : Nat} {entries : List (Value × Value)} {o a : Object} {tally array : Value}
      (positive : 1 ≤ capacity) (fits : Fits nil capacity entries)
      (found : m.get? dictionary = some o)
      (keys : o.pointers.toList = tally :: array :: (Places.filled m nil capacity entries).keys)
      (beside : m.get? array = some a)
      (methods : (Places.filled m nil capacity entries).methods <+: a.pointers.toList) :
      Contains m nil dictionary entries

theorem lookup_of_mem {x : Value} (distinct : (entries.map Prod.fst).Nodup)
    (h : (selector, x) ∈ entries) : entries.lookup selector = some x := by
  obtain ⟨before, after, rfl⟩ := List.append_of_mem h
  rw [List.map_append, List.map_cons, List.nodup_append] at distinct
  refine List.lookup_eq_some_iff.2 ⟨before, after, rfl, fun p hp => ?_⟩
  have hne := distinct.2.2 p.1 (List.mem_map_of_mem hp) selector List.mem_cons_self
  simpa using Ne.symm hne

/-- A search finds the method that was entered under a selector, and no other. -/
theorem find_of_contains (h : Contains m nil dictionary entries) (hselector : selector ≠ nil) :
    Dictionary.find m dictionary selector nil = .ok (entries.lookup selector) := by
  cases h with
  | absent dead =>
    simp only [Dictionary.find, Memory.get?_eq_none.2 dead]
    rfl
  | bare found size =>
    have hsearch (key : Nat → Value) (hash : Nat) :
        search key selector nil (probes (startFor hash 0) 0) = none := by
      rw [startFor, Nat.zero_sub, Nat.zero_and]
      rfl
    simp only [Dictionary.find, found, Nat.sub_eq_zero_of_le size, hsearch]
    rfl
  | @filled capacity entries o a tally array positive fits found keys beside methods =>
    have holds := Places.holds_filled (m := m) fits
    generalize hfilled : Places.filled m nil capacity entries = t at keys methods holds
    have hsize : o.pointers.size - keyStart = capacity := by
      rw [← Array.length_toList, keys, List.length_cons, List.length_cons, holds.keys]
      rfl
    have hkey (i : Nat) : (o.pointers[i + keyStart]?).getD nil = t.key nil i := by
      rw [← Array.getElem?_toList, keys]
      rfl
    have hprobes : probes (startFor (selectorHash m selector).toNat capacity) capacity =
        cycle (home m selector capacity) capacity := by
      rw [startFor, Nat.and_comm]
      exact probes_eq_cycle (home_lt m selector positive)
    have harray : m.field .lookupStructure dictionary Dictionary.methods = .ok array := by
      have hsecond : o.pointers[Dictionary.methods]? = some array := by
        rw [← Array.getElem?_toList, keys]
        rfl
      simp only [Memory.field, found, hsecond]
    simp only [Dictionary.find, found, hsize, hkey, hprobes]
    cases hsearch : search (fun i => t.key nil i) selector nil
        (cycle (home m selector capacity) capacity) with
    | none =>
      cases hlookup : entries.lookup selector with
      | none => rfl
      | some x =>
        -- it would have been reached
        obtain ⟨before', after', rfl, -⟩ := List.lookup_eq_some_iff.1 hlookup
        obtain ⟨before, i, after, hcycle, hi, hbefore⟩ := holds.reached (selector, x) (by simp)
        obtain ⟨place, hplace, -⟩ := search_of_reached after hselector hi hbefore
        rw [hcycle, hplace] at hsearch
        exact absurd hsearch (by simp)
    | some place =>
      obtain ⟨hne, hat⟩ := search_some hsearch
      obtain ⟨x, hx, hmem⟩ := holds.paired place hne
      rw [hat] at hmem
      have hmethod : m.field .lookupStructure array place = .ok x := by
        have hthere : a.pointers[place]? = some x := by
          rw [← Array.getElem?_toList]
          obtain ⟨rest, hrest⟩ := methods
          rw [← hrest, List.getElem?_append_left (List.getElem?_eq_some_iff.1 hx).1, hx]
        simp only [Memory.field, beside, hthere]
      simp only [harray, lookup_of_mem fits.distinct hmem]
      change (some <$> m.field .lookupStructure array place) = _
      rw [hmethod]
      rfl

end Dictionary

/-! ### Classes -/

/-- The classes from `cls` on up to nil, each with what has been entered into its dictionary. -/
inductive Lineage (m : Memory) (nil : Value) : Value → List (Value × List (Value × Value)) → Prop
  | top : Lineage m nil nil []
  | step {cls superclass dictionary : Value} {entries : List (Value × Value)}
      {above : List (Value × List (Value × Value))} (up : Superclass m nil superclass cls)
      (field : m.field .lookupStructure cls Class.dictionary = .ok dictionary)
      (contains : Dictionary.Contains m nil dictionary entries)
      (rest : Lineage m nil superclass above) : Lineage m nil cls ((cls, entries) :: above)

namespace Lineage

variable {m : Memory} {nil cls selector : Value} {above chain chain' : List (Value × List (Value × Value))}

/-- From a class there is one way up. -/
theorem length_unique (h : Lineage m nil cls chain) (h' : Lineage m nil cls chain') :
    chain.length = chain'.length := by
  induction h generalizing chain' with
  | top =>
    cases h' with
    | top => rfl
    | step up => exact absurd rfl up.1
  | step up _ _ _ ih =>
    cases h' with
    | top => exact absurd rfl up.1
    | step up' _ _ rest' =>
      obtain rfl := Except.ok.inj (up.2.symm.trans up'.2)
      rw [List.length_cons, List.length_cons, ih rest']

theorem of_mem {c : Value} (h : Lineage m nil cls chain) (hc : c ∈ chain.map Prod.fst) :
    ∃ upper, Lineage m nil c upper ∧ upper.length ≤ chain.length := by
  induction h with
  | top => exact absurd hc List.not_mem_nil
  | step up field contains rest ih =>
    rcases List.mem_cons.1 hc with rfl | hc
    · exact ⟨_, .step up field contains rest, Nat.le_refl _⟩
    · obtain ⟨upper, hupper, hle⟩ := ih hc
      exact ⟨upper, hupper, Nat.le_succ_of_le hle⟩

/-- No class stands above itself. -/
theorem nodup (h : Lineage m nil cls chain) : (chain.map Prod.fst).Nodup := by
  induction h with
  | top => exact List.nodup_nil
  | step up field contains rest ih =>
    refine List.nodup_cons.2 ⟨fun hmem => ?_, ih⟩
    obtain ⟨upper, hupper, hle⟩ := rest.of_mem hmem
    have hsame := hupper.length_unique (.step up field contains rest)
    rw [List.length_cons] at hsame
    omega

theorem live (h : Lineage m nil cls chain) : ∀ c ∈ chain.map Prod.fst, m.isLive c = true := by
  induction h with
  | top => exact fun c hc => absurd hc List.not_mem_nil
  | step _ field _ _ ih => exact List.forall_mem_cons.2 ⟨Memory.isLive_of_field field, ih⟩

/-- The search may follow more links than there are classes. -/
theorem length_le (h : Lineage m nil cls chain) : chain.length ≤ m.slots.size := by
  rw [← List.length_map (f := Prod.fst)]
  exact Memory.length_le_of_isLive h.nodup h.live

theorem findMethodWithin {hops : Nat} (h : Lineage m nil cls chain) (hhops : chain.length ≤ hops)
    (hselector : selector ≠ nil) :
    Smalltalk.findMethodWithin m selector nil hops cls =
      .ok (chain.findSome? fun c => c.2.lookup selector) := by
  induction h generalizing hops with
  | top =>
    cases hops <;> simp [Smalltalk.findMethodWithin]
  | @step cls superclass dictionary entries above up field contains rest ih =>
    cases hops with
    | zero => exact absurd hhops (by simp)
    | succ hops =>
      have hfind := Dictionary.find_of_contains contains hselector
      rw [Smalltalk.findMethodWithin, if_neg up.1]
      simp only [field, hfind, bind, Except.bind]
      cases hlookup : entries.lookup selector with
      | some x => simp [List.findSome?, hlookup, pure, Except.pure]
      | none =>
        simp only [up.2, List.findSome?, hlookup]
        exact ih (Nat.le_of_succ_le_succ hhops)

end Lineage

/-- Lookup finds the method that was entered for the selector into the dictionary of the first class
that has one, and none if there is no such class. -/
theorem findMethod_nearest {m : Memory} {nil cls selector : Value}
    {chain : List (Value × List (Value × Value))} (h : Lineage m nil cls chain)
    (hselector : selector ≠ nil) :
    findMethod m cls selector nil = .ok (chain.findSome? fun c => c.2.lookup selector) :=
  h.findMethodWithin (Nat.le_succ_of_le h.length_le) hselector

/-- Three selectors that ask for the same position. The highest class has a method for each of them in
a dictionary that is full, the class below it has no dictionary, and the lowest class has a method of
its own for the second one. -/
def archive : Memory :=
  let pointers fields := Object.ofPointers (.small 0) .fixed (List.toArray fields)
  let selector : Object := { Object.ofBytes (.small 0) #[] with hash := 2 }
  let objects := [pointers [], selector, selector, selector,
    pointers [.small 102, .small 103, .small 101],
    pointers [.small 3, .ref 4 0, .ref 2 0, .ref 3 0, .ref 1 0], pointers [.ref 0 0, .ref 5 0],
    pointers [.ref 6 0, .small 0],
    pointers [.small 104], pointers [.small 1, .ref 8 0, .ref 2 0], pointers [.ref 7 0, .ref 9 0]]
  objects.foldl (fun m o => (m.place o).2) (.empty .standard)

theorem lineage_archive : Lineage archive (.ref 0 0) (.ref 10 0)
    [(.ref 10 0, [(.ref 2 0, .small 104)]), (.ref 7 0, []),
      (.ref 6 0, [(.ref 1 0, .small 101), (.ref 2 0, .small 102), (.ref 3 0, .small 103)])] := by
  have hone : Dictionary.Fits (.ref 0 0) 1 [(.ref 2 0, .small 104)] :=
    ⟨by decide, by decide, by decide⟩
  have hthree : Dictionary.Fits (.ref 0 0) 3
      [(.ref 1 0, .small 101), (.ref 2 0, .small 102), (.ref 3 0, .small 103)] :=
    ⟨by decide, by decide, by decide⟩
  have hlower : Dictionary.Contains archive (.ref 0 0) (.ref 9 0) [(.ref 2 0, .small 104)] :=
    .filled (by decide) hone rfl rfl rfl ⟨[], rfl⟩
  have hupper : Dictionary.Contains archive (.ref 0 0) (.ref 5 0)
      [(.ref 1 0, .small 101), (.ref 2 0, .small 102), (.ref 3 0, .small 103)] :=
    .filled (by decide) hthree rfl rfl rfl ⟨[], rfl⟩
  have hmiddle : Dictionary.Contains archive (.ref 0 0) (.small 0) [] := .absent rfl
  exact .step ⟨by decide, rfl⟩ rfl hlower (.step ⟨by decide, rfl⟩ rfl hmiddle
    (.step ⟨by decide, rfl⟩ rfl hupper .top))

/-- The lowest class has its own method for one selector and inherits those for the others, which have
been displaced. -/
theorem findMethod_nearest_archive :
    findMethod archive (.ref 10 0) (.ref 2 0) (.ref 0 0) = .ok (some (.small 104)) ∧
    findMethod archive (.ref 10 0) (.ref 3 0) (.ref 0 0) = .ok (some (.small 103)) ∧
    findMethod archive (.ref 10 0) (.ref 4 0) (.ref 0 0) = .ok none :=
  ⟨findMethod_nearest lineage_archive (by decide), findMethod_nearest lineage_archive (by decide),
    findMethod_nearest lineage_archive (by decide)⟩

end Smalltalk
