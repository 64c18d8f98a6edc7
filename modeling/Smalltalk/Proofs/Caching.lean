import Mathlib
import Smalltalk.Lookup.Cache
import Smalltalk.Proofs.Checked
import Smalltalk.Proofs.Reclamation

/-!
# What the method cache answers

A pair of a selector and a class may stand in any of its four places, a place may hold the answer for
any pair, and flushes leave gaps between them. All that matters is that every entry is the answer of a
search for its own selector and class: then it does not matter which entries are there. A search in
the memory makes such an entry, and so the cache answers what a search would, in every run. When the
memory changes, the entries for the selectors whose answers change have to go, and no others.

A search ends if the superclass chains do. Each class on a chain has a slot of its own, so the bound
on the links that a search follows is never reached.
-/

namespace Smalltalk

open Checked

variable {m m' : Memory} {nil cls selector method x : Value}

/-! ### Superclass chains -/

namespace Memory

/-- The slot that a value points at. -/
def slotIndex : Value → Nat
  | .small _ => 0
  | .ref index _ => index.toNat

/-- The number of objects. -/
def population (m : Memory) : Nat :=
  (List.range m.slots.size).countP fun i => (m.slots[i]?.bind Slot.object).isSome

theorem population_le (m : Memory) : m.population ≤ m.slots.size :=
  List.countP_le_length.trans List.length_range.le

/-- There are no more live references than objects. -/
theorem length_le_population {vs : List Value} (hnodup : vs.Nodup)
    (hlive : ∀ v ∈ vs, m.isLive v = true) : vs.length ≤ m.population := by
  have hdistinct : (vs.map slotIndex).Nodup := by
    refine List.Nodup.map_on (fun v hv w hw e => ?_) hnodup
    have hv := hlive v hv
    have hw := hlive w hw
    cases v with
    | small n => exact absurd (isReference_of_isLive hv) (by simp [Value.isReference])
    | ref index generation =>
      cases w with
      | small n => exact absurd (isReference_of_isLive hw) (by simp [Value.isReference])
      | ref index' generation' =>
        obtain rfl := UInt32.toNat_inj.1 e
        rw [eq_of_isLive_of_index hv hw]
  have hoccupied : vs.map slotIndex ⊆
      (List.range m.slots.size).filter fun i => (m.slots[i]?.bind Slot.object).isSome := by
    intro i hi
    obtain ⟨v, hv, rfl⟩ := List.mem_map.1 hi
    obtain ⟨o, ho⟩ := isLive_iff.1 (hlive v hv)
    obtain ⟨index, generation, slot, rfl, hslot, -, hobject⟩ := get?_eq_some.1 ho
    refine List.mem_filter.2 ⟨List.mem_range.2 (index_lt_of_get? ho), ?_⟩
    rw [slotIndex, hslot, Option.bind_some, hobject]
    rfl
  have hle := (List.subperm_of_subset hdistinct hoccupied).length_le
  rwa [List.length_map, ← List.countP_eq_length_filter] at hle

/-- There are no more live references than slots. -/
theorem length_le_of_isLive {vs : List Value} (hnodup : vs.Nodup)
    (hlive : ∀ v ∈ vs, m.isLive v = true) : vs.length ≤ m.slots.size :=
  (length_le_population hnodup hlive).trans m.population_le

theorem isLive_of_field {flaw : Flaw} {i : Nat} (h : m.field flaw cls i = .ok x) :
    m.isLive cls = true := by
  unfold field at h
  split at h
  · exact absurd h (by simp)
  · rename_i o ho
    exact isLive_of_get? ho

theorem field_ne_endlessChain {flaw : Flaw} {i : Nat} {start : Value} :
    m.field flaw cls i ≠ .error (.endlessChain start) := by
  unfold field
  split
  · simp
  · split
    · simp
    · simp

end Memory

/-- Whether a search that has found nothing in `cls` goes on with `x`. -/
def Superclass (m : Memory) (nil x cls : Value) : Prop :=
  cls ≠ nil ∧ m.field .lookupStructure cls Class.superclass = .ok x

/-- The superclass chain of a class ends. -/
def FiniteChain (m : Memory) (nil cls : Value) : Prop := Acc (Superclass m nil) cls

theorem Dictionary.search_some {key : Nat → Value} {places : List Nat} {i : Nat}
    (h : search key selector nil places = some i) : key i ≠ nil ∧ key i = selector := by
  induction places with
  | nil => exact absurd h (by simp [search])
  | cons place rest ih =>
    unfold search at h
    split at h
    · exact absurd h (by simp)
    · rename_i hnil
      split at h
      · rename_i hkey
        obtain rfl := Option.some.inj h
        exact ⟨hnil, hkey⟩
      · exact ih h

theorem Dictionary.find_ne_endlessChain {dictionary start : Value} :
    Dictionary.find m dictionary selector nil ≠ .error (.endlessChain start) := by
  intro h
  unfold Dictionary.find at h
  split at h
  · exact absurd h (by simp)
  · dsimp only at h
    split at h
    · exact absurd h (by simp)
    · rcases bind_error.1 h with harray | ⟨array, -, hmethod⟩
      · exact Memory.field_ne_endlessChain harray
      · exact Memory.field_ne_endlessChain (map_error.1 hmethod)

/-- A search that is cut off has followed as many links as it was allowed. -/
theorem findMethodWithin_endless {hops : Nat} {start : Value}
    (h : findMethodWithin m selector nil hops cls = .error (.endlessChain start)) :
    ∃ path : List Value, path.length = hops ∧ (∀ c ∈ path.head?, c = cls) ∧
      List.IsChain (fun a b => Superclass m nil b a) path ∧ ∀ c ∈ path, m.isLive c = true := by
  induction hops generalizing cls with
  | zero => exact ⟨[], rfl, by simp, .nil, by simp⟩
  | succ hops ih =>
    unfold findMethodWithin at h
    by_cases hnil : cls = nil
    · rw [if_pos hnil] at h
      exact absurd h (by simp)
    · rw [if_neg hnil] at h
      rcases bind_error.1 h with hfield | ⟨dictionary, -, h⟩
      · exact absurd hfield Memory.field_ne_endlessChain
      rcases bind_error.1 h with hfind | ⟨found, -, h⟩
      · exact absurd hfind Dictionary.find_ne_endlessChain
      cases found with
      | some method => exact absurd h pure_ne_error
      | none =>
        rcases bind_error.1 h with hfield | ⟨superclass, hsuper, h⟩
        · exact absurd hfield Memory.field_ne_endlessChain
        obtain ⟨path, hlength, hhead, hchain, hlive⟩ := ih h
        refine ⟨cls :: path, by rw [List.length_cons, hlength], by simp, ?_, ?_⟩
        · refine List.isChain_cons.2 ⟨fun c hc => ?_, hchain⟩
          rw [hhead c hc]
          exact ⟨hnil, hsuper⟩
        · exact List.forall_mem_cons.2 ⟨Memory.isLive_of_field hsuper, hlive⟩

/-- A class whose chain ends is not among the classes above it. -/
theorem FiniteChain.not_above (hcls : FiniteChain m nil cls) :
    ¬ Relation.TransGen (Superclass m nil) cls cls := by
  intro habove
  induction acc_transGen_iff.2 hcls with
  | intro cls _ ih => exact ih cls habove (hcls.inv_of_transGen habove) habove

/-- A superclass chain that ends meets no class twice. -/
theorem FiniteChain.nodup {path : List Value} (hcls : ∀ c ∈ path.head?, FiniteChain m nil c)
    (h : List.IsChain (fun a b => Superclass m nil b a) path) : path.Nodup := by
  let above : Value → Value → Prop := fun a b => Relation.TransGen (Superclass m nil) b a
  have htrans : Trans above above above := ⟨fun hab hbc => hbc.trans hab⟩
  induction path with
  | nil => exact List.nodup_nil
  | cons cls rest ih =>
    have hends : FiniteChain m nil cls := hcls cls rfl
    obtain ⟨hlink, hrest⟩ := List.isChain_cons.1 h
    refine List.nodup_cons.2 ⟨fun hmem => hends.not_above ?_, ih (fun c hc => hends.inv (hlink c hc)) hrest⟩
    have habove : List.IsChain above (cls :: rest) := h.imp fun a b hab => .single hab
    exact (List.pairwise_cons.1 (List.isChain_iff_pairwise.1 habove)).1 cls hmem

/-- A search along a chain that ends is not cut off. -/
theorem findMethod_ne_endlessChain (hcls : FiniteChain m nil cls) {start : Value} :
    findMethod m cls selector nil ≠ .error (.endlessChain start) := by
  intro h
  obtain ⟨path, hlength, hhead, hchain, hlive⟩ := findMethodWithin_endless h
  have hnodup := FiniteChain.nodup (fun c hc => (hhead c hc).symm ▸ hcls) hchain
  have hle := Memory.length_le_of_isLive hnodup hlive
  omega

theorem lookupEntry_ne_endlessChain (hcls : FiniteChain m nil cls) {start : Value} :
    lookupEntry m cls selector nil ≠ .error (.endlessChain start) := by
  intro h
  rcases bind_error.1 h with hfind | ⟨found, -, h⟩
  · exact findMethod_ne_endlessChain hcls hfind
  cases found with
  | none => exact pure_ne_error h
  | some method =>
    rcases bind_error.1 h with hheader | ⟨header, -, h⟩
    · unfold MethodHeader.of at hheader
      split at hheader
      · exact absurd hheader (by simp)
      · split at hheader
        · exact absurd hheader (by simp)
        · exact absurd hheader (by simp)
    · exact pure_ne_error h

/-- A dictionary whose keys do not include a selector has no method for it. -/
theorem Dictionary.find_eq_none {dictionary : Value} {o : Object} (ho : m.get? dictionary = some o)
    (hkeys : ∀ i, o.pointers[i + keyStart]? ≠ some selector) :
    Dictionary.find m dictionary selector nil = .ok none := by
  unfold Dictionary.find
  rw [ho]
  dsimp only
  split
  · rfl
  · rename_i i hi
    obtain ⟨hnil, hkey⟩ := search_some hi
    cases hp : o.pointers[i + keyStart]? with
    | none =>
      rw [hp] at hnil
      exact absurd rfl hnil
    | some x =>
      rw [hp] at hkey
      exact absurd (hp.trans (congrArg some hkey)) (hkeys i)

/-! ### Entries -/

namespace MethodCache

variable {c : MethodCache} {P : CacheEntry → Prop} {e : CacheEntry} {place : Nat}

/-- Whether every entry of a cache satisfies `P`. -/
def All (P : CacheEntry → Prop) (c : MethodCache) : Prop :=
  ∀ place e, c.entry place = some e → P e

theorem entry_eq_some : c.entry place = some e ↔ c.entries[place]? = some (some e) := by
  rw [entry, Option.join_eq_some_iff]

theorem entry_replicate (h : c.entries = Array.replicate capacity none) : c.entry place = none := by
  rw [entry, h, Array.getElem?_replicate]
  split <;> rfl

theorem all_empty : All P empty := by
  intro place e he
  rw [entry_replicate rfl] at he
  exact absurd he (by simp)

theorem all_clear : All P c.clear := by
  intro place e he
  rw [entry_replicate rfl] at he
  exact absurd he (by simp)

/-- An entry that is left was there before and was not to be forgotten. -/
theorem entry_forget {p : CacheEntry → Bool} (h : (c.forget p).entry place = some e) :
    c.entry place = some e ∧ p e = false := by
  rw [entry_eq_some, forget, Array.getElem?_map] at h
  obtain ⟨old, hold, he⟩ := Option.map_eq_some_iff.1 h
  obtain ⟨rfl, hp⟩ := Option.filter_eq_some_iff.1 he
  exact ⟨entry_eq_some.2 hold, by simpa using hp⟩

theorem All.forget {p : CacheEntry → Bool} (h : All P c) : All P (c.forget p) := fun place e he =>
  h place e (entry_forget he).1

/-- Installing changes one place at most. -/
theorem entry_install {new : CacheEntry} {selectorHash classHash : UInt16}
    (h : (c.install new selectorHash classHash).entry place = some e) :
    e = new ∨ c.entry place = some e := by
  unfold install at h
  dsimp only at h
  split at h
  · rename_i target htarget
    rw [entry_eq_some, Array.getElem?_setIfInBounds] at h
    split at h
    · split at h
      · exact .inl (Option.some.inj (Option.some.inj h)).symm
      · exact absurd h (by simp)
    · exact .inr (entry_eq_some.2 h)
  · exact .inr h

theorem All.install {selectorHash classHash : UInt16} (h : All P c) (he : P e) :
    All P (c.install e selectorHash classHash) := by
  intro place e' he'
  rcases entry_install he' with rfl | hold
  · exact he
  · exact h place e' hold

/-- What is found is an entry for the selector and the class asked for, wherever it stands. -/
theorem find_some {selectorHash classHash : UInt16}
    (h : c.find selector selectorHash cls classHash = some e) :
    e.selector = selector ∧ e.cls = cls ∧ ∃ place, c.entry place = some e := by
  have hkey := List.find?_some h
  rw [Bool.and_eq_true, beq_iff_eq, beq_iff_eq] at hkey
  obtain ⟨place, -, hplace⟩ := List.mem_filterMap.1 (List.mem_of_find?_eq_some h)
  exact ⟨hkey.1, hkey.2, place, hplace⟩

end MethodCache

/-! ### Runs -/

/-- What a cache may be asked for. -/
inductive CacheRequest where
  | lookup (cls selector : Value)
  | clear
  | flushSelector (selector : Value)
  | flushMethod (method : Value)
  deriving DecidableEq

/-- What a lookup answers: an entry, that there is no method, or a fault. -/
abbrev LookupAnswer := Except Fault (Option CacheEntry)

namespace CacheRequest

/-- A lookup with the cache. -/
def lookedUp (m : Memory) (nil cls selector : Value) (c : MethodCache) :
    LookupAnswer × MethodCache :=
  match cachedLookup m cls selector nil c with
  | .ok answer c => (.ok answer, c)
  | .error fault c => (.error fault, c)

/-- The answers that a sequence of requests gets, and the cache it leaves. -/
def run (m : Memory) (nil : Value) : List CacheRequest → MethodCache → List LookupAnswer × MethodCache
  | [], c => ([], c)
  | lookup cls selector :: rest, c =>
    let (answer, c) := lookedUp m nil cls selector c
    let (answers, c) := run m nil rest c
    (answer :: answers, c)
  | clear :: rest, c => run m nil rest c.clear
  | flushSelector selector :: rest, c => run m nil rest (c.flushSelector selector)
  | flushMethod method :: rest, c => run m nil rest (c.flushMethod method)

/-- What a search without any cache answers. -/
def searched (m : Memory) (nil : Value) : CacheRequest → Option LookupAnswer
  | lookup cls selector => some (lookupEntry m cls selector nil)
  | _ => none

/-- Whether the superclass chain of the class of a lookup ends. -/
def Ends (m : Memory) (nil : Value) : CacheRequest → Prop
  | lookup cls _ => FiniteChain m nil cls
  | _ => True

/-- Whether the class of a lookup is an object. -/
def Asks (m : Memory) : CacheRequest → Prop
  | lookup cls _ => m.isLive cls = true
  | _ => True

instance (m : Memory) : DecidablePred (Asks m)
  | lookup cls _ => inferInstanceAs (Decidable (m.isLive cls = true))
  | clear => .isTrue trivial
  | flushSelector _ => .isTrue trivial
  | flushMethod _ => .isTrue trivial

end CacheRequest

/-- Whether an entry is what a search in `m` gives for its selector and class. -/
def CacheEntry.Answers (m : Memory) (nil : Value) (e : CacheEntry) : Prop :=
  lookupEntry m e.cls e.selector nil = .ok (some e)

theorem lookupEntry_some {e : CacheEntry} (h : lookupEntry m cls selector nil = .ok (some e)) :
    e.cls = cls ∧ e.selector = selector := by
  obtain ⟨found, -, h⟩ := bind_ok.1 h
  cases found with
  | none => exact absurd (pure_ok.1 h) (by simp)
  | some method =>
    obtain ⟨header, -, h⟩ := bind_ok.1 h
    obtain rfl := Option.some.inj (pure_ok.1 h)
    exact ⟨rfl, rfl⟩

namespace CacheRequest

open MethodCache

variable {c : MethodCache} {P : CacheEntry → Prop}

/-- A lookup answers what a search does, and remembers nothing else. -/
theorem lookedUp_eq (hlive : m.isLive cls = true)
    (hc : All (fun e => m.isLive e.cls = true → e.Answers m nil) c) :
    (lookedUp m nil cls selector c).1 = lookupEntry m cls selector nil := by
  obtain ⟨o, ho⟩ := Memory.isLive_iff.1 hlive
  unfold lookedUp cachedLookup
  simp only [ho, MethodCache.probe]
  cases hfind : c.find selector (Dictionary.selectorHash m selector) cls o.hash with
  | some e =>
    obtain ⟨rfl, rfl, place, hplace⟩ := find_some hfind
    exact (hc place e hplace hlive).symm
  | none =>
    simp only
    cases lookupEntry m cls selector nil with
    | error fault => rfl
    | ok found =>
      cases found with
      | none => rfl
      | some e => rfl

theorem all_lookedUp (cls selector : Value)
    (hP : ∀ e, m.isLive e.cls = true → e.Answers m nil → P e) (hc : All P c) :
    All P (lookedUp m nil cls selector c).2 := by
  unfold lookedUp cachedLookup
  cases ho : m.get? cls with
  | none => exact hc
  | some o =>
    simp only [MethodCache.probe]
    cases hfind : c.find selector (Dictionary.selectorHash m selector) cls o.hash with
    | some e => exact hc
    | none =>
      simp only
      cases hentry : lookupEntry m cls selector nil with
      | error fault => exact hc
      | ok found =>
        cases found with
        | none => exact hc
        | some e =>
          obtain ⟨rfl, rfl⟩ := lookupEntry_some hentry
          exact All.install hc (hP e (Memory.isLive_of_get? ho) hentry)

/-- What holds of all entries and of every answer of a search still holds after a run. -/
theorem all_run (hP : ∀ e, m.isLive e.cls = true → e.Answers m nil → P e) (hc : All P c)
    (requests : List CacheRequest) : All P (run m nil requests c).2 := by
  induction requests generalizing c with
  | nil => exact hc
  | cons r rest ih =>
    cases r with
    | lookup cls selector => exact ih (all_lookedUp cls selector hP hc)
    | clear => exact ih all_clear
    | flushSelector selector => exact ih hc.forget
    | flushMethod method => exact ih hc.forget

/-- A run answers what searches do, one for each lookup. -/
theorem run_eq {requests : List CacheRequest} (hasks : ∀ r ∈ requests, r.Asks m)
    (hc : All (fun e => m.isLive e.cls = true → e.Answers m nil) c) :
    (run m nil requests c).1 = requests.filterMap (searched m nil) := by
  induction requests generalizing c with
  | nil => rfl
  | cons r rest ih =>
    have hrest := fun r' hr' => hasks r' (List.mem_cons_of_mem r hr')
    cases r with
    | lookup cls selector =>
      have hlive : m.isLive cls = true := hasks _ List.mem_cons_self
      have hrun := ih hrest (all_lookedUp cls selector (fun _ _ he _ => he) hc)
      simp only [run, List.filterMap_cons, searched, lookedUp_eq hlive hc, hrun]
    | clear => exact ih hrest all_clear
    | flushSelector selector => exact ih hrest hc.forget
    | flushMethod method => exact ih hrest hc.forget

theorem searched_ne_endlessChain {requests : List CacheRequest} (hends : ∀ r ∈ requests, r.Ends m nil)
    {start : Value} : .error (.endlessChain start) ∉ requests.filterMap (searched m nil) := by
  intro hmem
  obtain ⟨r, hrequest, hr⟩ := List.mem_filterMap.1 hmem
  cases r with
  | lookup cls selector =>
    exact lookupEntry_ne_endlessChain (hends _ hrequest) (Option.some.inj hr)
  | clear => exact absurd hr (by simp [searched])
  | flushSelector selector => exact absurd hr (by simp [searched])
  | flushMethod method => exact absurd hr (by simp [searched])

/-- Flushing selectors leaves no entry for any of them. -/
theorem all_flushed (hc : All P c) (selectors : List Value) :
    All (fun e => P e ∧ e.selector ∉ selectors)
      (run m nil (selectors.map flushSelector) c).2 := by
  induction selectors generalizing c P with
  | nil => exact fun place e he => ⟨hc place e he, List.not_mem_nil⟩
  | cons selector rest ih =>
    have hforget : All (fun e => P e ∧ e.selector ≠ selector) (c.flushSelector selector) := by
      intro place e he
      obtain ⟨hold, hp⟩ := entry_forget he
      exact ⟨hc place e hold, by simpa using hp⟩
    intro place e he
    obtain ⟨⟨hPe, hne⟩, hmem⟩ := ih hforget place e he
    exact ⟨hPe, List.not_mem_cons_of_ne_of_not_mem hne hmem⟩

/-- The cache answers what a search does. After a change of the memory it does so again as soon as the
selectors whose answers have changed are flushed. No search is cut off if the chains of the classes
that are looked up end. -/
theorem run_coherent {before after : List CacheRequest} (hbefore : ∀ r ∈ before, r.Asks m)
    (hafter : ∀ r ∈ after, r.Asks m') (changed : List Value)
    (hsame : ∀ cls selector, m.isLive cls = true → m'.isLive cls = true → selector ∉ changed →
      lookupEntry m' cls selector nil = lookupEntry m cls selector nil) :
    let first := run m nil before .empty
    let flushed := (run m' nil (changed.map flushSelector) first.2).2
    let second := run m' nil after flushed
    first.1 = before.filterMap (searched m nil) ∧ second.1 = after.filterMap (searched m' nil) ∧
      ((∀ r ∈ before, r.Ends m nil) → ∀ start, .error (.endlessChain start) ∉ first.1) ∧
      ((∀ r ∈ after, r.Ends m' nil) → ∀ start, .error (.endlessChain start) ∉ second.1) := by
  intro first flushed second
  have hfirst : first.1 = before.filterMap (searched m nil) := run_eq hbefore all_empty
  have hentries : All (fun e => m.isLive e.cls = true ∧ e.Answers m nil) first.2 :=
    all_run (fun e hlive he => ⟨hlive, he⟩) all_empty before
  have hflushed : All (fun e => m'.isLive e.cls = true → e.Answers m' nil) flushed := by
    intro place e he hlive'
    obtain ⟨⟨hlive, hanswers⟩, hselector⟩ := all_flushed hentries changed place e he
    rw [CacheEntry.Answers, hsame _ _ hlive hlive' hselector]
    exact hanswers
  have hsecond : second.1 = after.filterMap (searched m' nil) := run_eq hafter hflushed
  refine ⟨hfirst, hsecond, fun hends start => ?_, fun hends start => ?_⟩
  · rw [hfirst]
    exact searched_ne_endlessChain hends
  · rw [hsecond]
    exact searched_ne_endlessChain hends

/-! ### A class with one method -/

/-- Nil, two methods, a selector, and a class that has `found` as its method for the selector. -/
def shelf (found : Value) : Memory :=
  let method (primitive : Nat) :=
    Object.ofMethod (.small 0) #[.small (MethodHeader.encode 0 0 0 false primitive).word] #[120]
  let objects := [
    .ofPointers (.small 0) .empty #[], method 5, method 600, .ofBytes (.small 0) #[97],
    .ofPointers (.small 0) .indexable #[found],
    .ofPointers (.small 0) .fixedIndexable #[.small 1, .ref 4 0, .ref 3 0],
    .ofPointers (.small 0) .fixed #[.ref 0 0, .ref 5 0, .small 0]]
  objects.foldl (fun m o => (m.place o).2) (.empty .standard)

example : lookupEntry (shelf (.ref 2 0)) (.ref 6 0) (.ref 3 0) (.ref 0 0) =
    .ok (some ⟨.ref 3 0, .ref 6 0, .ref 2 0, 600⟩) := by decide

theorem get?_shelf {found : Value} {o : Object} (h : (shelf found).get? cls = some o) :
    cls ∈ [.ref 0 0, .ref 1 0, .ref 2 0, .ref 3 0, .ref 4 0, .ref 5 0, .ref 6 0] := by
  obtain ⟨index, generation, slot, rfl, hs, hg, -⟩ := Memory.get?_eq_some.1 h
  have hlt : index.toNat < 7 := (Array.getElem?_eq_some_iff.1 hs).1
  have hzero : ∀ slot ∈ (shelf found).slots, slot.generation = 0 := by
    simp [shelf, Memory.place, Memory.empty]
  rw [hzero slot (Array.mem_of_getElem? hs)] at hg
  obtain rfl : generation = 0 := BitVec.eq_of_toNat_eq hg.symm
  obtain ⟨i, hi⟩ : ∃ i : Fin 7, index = UInt32.ofNat i := ⟨⟨index.toNat, hlt⟩, by simp⟩
  subst hi
  fin_cases i <;> decide

/-- The first fields of the objects point backwards. -/
theorem ends_shelf {found : Value} (hfound : found = .ref 1 0 ∨ found = .ref 2 0) (r : CacheRequest) :
    r.Ends (shelf found) (.ref 0 0) := by
  let rank : Value → Nat
    | .small _ => 0
    | .ref index _ => index.toNat + 1
  have hlower : ∀ cls ∈ [Value.ref 0 0, .ref 1 0, .ref 2 0, .ref 3 0, .ref 4 0, .ref 5 0, .ref 6 0],
      ∀ o, (shelf found).get? cls = some o → ∀ x, o.pointers[0]? = some x → rank x < rank cls := by
    rcases hfound with rfl | rfl
    · decide
    · decide
  suffices hchains : WellFounded (Superclass (shelf found) (.ref 0 0)) by
    cases r with
    | lookup cls selector => exact hchains.apply cls
    | clear => trivial
    | flushSelector selector => trivial
    | flushMethod method => trivial
  refine Subrelation.wf (r := InvImage (· < ·) rank) (fun {x cls} h => ?_)
    (InvImage.wf rank Nat.lt_wfRel.wf)
  obtain ⟨o, ho⟩ := Memory.isLive_iff.1 (Memory.isLive_of_field h.2)
  have hsuper := h.2
  simp only [Memory.field, ho] at hsuper
  split at hsuper
  · rename_i y hy
    obtain rfl := Except.ok.inj hsuper
    exact hlower cls (get?_shelf ho) o ho y hy
  · exact absurd hsuper (by simp)

/-- Only the answer for the selector depends on the method. -/
theorem lookupEntry_shelf {found found' : Value} (hlive : (shelf found).isLive cls = true)
    (hselector : selector ≠ .ref 3 0) :
    lookupEntry (shelf found') cls selector (.ref 0 0) =
      lookupEntry (shelf found) cls selector (.ref 0 0) := by
  have hclass : ∀ v, findMethod (shelf v) (.ref 6 0) selector (.ref 0 0) = .ok none := by
    intro v
    have hnone : Dictionary.find (shelf v) (.ref 5 0) selector (.ref 0 0) = .ok none := by
      refine Dictionary.find_eq_none rfl fun i hi => ?_
      match i with
      | 0 => exact hselector (Option.some.inj hi).symm
      | i + 1 => exact absurd hi (by simp [Object.ofPointers, Dictionary.keyStart])
    change (Dictionary.find (shelf v) (.ref 5 0) selector (.ref 0 0) >>= _) = _
    rw [hnone]
    rfl
  -- a dictionary in the place of a class
  have hdictionary : ∀ v, findMethod (shelf v) (.ref 5 0) selector (.ref 0 0) =
      .error (.invalidReference (.small 1)) := by
    intro v
    have hnone : Dictionary.find (shelf v) (.ref 4 0) selector (.ref 0 0) = .ok none :=
      Dictionary.find_eq_none rfl fun i hi => absurd hi (by simp [Object.ofPointers, Dictionary.keyStart])
    change (Dictionary.find (shelf v) (.ref 4 0) selector (.ref 0 0) >>= _) = _
    rw [hnone]
    rfl
  obtain ⟨o, ho⟩ := Memory.isLive_iff.1 hlive
  have hmem := get?_shelf ho
  simp only [List.mem_cons, List.not_mem_nil, or_false] at hmem
  rcases hmem with rfl | rfl | rfl | rfl | rfl | rfl | rfl
  · rfl
  · rfl
  · rfl
  · rfl
  · rfl
  · rw [lookupEntry, lookupEntry, hdictionary, hdictionary]
    rfl
  · rw [lookupEntry, lookupEntry, hclass, hclass]
    rfl

/-- The method of the class is found, remembered, replaced by another one with another primitive,
flushed and found anew. -/
theorem run_coherent_shelf :
    let before : List CacheRequest := [.lookup (.ref 6 0) (.ref 3 0), .lookup (.ref 6 0) (.ref 3 0),
      .lookup (.ref 6 0) (.small 7), .flushMethod (.ref 2 0), .lookup (.ref 1 0) (.ref 3 0)]
    let after : List CacheRequest := [.lookup (.ref 6 0) (.ref 3 0), .clear,
      .lookup (.ref 6 0) (.ref 3 0)]
    let first := run (shelf (.ref 1 0)) (.ref 0 0) before .empty
    let flushed := (run (shelf (.ref 2 0)) (.ref 0 0) ([.ref 3 0].map flushSelector) first.2).2
    let second := run (shelf (.ref 2 0)) (.ref 0 0) after flushed
    (before.filterMap (searched (shelf (.ref 1 0)) (.ref 0 0)) = [
        .ok (some ⟨.ref 3 0, .ref 6 0, .ref 1 0, 5⟩), .ok (some ⟨.ref 3 0, .ref 6 0, .ref 1 0, 5⟩),
        .ok none, .error (.malformed .lookupStructure (.ref 1 0))] ∧
      after.filterMap (searched (shelf (.ref 2 0)) (.ref 0 0)) = [
        .ok (some ⟨.ref 3 0, .ref 6 0, .ref 2 0, 600⟩),
        .ok (some ⟨.ref 3 0, .ref 6 0, .ref 2 0, 600⟩)]) ∧
    first.1 = before.filterMap (searched (shelf (.ref 1 0)) (.ref 0 0)) ∧
      second.1 = after.filterMap (searched (shelf (.ref 2 0)) (.ref 0 0)) ∧
      ∀ start, .error (.endlessChain start) ∉ first.1 ++ second.1 := by
  refine ⟨by decide, ?_⟩
  refine And.imp_right (And.imp_right fun ⟨hbefore, hafter⟩ start hmem => ?_) (run_coherent (by decide)
    (by decide) [.ref 3 0] fun cls selector hlive _ hselector =>
      lookupEntry_shelf hlive (List.ne_of_not_mem_cons hselector))
  rcases List.mem_append.1 hmem with hmem | hmem
  · exact hbefore (fun r _ => ends_shelf (.inl rfl) r) start hmem
  · exact hafter (fun r _ => ends_shelf (.inr rfl) r) start hmem

end CacheRequest

end Smalltalk
