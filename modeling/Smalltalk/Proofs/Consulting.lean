import Smalltalk.Proofs.Provision

/-!
# What a lookup reads

A search for a method reads the classes of a superclass chain, their dictionaries and the arrays that
the methods stand in, and of its selector the hash. As long as these objects stay as they are it
answers the same, whatever else happens to the memory. All of them can be reached from the class that
the search starts at, and so can the method that it finds.
-/

namespace Smalltalk

variable {memory memory' : Memory} {nil selector cls v x : Value} {found : Option Value}
  {hops hops' : Nat}

/-- What a search that starts at a class reads. -/
inductive Memory.Consults (memory : Memory) (nil : Value) : Value → Value → Prop
  | cls {c : Value} : c ≠ nil → Consults memory nil c c
  | dictionary {c d : Value} : c ≠ nil → memory.cell c Class.dictionary = some d →
      Consults memory nil c d
  | methods {c d methods : Value} : c ≠ nil → memory.cell c Class.dictionary = some d →
      memory.cell d Dictionary.methods = some methods → Consults memory nil c methods
  | superclass {c super w : Value} : c ≠ nil → memory.cell c Class.superclass = some super →
      Consults memory nil super w → Consults memory nil c w

/-- From a class without a superclass a search reads this class, its dictionary and the array of
methods. -/
theorem Memory.Consults.of_root (h : memory.Consults nil cls v)
    (root : memory.cell cls Class.superclass = some nil) :
    v = cls ∨ ∃ d, memory.cell cls Class.dictionary = some d ∧
      (v = d ∨ memory.cell d Dictionary.methods = some v) := by
  cases h with
  | cls => exact .inl rfl
  | dictionary _ hd => exact .inr ⟨_, hd, .inl rfl⟩
  | methods _ hd ha => exact .inr ⟨_, hd, .inr ha⟩
  | superclass _ hsuper hv =>
    obtain rfl := Option.some.inj (root.symm.trans hsuper)
    cases hv <;> contradiction

/-! ### The same answer -/

theorem Memory.field_congr {flaw : Flaw} {i : Nat} (h : memory'.get? v = memory.get? v) :
    memory'.field flaw v i = memory.field flaw v i := by
  rw [Memory.field, h, Memory.field]

theorem Dictionary.find_congr {dictionary : Value}
    (same : memory'.get? dictionary = memory.get? dictionary)
    (methods : ∀ array, memory.cell dictionary Dictionary.methods = some array →
      memory'.get? array = memory.get? array)
    (hash : selectorHash memory' selector = selectorHash memory selector) :
    find memory' dictionary selector nil = find memory dictionary selector nil := by
  unfold find
  rw [same]
  cases ho : memory.get? dictionary with
  | none => rfl
  | some o =>
    simp only [hash, Memory.field_congr same]
    cases hsearch : search (fun i => (o.pointers[i + keyStart]?).getD nil) selector nil
        (probes (startFor (selectorHash memory selector).toNat (o.pointers.size - keyStart))
          (o.pointers.size - keyStart)) with
    | none => rfl
    | some i =>
      cases harray : memory.field .lookupStructure dictionary Dictionary.methods with
      | error fault => rfl
      | ok array =>
        refine congrArg (some <$> ·) (Memory.field_congr (methods array ?_))
        exact Action.field_ok.1 harray

/-- What is not read does not matter, and neither does how many more links may be followed. -/
theorem findMethodWithin_congr
    (hash : Dictionary.selectorHash memory' selector = Dictionary.selectorHash memory selector)
    (same : ∀ v, memory.Consults nil cls v → memory'.get? v = memory.get? v) (hle : hops ≤ hops')
    (h : findMethodWithin memory selector nil hops cls = .ok found) :
    findMethodWithin memory' selector nil hops' cls = .ok found := by
  induction hops generalizing cls hops' with
  | zero =>
    unfold findMethodWithin at h ⊢
    by_cases hnil : cls = nil
    · rw [if_pos hnil] at h ⊢
      exact h
    · rw [if_neg hnil] at h
      cases h
  | succ hops ih =>
    unfold findMethodWithin at h ⊢
    by_cases hnil : cls = nil
    · rw [if_pos hnil] at h ⊢
      exact h
    · rw [if_neg hnil] at h ⊢
      obtain ⟨hops', rfl⟩ := Nat.exists_eq_add_of_lt hle
      obtain ⟨dictionary, hdictionary, h⟩ := Checked.bind_ok.1 h
      obtain ⟨answer, hfind, h⟩ := Checked.bind_ok.1 h
      have hcell := Action.field_ok.1 hdictionary
      refine Checked.bind_ok.2 ⟨dictionary, ?_, Checked.bind_ok.2 ⟨answer, ?_, ?_⟩⟩
      · rw [Memory.field_congr (same cls (.cls hnil)), hdictionary]
      · rw [Dictionary.find_congr (same _ (.dictionary hnil hcell))
          (fun array harray => same array (.methods hnil hcell harray)) hash, hfind]
      · cases answer with
        | some method => exact h
        | none =>
          obtain ⟨superclass, hsuper, h⟩ := Checked.bind_ok.1 h
          refine Checked.bind_ok.2 ⟨superclass, ?_, ?_⟩
          · rw [Memory.field_congr (same cls (.cls hnil)), hsuper]
          · exact ih (fun v hv => same v (.superclass hnil (Action.field_ok.1 hsuper) hv)) (by omega) h

theorem findMethod_congr
    (hash : Dictionary.selectorHash memory' selector = Dictionary.selectorHash memory selector)
    (same : ∀ v, memory.Consults nil cls v → memory'.get? v = memory.get? v)
    (hsize : memory.slots.size ≤ memory'.slots.size)
    (h : findMethod memory cls selector nil = .ok found) :
    findMethod memory' cls selector nil = .ok found :=
  findMethodWithin_congr hash same (Nat.succ_le_succ hsize) h

/-! ### What is found -/

/-- A method stands in one of the arrays that are read. -/
theorem findMethodWithin_some {method : Value}
    (h : findMethodWithin memory selector nil hops cls = .ok (some method)) :
    ∃ array i, memory.Consults nil cls array ∧ memory.cell array i = some method := by
  induction hops generalizing cls with
  | zero =>
    unfold findMethodWithin at h
    split at h <;> cases h
  | succ hops ih =>
    unfold findMethodWithin at h
    by_cases hnil : cls = nil
    · rw [if_pos hnil] at h
      cases h
    · rw [if_neg hnil] at h
      obtain ⟨dictionary, hdictionary, h⟩ := Checked.bind_ok.1 h
      obtain ⟨answer, hfind, h⟩ := Checked.bind_ok.1 h
      cases answer with
      | none =>
        obtain ⟨superclass, hsuper, h⟩ := Checked.bind_ok.1 h
        obtain ⟨array, i, hconsults, hcell⟩ := ih h
        exact ⟨array, i, .superclass hnil (Action.field_ok.1 hsuper) hconsults, hcell⟩
      | some method' =>
        obtain rfl := Option.some.inj (Checked.pure_ok.1 h)
        unfold Dictionary.find at hfind
        split at hfind
        · cases hfind
        · dsimp only at hfind
          split at hfind
          · cases hfind
          · rename_i i _
            obtain ⟨array, harray, hfind⟩ := Checked.bind_ok.1 hfind
            cases hmethod : memory.field .lookupStructure array i with
            | error fault =>
              rw [hmethod] at hfind
              cases hfind
            | ok x =>
              rw [hmethod] at hfind
              obtain rfl := Option.some.inj (Except.ok.inj hfind)
              exact ⟨array, i, .methods hnil (Action.field_ok.1 hdictionary) (Action.field_ok.1 harray),
                Action.field_ok.1 hmethod⟩

namespace Machine

variable {m : Machine}

theorem Closed.moored_consults (h : m.Closed) (hcls : m.Moored cls)
    (hv : m.memory.Consults nil cls v) : m.Moored v := by
  induction hv with
  | cls => exact hcls
  | dictionary _ hd => exact h.moored_cell hcls hd
  | methods _ hd ha => exact h.moored_cell (h.moored_cell hcls hd) ha
  | superclass _ hs _ ih => exact ih (h.moored_cell hcls hs)

theorem Closed.moored_findMethod {method : Value} (h : m.Closed) (hcls : m.Moored cls)
    (hfound : findMethod m.memory cls selector nil = .ok (some method)) : m.Moored method := by
  obtain ⟨array, i, hconsults, hcell⟩ := findMethodWithin_some hfound
  exact h.moored_cell (h.moored_consults hcls hconsults) hcell

end Machine

theorem lookupEntry_of {method : Value} {header : MethodHeader}
    (hfound : findMethod memory cls selector nil = .ok (some method))
    (headed : MethodHeader.of memory method = .ok header) :
    lookupEntry memory cls selector nil = .ok (some ⟨selector, cls, method, header.primitive⟩) :=
  Checked.bind_ok.2 ⟨_, hfound, Checked.bind_ok.2 ⟨header, headed, rfl⟩⟩

/-! ### Lookups that fail -/

namespace Action

variable {m : Machine}

/-- A search that finds no method is made if the cache has nothing for the selector and the class. -/
theorem lookup_none (live : m.memory.isLive cls = true)
    (hnone : findMethod m.memory cls selector m.specials.nil = .ok none)
    (hcache : m.methodCache.All fun e => e.selector = selector → e.cls ≠ cls) :
    lookup selector cls m = .ok none { m with
      methodCache := { m.methodCache with misses := m.methodCache.misses + 1 } } := by
  obtain ⟨o, ho⟩ := Memory.isLive_iff.1 live
  have hentry : lookupEntry m.memory cls selector m.specials.nil = .ok none := by
    rw [lookupEntry, hnone]
    rfl
  unfold lookup cachedLookup
  simp only [ho, MethodCache.probe]
  cases hfind : m.methodCache.find selector (Dictionary.selectorHash m.memory selector) cls o.hash with
  | some e =>
    obtain ⟨hselector, hcls, place, hplace⟩ := MethodCache.find_some hfind
    exact absurd hcls (hcache place e hplace hselector)
  | none =>
    simp only [hentry]

end Action

end Smalltalk
