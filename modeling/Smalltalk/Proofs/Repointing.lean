import Smalltalk.Proofs.Detours
import Smalltalk.Proofs.Renaming

/-!
# What points to an exchanged object

An exchange renames whatever points to one of its objects. Two things depend on more than that. A class
has to be an object, and the old values of a renaming are checked to be references but the new ones are
not: only if the values are exchanged both ways is each new value an old one too. And the registers are
a copy of what the active context says. They are renamed like everything else, but if the context, its
home or its method is another object now, then what was copied out of the object stays behind.
-/

namespace Smalltalk

namespace Renaming

variable {source target : List Value} {twoWay : Bool} {names : Renaming} {v : Value}

/-- What a renaming of paired lists does to a value. -/
theorem pairs_of_ofLists (h : ofLists source target twoWay = .ok names) :
    Pairs source target twoWay names.apply := by
  obtain ⟨hpairable, rfl⟩ := ofLists_ok.1 h
  exact apply_entries hpairable

/-- Integers have no names. -/
theorem apply_small (h : ofLists source target twoWay = .ok names) (n : Int) :
    names.apply (.small n) = .small n := by
  refine (pairs_of_ofLists h).other _ fun hold => ?_
  exact absurd ((ofLists_ok.1 h).1.references _ hold) (by simp [Value.isReference])

/-- A value that is renamed has a partner in the other list. -/
theorem apply_mem (h : ofLists source target twoWay = .ok names) (v : Value) :
    names.apply v = v ∨ names.apply v ∈ source ++ target := by
  rcases Machine.apply_eq_or_mem names v with e | ⟨p, hp, e⟩
  · exact .inl e
  · exact .inr (e ▸ Machine.mem_of_ofLists h p hp)

variable (references : ∀ v ∈ source ++ target, v.isReference = true)

include references

/-- Between lists of references, only an integer becomes an integer. -/
theorem apply_eq_small (h : ofLists source target twoWay = .ok names) {n : Int} :
    names.apply v = .small n ↔ v = .small n := by
  constructor
  · intro e
    rcases apply_mem h v with he | hmem
    · rw [← he, e]
    · rw [e] at hmem
      exact absurd (references _ hmem) (by simp [Value.isReference])
  · rintro rfl
    exact apply_small h n

theorem isSmall_apply (h : ofLists source target twoWay = .ok names) (v : Value) :
    (names.apply v).isSmall = v.isSmall := by
  cases v with
  | small n => rw [apply_small h]
  | ref index generation =>
    cases hv : names.apply (.ref index generation) with
    | small n => exact absurd ((apply_eq_small references h).1 hv) (by simp)
    | ref index' generation' => rfl

end Renaming

namespace Memory

open Renaming

variable {m m' : Memory} {source target : List Value} {twoWay : Bool} {names : Renaming} {v x : Value}
  {i : Nat}

theorem isLive_rename (m : Memory) (names : Renaming) (v : Value) :
    (m.rename names).isLive v = m.isLive v := by
  rw [isLive, Machine.get?_rename, Option.isSome_map, isLive]

theorem cell_rename (m : Memory) (names : Renaming) (v : Value) (i : Nat) :
    (m.rename names).cell v i = (m.cell v i).map names.apply := by
  rw [cell, Machine.get?_rename, cell]
  cases m.get? v with
  | none => rfl
  | some o => simp [applyObject]

/-! ### Classes -/

/-- Every class is an object. -/
def Classed (m : Memory) : Prop := ∀ v o, m.get? v = some o → m.isLive o.cls = true

/-- No pointer field holds a stale reference. -/
def Pointed (m : Memory) : Prop := ∀ v o, m.get? v = some o → ∀ x ∈ o.pointers, m.Resolves x

theorem Pointed.rename (h : m.Pointed) (hnames : ofLists source target twoWay = .ok names)
    (hlists : ∀ v ∈ source ++ target, m.Resolves v) : (m.rename names).Pointed := by
  intro v o' ho' x' hx'
  rw [Machine.get?_rename] at ho'
  obtain ⟨o, ho, rfl⟩ := Option.map_eq_some_iff.1 ho'
  obtain ⟨x, hx, rfl⟩ := Array.mem_map.1 hx'
  rw [Resolves, isLive_rename]
  rcases apply_mem hnames x with e | hmem
  · rw [e]
    exact h v o ho x hx
  · exact hlists _ hmem

/-- A reference that becomes an integer stands across from it, and the exchange is one-way. -/
theorem exists_pair_of_isSmall (hnames : ofLists source target twoWay = .ok names)
    (hv : v.isSmall = false) (hsmall : (names.apply v).isSmall = true) :
    twoWay = false ∧ (v, names.apply v) ∈ source.zip target := by
  obtain ⟨hpairable, -⟩ := ofLists_ok.1 hnames
  cases twoWay with
  | true =>
    rw [isSmall_apply hpairable.references hnames, hv] at hsmall
    exact absurd hsmall (by simp)
  | false =>
    have hpairs := pairs_of_ofLists hnames
    -- one-way, what is not in `source` keeps its name
    have hold : v ∈ source := by
      by_contra hnot
      rw [hpairs.other v hnot, hv] at hsmall
      exact absurd hsmall (by simp)
    rw [← List.map_fst_zip (Nat.le_of_eq hpairable.length)] at hold
    obtain ⟨p, hp, rfl⟩ := List.mem_map.1 hold
    rw [hpairs.forward p hp]
    exact ⟨rfl, hp⟩

/-- An exchange leaves every class an object exactly if it goes both ways, or no class with an instance
stands across from an integer. No pointer field holds a stale reference afterwards, in either case. -/
theorem become_classes (hclassed : m.Classed) (hpointed : m.Pointed)
    (hlists : ∀ v ∈ source ++ target, m.Resolves v)
    (hbecome : m.become source target twoWay = .ok (names, m')) :
    m'.Pointed ∧ (m'.Classed ↔ twoWay = true ∨
      ∀ p ∈ source.zip target, p.2.isSmall = true → ∀ v o, m.get? v = some o → o.cls ≠ p.1) := by
  obtain ⟨hnames, rfl⟩ := become_ok.1 hbecome
  refine ⟨hpointed.rename hnames hlists, fun h => ?_, fun h v o' ho' => ?_⟩
  · refine or_iff_not_imp_left.2 fun hone p hp hsmall v o ho hcls => ?_
    have hlive := h v (names.applyObject o) (by rw [Machine.get?_rename, ho, Option.map_some])
    have hforward : names.apply o.cls = p.2 := by
      rw [hcls]
      exact (pairs_of_ofLists hnames).forward p hp
    rw [applyObject, hforward] at hlive
    exact absurd (hsmall.symm.trans (isSmall_of_isLive hlive)) (by simp)
  · rw [Machine.get?_rename] at ho'
    obtain ⟨o, ho, rfl⟩ := Option.map_eq_some_iff.1 ho'
    rw [isLive_rename]
    have hlive := hclassed v o ho
    have hcls : m.Resolves (names.apply o.cls) := by
      rcases apply_mem hnames o.cls with e | hmem
      · rw [e]
        exact .inr hlive
      · exact hlists _ hmem
    refine hcls.resolve_left fun hsmall => ?_
    obtain ⟨hone, hpair⟩ := exists_pair_of_isSmall hnames (isSmall_of_isLive hlive) hsmall
    rcases h with htwo | h
    · exact absurd (hone.symm.trans htwo) (by simp)
    · exact h _ hpair hsmall v o ho rfl

end Memory

open Machine (filled wellFormed_filled)
open Scheduling (place)

/-- Nil, a class, and an instance of it that points to it. -/
def rack : Memory :=
  filled (.empty .standard) [.ofPointers (place 0) .empty #[], .ofPointers (place 0) .fixed #[],
    .ofPointers (place 1) .fixed #[.small 3, place 1]]

theorem tabled_rack : rack.Tabled :=
  (wellFormed_filled (Memory.wellFormed_empty _) (by decide +kernel)).toTabled

/-- If the class becomes an integer one-way, its instance has a class no more. -/
theorem become_classes_rack : rack.Classed ∧ rack.Pointed ∧
    (∀ v ∈ [place 1] ++ [.small 5], rack.Resolves v) ∧
    ∃ names m', rack.become [place 1] [.small 5] false = .ok (names, m') ∧ m'.Pointed ∧ ¬ m'.Classed := by
  have hobjects : ∀ v ∈ rack.table.toList, ∀ o ∈ (rack.get? v).toList,
      rack.isLive o.cls = true ∧ ∀ x ∈ o.pointers, rack.Resolves x := by
    decide +kernel
  have hclassed : rack.Classed := fun _ _ ho => (tabled_rack.of_table hobjects ho).1
  have hpointed : rack.Pointed := fun _ _ ho => (tabled_rack.of_table hobjects ho).2
  have hlists : ∀ v ∈ [place 1] ++ [.small 5], rack.Resolves v := by decide +kernel
  have hbecome : rack.become [place 1] [.small 5] false =
      .ok ([(place 1, .small 5)], rack.rename [(place 1, .small 5)]) := rfl
  obtain ⟨hpointed', hclassed'⟩ := Memory.become_classes hclassed hpointed hlists hbecome
  refine ⟨hclassed, hpointed, hlists, _, _, hbecome, hpointed', fun h => ?_⟩
  have hinstance : (rack.get? (place 2)).map Object.cls = some (place 1) := by decide +kernel
  obtain ⟨o, ho, hcls⟩ := Option.map_eq_some_iff.1 hinstance
  rcases hclassed'.1 h with htwo | hnone
  · exact absurd htwo (by decide)
  · exact hnone (place 1, .small 5) (List.mem_singleton_self _) rfl _ o ho hcls

/-! ### Registers -/

/-- Registers agree on what a context determines once and for all. -/
structure Registers.SameFrame (r r' : Registers) : Prop where
  home : r.home = r'.home
  method : r.method = r'.method
  receiver : r.receiver = r'.receiver
  literalCount : r.literalCount = r'.literalCount

/-- The registers hold the frame of their context: a block context takes it from its home. -/
structure Memory.Frames (memory : Memory) (r : Registers) : Prop where
  home : ∃ slot, memory.cell r.context Context.method = some slot ∧
    ((slot.isSmall = true ∧ memory.cell r.context Context.home = some r.home) ∨
      (slot.isSmall = false ∧ r.home = r.context))
  method : memory.cell r.home Context.method = some r.method
  receiver : memory.cell r.home Context.receiver = some r.receiver
  literalCount : ∃ header, MethodHeader.of memory r.method = .ok header ∧
    header.literalCount = r.literalCount

namespace Memory.Frames

variable {memory : Memory} {r r' : Registers} {context : Value}

theorem of_loaded (h : Action.Loaded memory context r) (hcontext : r.context = context) :
    memory.Frames r := by
  subst hcontext
  obtain ⟨header, hheader, hcount⟩ := h.literalCount
  obtain ⟨slot, hslot, ⟨hsmall, hhome, hmethod⟩ | ⟨hsmall, hhome, hmethod⟩⟩ := h.home
  · exact ⟨⟨slot, hslot, .inl ⟨hsmall, hhome⟩⟩, hmethod, h.receiver, header, hheader, hcount.symm⟩
  · refine ⟨⟨slot, hslot, .inr ⟨hsmall, hhome⟩⟩, ?_, h.receiver, header, hheader, hcount.symm⟩
    rw [hhome, hmethod, hslot]

/-- A context has one frame. -/
theorem unique (h : memory.Frames r) (h' : memory.Frames r') (hcontext : r.context = r'.context) :
    r.SameFrame r' := by
  have hhome : r.home = r'.home := by
    obtain ⟨slot, hslot, hkind⟩ := h.home
    obtain ⟨slot', hslot', hkind'⟩ := h'.home
    rw [hcontext] at hslot hkind
    obtain rfl := Option.some.inj (hslot.symm.trans hslot')
    rcases hkind with ⟨hsmall, hhome⟩ | ⟨hsmall, hhome⟩ <;>
      rcases hkind' with ⟨hsmall', hhome'⟩ | ⟨hsmall', hhome'⟩
    · exact Option.some.inj (hhome.symm.trans hhome')
    · exact absurd (hsmall.symm.trans hsmall') (by simp)
    · exact absurd (hsmall.symm.trans hsmall') (by simp)
    · exact hhome.trans hhome'.symm
  have hmethod : r.method = r'.method := by
    have hcell := h.method
    rw [hhome, h'.method] at hcell
    exact (Option.some.inj hcell).symm
  refine ⟨hhome, hmethod, ?_, ?_⟩
  · have hcell := h.receiver
    rw [hhome, h'.receiver] at hcell
    exact (Option.some.inj hcell).symm
  · obtain ⟨header, hheader, hcount⟩ := h.literalCount
    obtain ⟨header', hheader', hcount'⟩ := h'.literalCount
    rw [hmethod, hheader'] at hheader
    obtain rfl := Except.ok.inj hheader
    exact hcount.symm.trans hcount'

theorem sameFrame (h : memory.Frames r) (e : r.SameFrame r') (hcontext : r.context = r'.context) :
    memory.Frames r' := by
  obtain ⟨⟨slot, hslot, hkind⟩, hmethod, hreceiver, hcount⟩ := h
  rw [e.home, e.method] at hmethod
  rw [e.home, e.receiver] at hreceiver
  rw [e.method, e.literalCount] at hcount
  rw [e.home, hcontext] at hkind
  exact ⟨⟨slot, hcontext ▸ hslot, hkind⟩, hmethod, hreceiver, hcount⟩

end Memory.Frames

namespace Machine

variable {s s' : Machine} {source target : List Value} {twoWay : Bool} {names : Renaming}

/-- The active context is well formed: the registers can be loaded from it. -/
def Loads (s : Machine) : Prop :=
  ∃ s', Action.loadRegisters s.registers.context s = .ok () s'

/-- The registers hold what would be loaded from the active context. -/
def UpToDate (s : Machine) : Prop :=
  ∃ s', Action.loadRegisters s.registers.context s = .ok () s' ∧ s'.registers.SameFrame s.registers

theorem upToDate_iff : s.UpToDate ↔ s.Loads ∧ s.memory.Frames s.registers := by
  constructor
  · rintro ⟨s', hload, hsame⟩
    obtain ⟨r, rfl, hcontext, hloaded⟩ := Action.loadRegisters_ok hload
    exact ⟨⟨_, hload⟩, (Memory.Frames.of_loaded hloaded hcontext).sameFrame hsame hcontext⟩
  · rintro ⟨⟨s', hload⟩, hframes⟩
    obtain ⟨r, rfl, hcontext, hloaded⟩ := Action.loadRegisters_ok hload
    exact ⟨_, hload, (Memory.Frames.of_loaded hloaded hcontext).unique hframes hcontext⟩

end Machine

/-- The objects that take the place of the context, its home and its method say of one another, once
renamed, what the registers say once renamed; and the method has as many literals. -/
structure Memory.Reframes (memory : Memory) (names : Renaming) (r : Registers) : Prop where
  home : ∃ slot, memory.cell (names.apply r.context) Context.method = some slot ∧
    ((slot.isSmall = true ∧ ∃ home, memory.cell (names.apply r.context) Context.home = some home ∧
        names.apply home = names.apply r.home) ∨
      (slot.isSmall = false ∧ names.apply r.home = names.apply r.context))
  method : ∃ method, memory.cell (names.apply r.home) Context.method = some method ∧
    names.apply method = names.apply r.method
  receiver : ∃ receiver, memory.cell (names.apply r.home) Context.receiver = some receiver ∧
    names.apply receiver = names.apply r.receiver
  literalCount : ∃ header, MethodHeader.of memory (names.apply r.method) = .ok header ∧
    header.literalCount = r.literalCount

section

variable {memory : Memory} {r : Registers} {source target : List Value} {twoWay : Bool}
  {names : Renaming}

theorem MethodHeader.of_rename (hlists : ∀ v ∈ source ++ target, v.isReference = true)
    (hnames : Renaming.ofLists source target twoWay = .ok names) {method : Value}
    {header : MethodHeader} :
    MethodHeader.of (memory.rename names) method = .ok header ↔
      MethodHeader.of memory method = .ok header := by
  simp only [MethodHeader.of_ok, Memory.cell_rename, Option.map_eq_some_iff,
    Renaming.apply_eq_small hlists hnames, exists_eq_right]

/-- Renamed registers hold the frame of their context if the exchanged objects fit. -/
theorem Memory.frames_rename (hlists : ∀ v ∈ source ++ target, v.isReference = true)
    (hnames : Renaming.ofLists source target twoWay = .ok names) :
    (memory.rename names).Frames (r.rename names) ↔ memory.Reframes names r := by
  have hsmall := Renaming.isSmall_apply hlists hnames
  constructor
  · rintro ⟨⟨slot', hslot', hkind⟩, hmethod, hreceiver, header, hheader, hcount⟩
    rw [Memory.cell_rename, Option.map_eq_some_iff] at hslot' hmethod hreceiver
    obtain ⟨slot, hslot, rfl⟩ := hslot'
    rw [hsmall, Memory.cell_rename, Option.map_eq_some_iff] at hkind
    exact ⟨⟨slot, hslot, hkind⟩, hmethod, hreceiver, header,
      (MethodHeader.of_rename hlists hnames).1 hheader, hcount⟩
  · rintro ⟨⟨slot, hslot, hkind⟩, hmethod, hreceiver, header, hheader, hcount⟩
    refine ⟨⟨names.apply slot, ?_, ?_⟩, ?_, ?_, header,
      (MethodHeader.of_rename hlists hnames).2 hheader, hcount⟩
    · rw [Memory.cell_rename, Option.map_eq_some_iff]
      exact ⟨slot, hslot, rfl⟩
    · rw [hsmall, Memory.cell_rename, Option.map_eq_some_iff]
      exact hkind
    · rw [Memory.cell_rename, Option.map_eq_some_iff]
      exact hmethod
    · rw [Memory.cell_rename, Option.map_eq_some_iff]
      exact hreceiver

/-- If the context and its home are not exchanged, it is the literals that have to be as many. -/
theorem Memory.Frames.reframes_iff (h : memory.Frames r)
    (hcontext : names.apply r.context = r.context) (hhome : names.apply r.home = r.home) :
    memory.Reframes names r ↔ ∃ header,
      MethodHeader.of memory (names.apply r.method) = .ok header ∧
        header.literalCount = r.literalCount := by
  refine ⟨Memory.Reframes.literalCount, fun hcount => ⟨?_, ?_, ?_, hcount⟩⟩
  · obtain ⟨slot, hslot, hkind⟩ := h.home
    rw [hcontext, hhome]
    exact ⟨slot, hslot, hkind.imp_left fun e => ⟨e.1, r.home, e.2, hhome⟩⟩
  · rw [hhome]
    exact ⟨r.method, h.method, rfl⟩
  · rw [hhome]
    exact ⟨r.receiver, h.receiver, rfl⟩

end

namespace Machine

variable {s s' : Machine} {source target : List Value} {twoWay : Bool}

/-- After an exchange the registers are up to date exactly if the objects that have taken the place of
the context, its home and its method fit one another and the literal count. The registers themselves are
renamed and not loaded again, so if only the method is exchanged, its literals have to be as many. -/
theorem become_upToDate (hup : s.UpToDate) (hlists : ∀ v ∈ source ++ target, s.memory.isLive v = true)
    (hbecome : Action.become source target twoWay s = .ok true s') (hloads : s'.Loads) :
    ∃ names, Renaming.Pairs source target twoWay names.apply ∧
      s'.registers = s.registers.rename names ∧
      (s'.UpToDate ↔ s.memory.Reframes names s.registers) ∧
      (names.apply s.registers.context = s.registers.context →
        names.apply s.registers.home = s.registers.home →
        (s'.UpToDate ↔ ∃ header,
          MethodHeader.of s.memory (names.apply s.registers.method) = .ok header ∧
            header.literalCount = s.registers.literalCount)) := by
  rcases become_ok hbecome with ⟨hfalse, -⟩ | ⟨-, names, hnames, hrenamed⟩
  · exact absurd hfalse (by simp)
  · have hreferences : ∀ v ∈ source ++ target, v.isReference = true :=
      fun v hv => Memory.isReference_of_isLive (hlists v hv)
    have hiff : s'.UpToDate ↔ s.memory.Reframes names s.registers := by
      rw [upToDate_iff, and_iff_right hloads, hrenamed.memory, hrenamed.registers]
      exact Memory.frames_rename hreferences hnames
    refine ⟨names, Renaming.pairs_of_ofLists hnames, hrenamed.registers, hiff, fun hcontext hhome => ?_⟩
    exact hiff.trans ((upToDate_iff.1 hup).2.reframes_iff hcontext hhome)

open Scheduling (place)

/-- A context of the first of two methods, of which only the second has a literal. -/
def shelf : Machine :=
  let pointers fields := Object.ofPointers (place 0) .indexable (List.toArray fields)
  ofObjects
    [pointers [], pointers [place 0, place 0, place 0],
      .ofMethod (place 0) #[.small (MethodHeader.encode 0 0 0 false 0).word] #[],
      .ofMethod (place 0) #[.small (MethodHeader.encode 0 0 1 false 0).word, place 0] #[],
      pointers [place 0, .small 9, .small 1, place 2, place 0, place 0, place 0]] 4 4 2 6

/-- The registers go on counting no literal when the second method takes the place of the first. -/
theorem become_upToDate_shelf : shelf.UpToDate ∧
    (∀ v ∈ [place 2] ++ [place 3], shelf.memory.isLive v = true) ∧
    ∃ s', Action.become [place 2] [place 3] false shelf = .ok true s' ∧ s'.Loads ∧ ¬ s'.UpToDate := by
  have hup : shelf.UpToDate := by
    have hleads : Action.leads (Action.loadRegisters (place 4)) shelf (fun _ s =>
        decide (s.registers.home = place 4 ∧ s.registers.method = place 2 ∧
          s.registers.receiver = place 0 ∧ s.registers.literalCount = 0)) = true := by
      decide +kernel
    obtain ⟨_, s, hload, htest⟩ := Action.exists_of_leads hleads
    obtain ⟨hhome, hmethod, hreceiver, hcount⟩ := of_decide_eq_true htest
    exact ⟨s, hload, hhome, hmethod, hreceiver, hcount⟩
  have hlists : ∀ v ∈ [place 2] ++ [place 3], shelf.memory.isLive v = true := by decide +kernel
  have hleads : Action.leads (Action.become [place 2] [place 3] false) shelf (fun b s =>
      b && Action.leads (Action.loadRegisters s.registers.context) s fun _ _ => true) = true := by
    decide +kernel
  obtain ⟨b, s', hbecome, htest⟩ := Action.exists_of_leads hleads
  obtain ⟨rfl, htest⟩ := Bool.and_eq_true_iff.1 htest
  obtain ⟨_, s₁, hload, -⟩ := Action.exists_of_leads htest
  have hloads : s'.Loads := ⟨s₁, hload⟩
  refine ⟨hup, hlists, s', hbecome, hloads, fun h => ?_⟩
  obtain ⟨names, hpairs, -, -, hiff⟩ := become_upToDate hup hlists hbecome hloads
  have hcontext : names.apply (place 4) = place 4 := hpairs.other _ (by decide)
  have hmethod : names.apply (place 2) = place 3 :=
    hpairs.forward (place 2, place 3) (List.mem_singleton_self _)
  obtain ⟨header, hheader, hcount⟩ := (hiff hcontext hcontext).1 h
  change MethodHeader.of shelf.memory (names.apply (place 2)) = .ok header at hheader
  rw [hmethod] at hheader
  have hsecond : MethodHeader.of shelf.memory (place 3) = .ok (.encode 0 0 1 false 0) :=
    MethodHeader.of_ok.2 (by decide +kernel)
  obtain rfl := Except.ok.inj (hsecond.symm.trans hheader)
  exact absurd hcount (by decide)

end Machine

end Smalltalk
