import Smalltalk.Proofs.Attending
import Smalltalk.Proofs.Endurance
import Smalltalk.Proofs.Lineup

/-!
# What keeps the line between turns

Between two contexts a machine looks things up, makes objects, reclaims others and stores. None of that
touches the line as long as what is stored into is neither in line nor the array of special objects. A
new object is neither, whatever its class, so the groundwork of primitives and messages needs nothing
more. The scheduler stores into lists and processes, so they must be no contexts; and whatever is done
before the scheduler comes in must leave them what they are.
-/

namespace Smalltalk

open Outcome

/-- What has been given out and does not resolve any more never does again. -/
theorem Memory.Later.dead {m m' : Memory} {v : Value} (h : m.Later m') (hv : m.Issued v)
    (hdead : m.get? v = none) : m'.get? v = none := by
  cases v with
  | small n => rfl
  | ref index generation =>
    obtain ⟨slot, hs, hlt | ⟨hg, hobject⟩⟩ := hv
    · have houtlived : m.Outlived (.ref index generation) := ⟨slot, hs, hlt⟩
      exact (houtlived.later h).get?_eq_none
    · obtain ⟨o, ho⟩ := Option.isSome_iff_exists.1 hobject
      rw [Memory.get?_eq_some.2 ⟨index, generation, slot, rfl, hs, hg.symm, ho⟩] at hdead
      exact absurd hdead (by simp)

namespace Lineup

open Machine Recycling

variable {K : Kinds} {U U' : Line} {m m' m'' m₁ : Machine} {t : Option Value} {v w x : Value}
  {i n : Nat}

/-! ### Groundwork -/

/-- An object that is not in line, and is not the array of special objects. -/
structure Aside (U : Line) (m : Machine) (v : Value) : Prop where
  counted : v ∉ U.counted
  free : ∀ large, v ∉ U.free large
  array : v ≠ m.specials.array

/-- What is no context is not in line. -/
theorem Aside.of_plain (h : Formed K U m) (plain : ¬ IsContext K m v)
    (array : v ≠ m.specials.array) : Aside U m v :=
  ⟨fun hc => plain (h.kind v hc), fun large hf => plain (.inl (h.idle large v hf).1), array⟩

theorem Aside.inside (a : Aside U m v) (h : U'.Inside U) (specials : m'.specials = m.specials) :
    Aside U' m' v :=
  ⟨fun hc => a.counted (h.counted v hc), fun large hf => a.free large (h.free large v hf),
    specials ▸ a.array⟩

/-- What groundwork leaves behind: the line is at most thinner, and fields that are new are those of new
objects or of the object that was stored into. -/
structure Tends (K : Kinds) (t : Option Value) (m m' : Machine) : Prop where
  remains : m.Remains m'
  specials : m'.specials = m.specials
  context : m'.registers.context = m.registers.context
  cells : m.memory.Stocked → m'.memory.slots.size ≤ 0x100000000 → ∀ w, m.memory.Issued w → t ≠ some w →
    ∀ i x, m'.memory.cell w i = some x → m.memory.cell w i = some x
  thins : m'.memory.slots.size ≤ 0x100000000 → ∀ U, Lined K U m → (∀ v, t = some v → Aside U m v) →
    Thins K U m m'

namespace Tends

theorem trans (h : Tends K t m m') (h' : Tends K t m' m'') : Tends K t m m'' where
  remains := h.remains.trans h'.remains
  specials := h'.specials.trans h.specials
  context := h'.context.trans h.context
  cells hs room w hw ht i x hx :=
    h.cells hs (Nat.le_trans h'.remains.later.size room) w hw ht i x
      (h'.cells (h.remains.stocked hs) room w (h.remains.later.issued hw) ht i x hx)
  thins room U hU ha := by
    obtain ⟨U₁, hin, h₁, hclears⟩ := h.thins (Nat.le_trans h'.remains.later.size room) U hU ha
    obtain ⟨U₂, hin', h₂, hclears'⟩ := h'.thins room U₁ h₁ fun v hv => (ha v hv).inside hin h.specials
    exact ⟨U₂, hin'.trans hin, h₂, hclears.trans hclears'⟩

/-- Where all objects keep class and fields, and pool and count stay. -/
theorem of_shape (remains : m.Remains m') (specials : m'.specials = m.specials)
    (context : m'.registers.context = m.registers.context)
    (shape : ∀ w, m'.memory.shape w = m.memory.shape w)
    (reclaimable : m'.reclaimable = m.reclaimable) (pool : m'.pool.head = m.pool.head) :
    Tends K t m m' where
  remains := remains
  specials := specials
  context := context
  cells _ _ w _ _ i x hx := by rwa [Memory.cell_congr (shape w)] at hx
  thins _ U hU _ := by
    obtain ⟨h₁, hclears⟩ := hU.toFormed.reshape remains.later remains.stocked specials shape reclaimable
      pool
    exact .of_lined ⟨⟨h₁, context.trans hU.context, by rw [specials]; exact hU.apart⟩, hclears⟩

theorem of_spares (remains : m.Remains m') (hs : m.Spares m') : Tends K t m m' where
  remains := remains
  specials := hs.specials
  context := by rw [hs.registers]
  cells stocked _ w _ _ i x hx := hs.cell stocked hx
  thins _ U hU _ := hU.spares hs

/-- The pool may be given up, and the count may start anew. -/
theorem of_upkept (h : m.Upkept m') : Tends K t m m' where
  remains := .of_slots h.slots h.free
  specials := h.specials
  context := by rw [h.registers]
  cells _ _ w _ _ i x hx := by rwa [Memory.cell, Memory.get?_congr h.slots, ← Memory.cell] at hx
  thins _ U hU _ := by
    have pooled : Thins K U m { m with pool := m'.pool } := by
      rcases h.pool with e | e
      · rw [e]
        exact .of_lined ⟨hU, fun _ hx => hx⟩
      · obtain ⟨h₁, hclears⟩ := hU.toFormed.forget m'.pool fun large => by rw [e]; cases large <;> rfl
        exact ⟨_, U.inside_forgotten, ⟨h₁, hU.context, hU.apart⟩, hclears⟩
    have counted : Thins K U m { m with pool := m'.pool, reclaimable := m'.reclaimable } := by
      obtain ⟨U₁, hin, h₁, hclears⟩ := pooled
      rcases h.reclaimable with e | e
      · rw [e]
        exact ⟨U₁, hin, h₁, hclears⟩
      · rw [e]
        obtain ⟨U₂, hin', h₂, hclears'⟩ := h₁.reset
        exact ⟨U₂, hin'.trans hin, h₂, hclears.trans hclears'⟩
    obtain ⟨U₁, hin, h₁, hclears⟩ := counted
    obtain ⟨h₂, hclears'⟩ := h₁.alike m' h.slots h.free h.specials (by rw [h.registers]) rfl rfl
    exact ⟨U₁, hin, h₂, hclears.trans hclears'⟩

/-- A store into an object that remains what it is. -/
theorem of_modified {f : Object → Object}
    (hf : ∀ o, m.memory.get? v = some o → o.Remains (f o)) : Tends K (some v) m (m.modified v f) where
  remains := .of_modified hf
  specials := rfl
  context := rfl
  cells _ _ w _ ht i x hx := by
    rwa [(Alters.modified m v f).cell fun e => ht (e ▸ rfl)] at hx
  thins room U hU ha := by
    have a := ha v rfl
    by_cases hnil : v = K.nil
    · -- nil has no fields, so nothing was stored
      have hshape : ∀ w, (m.modified v f).memory.shape w = m.memory.shape w := by
        intro w
        by_cases hw : w = v
        · subst hw
          rw [Memory.shape, Memory.shape, modified, Memory.get?_modify, if_pos rfl]
          cases ho : m.memory.get? w with
          | none => rfl
          | some o =>
            have hremains := hf o ho
            have hempty : o.pointers.size = 0 := by
              by_contra hpos
              have hcell := Memory.cell_eq_some.2
                ⟨o, ho, Array.getElem?_eq_getElem (Nat.pos_of_ne_zero hpos)⟩
              rw [hnil, hU.bare] at hcell
              exact absurd hcell (by simp)
            have hsame : (f o).pointers = o.pointers := by
              rw [Array.eq_empty_of_size_eq_zero hempty]
              exact Array.eq_empty_of_size_eq_zero (hremains.pointers.trans hempty)
            simp only [Option.map_some, hremains.cls, hsame]
        · exact (Alters.modified m v f).other w hw
      have htends : Tends K none m (m.modified v f) := of_shape (.of_modified hf) rfl rfl hshape rfl rfl
      exact htends.thins room U hU (by simp)
    · obtain ⟨h₁, hclears⟩ := hU.toFormed.alter (Alters.modified m v f) a.array hnil rfl rfl a.counted
        a.free
      exact .of_lined ⟨⟨h₁, hU.context, hU.apart⟩, hclears⟩

/-- A new object is not in line, whatever is stored into it. -/
theorem of_fresh {o : Object} (h : Tends K (some (m.memory.place o).1) (Action.placed m o) m') :
    Tends K t m m' := by
  have hplaced : m.Remains (Action.placed m o) := .of_placed m o
  have hlater := h.remains.later
  refine ⟨hplaced.trans h.remains, h.specials, h.context, fun hs room w hw ht i x hx => ?_,
    fun room U hU _ => ?_⟩
  · have hroom : (m.memory.place o).2.slots.size ≤ 0x100000000 := Nat.le_trans hlater.size room
    by_cases hnew : w = (m.memory.place o).1
    · -- what was given out before and is placed anew does not resolve
      subst hnew
      exfalso
      have hdead : (m.memory.place o).2.get? (m.memory.place o).1 = none := by
        rw [Memory.get?_eq_none]
        by_contra hlive
        exact hs.place_unissued hroom (by simpa using hlive) hw
      have hgone : m'.memory.get? (m.memory.place o).1 = none :=
        hlater.dead (hplaced.later.issued hw) hdead
      obtain ⟨o', ho', -⟩ := Memory.cell_eq_some.1 hx
      rw [hgone] at ho'
      exact absurd ho' (by simp)
    · have hcell := h.cells (hplaced.stocked hs) room w (hplaced.later.issued hw)
        (fun e => hnew (Option.some.inj e).symm) i x hx
      rwa [(Alters.placed hs o).cell hnew] at hcell
  · have hs := hU.stocked
    have hroom : (m.memory.place o).2.slots.size ≤ 0x100000000 := Nat.le_trans hlater.size room
    have hne : ∀ {w}, m.memory.isLive w = true → w ≠ (m.memory.place o).1 := fun hw e => by
      rcases hs.get?_place o (m.memory.place o).1 with hsame | ⟨-, hnone, -⟩
      · have hlive : (m.memory.place o).2.isLive (m.memory.place o).1 = true := by
          rw [Memory.isLive, hsame, ← e]
          exact hw
        exact hs.place_unissued hroom hlive (Memory.issued_of_isLive (e ▸ hw))
      · rw [← e, Memory.get?_eq_none, hw] at hnone
        exact absurd hnone (by simp)
    have a : Aside U (Action.placed m o) (m.memory.place o).1 :=
      ⟨fun hc => hne (hU.isLive_counted hc) rfl, fun large hf => hne (hU.isLive_free hf) rfl,
        fun e => hne hU.live_array e.symm⟩
    have hthins : Thins K U m (Action.placed m o) := by
      rcases hs.get?_place o (m.memory.place o).1 with hsame | ⟨-, hnone, hget⟩
      · refine (of_shape (t := none) hplaced rfl rfl (fun w => ?_) rfl rfl).thins hroom U hU (by simp)
        by_cases hw : w = (m.memory.place o).1
        · rw [hw]
          exact Memory.shape_congr hsame
        · exact (Alters.placed hs o).other w hw
      · have hnil : (m.memory.place o).1 ≠ K.nil := fun e =>
          hs.place_unissued hroom (Memory.isLive_of_get? hget) (e ▸ hU.known)
        obtain ⟨h₁, hclears⟩ := hU.toFormed.alter (Alters.placed hs o) a.array hnil rfl rfl a.counted
          a.free
        exact .of_lined ⟨⟨h₁, hU.context, hU.apart⟩, hclears⟩
    obtain ⟨U₁, hin, h₁, hclears⟩ := hthins
    obtain ⟨U₂, hin', h₂, hclears'⟩ := h.thins room U₁ h₁ fun v hv => by
      obtain rfl := Option.some.inj hv
      exact a.inside hin rfl
    exact ⟨U₂, hin'.trans hin, h₂, hclears.trans hclears'⟩

instance : Groundwork (Tends K) where
  refl _ m := .of_shape (.of_memory rfl) rfl rfl (fun _ => rfl) rfl rfl
  trans := .trans
  upkeep := .of_upkept
  trims h := .of_spares (.of_trims h) (Undone.of_trims h).toSpares
  fresh := .of_fresh
  body hf := .of_shape (.of_modified fun o ho => (hf o ho).2) rfl rfl (fun w => by
    rw [Memory.shape, Memory.shape, modified, Memory.get?_modify]
    split
    · rename_i hw
      subst hw
      cases ho : Memory.get? _ w with
      | none => rfl
      | some o => simp only [Option.map_some, (hf o ho).1, (hf o ho).2.cls]
    · rfl) rfl rfl
  storeInto := .of_modified

end Tends

/-! ### Who the scheduler deals with -/

/-- Whether a value may stand where something of that role is expected. -/
def Allowed (K : Kinds) (role : Value → Role) (r : Role) (x : Value) : Prop := x = K.nil ∨ role x = r

/-- The objects of the scheduler have their roles, they are no contexts, and their fields hold what the
roles say. Whatever has no other role counts as a context, and may hold anything. -/
structure Staffed (K : Kinds) (role : Value → Role) (m : Machine) : Prop where
  array : role m.specials.array = .array
  context : role m.registers.context = .context
  plain : ∀ v, role v ≠ .context → m.memory.Issued v ∧ ¬ IsContext K m v
  fits : ∀ w i x r, role w ≠ .context → m.memory.cell w i = some x → (role w).field i = some r →
    Allowed K role r x

variable {role : Value → Role} {r r' : Role} {process : Value}

namespace Staffed

theorem role_of_context (s : Staffed K role m) (h : IsContext K m v) : role v = .context :=
  not_not.1 fun hne => (s.plain v hne).2 h

theorem role_of_unissued (s : Staffed K role m) (h : ¬ m.memory.Issued v) : role v = .context :=
  not_not.1 fun hne => h (s.plain v hne).1

theorem ne_array (s : Staffed K role m) (h : role v = .context) : v ≠ m.specials.array := by
  rintro rfl
  rw [s.array] at h
  exact absurd h (by decide)

theorem plain_array (s : Staffed K role m) : ¬ IsContext K m m.specials.array :=
  (s.plain _ (by rw [s.array]; decide)).2

/-- What has fields where a role is expected has the role. -/
theorem role_of_cell (h : Lined K U m) (hw : Allowed K role r w)
    (hx : m.memory.cell w i = some x) : role w = r := hw.resolve_left (h.nil_ne_of_cell hx)

theorem allowed_of_cell (s : Staffed K role m) (h : Lined K U m) (hne : r ≠ .context)
    (hw : Allowed K role r w) (hr : r.field i = some r') (hx : m.memory.cell w i = some x) :
    Allowed K role r' x := by
  obtain rfl := role_of_cell h hw hx
  exact s.fits w i x r' hne hx hr

theorem allowed_special (s : Staffed K role m) (h : Lined K U m) (hr : Role.array.field i = some r) :
    Allowed K role r (m.specials.get m.memory i) := by
  rw [special_eq]
  cases hx : m.memory.cell m.specials.array i with
  | none => exact .inl h.nil
  | some x => exact s.allowed_of_cell h (by decide) (.inr s.array) hr hx

/-! ### What leaves them what they are -/

/-- Where objects remain, and no fields are new but those of contexts. -/
theorem of_remains (s : Staffed K role m) (stocked : m.memory.Stocked) (remains : m.Remains m')
    (specials : m'.specials = m.specials) (context : role m'.registers.context = .context)
    (cells : ∀ w, role w ≠ .context → ∀ i x, m'.memory.cell w i = some x → m.memory.cell w i = some x) :
    Staffed K role m' := by
  refine ⟨specials ▸ s.array, context, fun v hv => ?_,
    fun w i x r hw hx hr => s.fits w i x r hw (cells w hw i x hx) hr⟩
  obtain ⟨hissued, hplain⟩ := s.plain v hv
  refine ⟨remains.later.issued hissued, fun hcontext => hplain ?_⟩
  -- an object that resolves after all has resolved before, and was of the same class
  have hcls : ∀ c, cls m' v = some c → cls m v = some c := by
    intro c hc
    obtain ⟨ps, hshape⟩ := cls_eq_some.1 hc
    obtain ⟨o', ho', rfl, -⟩ := Memory.shape_eq_some.1 hshape
    cases ho : m.memory.get? v with
    | none =>
      rw [remains.later.dead hissued ho] at ho'
      exact absurd ho' (by simp)
    | some o => rw [cls_of_get? ho, (remains.object stocked v o o' ho ho').cls]
  exact hcontext.imp (hcls _) (hcls _)

theorem of_slots (s : Staffed K role m) (stocked : m.memory.Stocked)
    (slots : m'.memory.slots = m.memory.slots) (free : m'.memory.free = m.memory.free)
    (specials : m'.specials = m.specials) (context : role m'.registers.context = .context) :
    Staffed K role m' :=
  s.of_remains stocked (.of_slots slots free) specials context fun w _ i x hx => by
    rwa [Memory.cell, Memory.get?_congr slots, ← Memory.cell] at hx

/-- What counts as a context may be changed. -/
theorem alter (s : Staffed K role m) (stocked : m.memory.Stocked) (a : Alters m m' v)
    (remains : m.Remains m') (hv : role v = .context) (context : role m'.registers.context = .context) :
    Staffed K role m' :=
  s.of_remains stocked remains a.specials context fun w hw i x hx => by
    rwa [a.cell (w := w) fun e => hw (e ▸ hv)] at hx

theorem setCell (s : Staffed K role m)
    (hx : ∀ r, role v ≠ .context → (role v).field i = some r → Allowed K role r x) :
    Staffed K role (m.setCell v i x) := by
  refine ⟨s.array, s.context, fun w hw => ?_, fun w j y r hw hy hr => ?_⟩
  · obtain ⟨hissued, hplain⟩ := s.plain w hw
    exact ⟨(Alters.setCell m v i x).later.issued hissued, mt (IsContext.congr cls_setCell).1 hplain⟩
  · rw [Recycling.cell_setCell] at hy
    split at hy
    · rename_i heq
      obtain ⟨rfl, rfl⟩ := heq
      obtain ⟨-, -, rfl⟩ := Option.map_eq_some_iff.1 hy
      exact hx r hw hr
    · exact s.fits w j y r hw hy hr

/-- A store into what counts as a context. -/
theorem setCell_context (s : Staffed K role m) (hv : role v = .context) :
    Staffed K role (m.setCell v i x) := s.setCell fun _ hne => absurd hv hne

theorem withRegisters {r : Registers} (s : Staffed K role m) (stocked : m.memory.Stocked)
    (hr : role r.context = .context) : Staffed K role (m.withRegisters r) :=
  s.of_slots stocked rfl rfl rfl hr

theorem saved (s : Staffed K role m) : Staffed K role (Action.saved m) :=
  (s.setCell_context s.context).setCell_context s.context

theorem switched (s : Staffed K role m) (stocked : m.memory.Stocked) :
    Staffed K role (Scheduling.switched m) := s.of_slots stocked rfl rfl rfl s.context

/-! ### Switches -/

/-- A switch stores into the scheduler and the two processes, and goes on in a context. -/
theorem transferTo (s : Staffed K role m) (h : Lined K U m) (hp : Allowed K role .process process) :
    Gives (Action.transferTo process) m fun _ m' => Keeps K U m m' ∧ Staffed K role m' := by
  intro u m' hrun
  have hrun' := hrun
  obtain ⟨scheduler, old, next, r, hs, hold, ⟨y, hy⟩, hnext, rfl, hload, -, rfl⟩ :=
    Scheduling.transferTo_ok hrun
  have hallowed : Allowed K role .scheduler scheduler :=
    s.allowed_of_cell h (by decide) (s.allowed_special h rfl) rfl (Scheduling.scheduler_ok.1 hs).1
  have hscheduler : role scheduler = .scheduler := role_of_cell h hallowed hold
  have hformer : Allowed K role .process old := s.allowed_of_cell h (by decide) hallowed rfl hold
  have stocked {m : Machine} {v : Value} {i : Nat} {x : Value} (hm : m.memory.Stocked) :
      (m.setCell v i x).memory.Stocked := (Alters.setCell m v i x).stocked hm
  have s₁ : Staffed K role (m.setCell scheduler Scheduler.activeProcess process) :=
    s.setCell fun r _ hr => by
      rw [hscheduler] at hr
      exact Option.some.inj hr ▸ hp
  obtain ⟨h₁, -⟩ := h.store (x := process) (s.plain _ (by rw [hscheduler]; decide)).2
    (fun e => by rw [e, s.array] at hscheduler; exact absurd hscheduler (by decide)) ⟨_, hold⟩
  have hrole : role old = .process := role_of_cell h₁ hformer hy
  have s₂ : Staffed K role (Scheduling.handedOver m scheduler old process) :=
    s₁.setCell fun r _ hr => by
      rw [hrole] at hr
      exact Option.some.inj hr ▸ .inr s.context
  have stocked₂ : (Scheduling.handedOver m scheduler old process).memory.Stocked := stocked h₁.stocked
  obtain ⟨h₂, -⟩ := h₁.store (i := Process.suspendedContext) (x := m.registers.context)
    (s₁.plain _ (by rw [hrole]; decide)).2
    (fun e => by rw [e] at hrole; exact absurd (s₁.array.symm.trans hrole) (by decide)) ⟨y, hy⟩
  have hcontext : role r.context = .context := by
    obtain ⟨slot, hslot, -⟩ := hload.home
    exact role_of_cell h₂.saved.1 (s₂.allowed_of_cell h₂ (by decide) hp rfl hnext) hslot
  have stocked₃ : ((Action.saved (Scheduling.handedOver m scheduler old process)).withRegisters
      r).memory.Stocked := stocked (stocked stocked₂)
  have s₃ := s₂.saved.withRegisters (stocked (stocked stocked₂)) hcontext
  have s₄ := s₃.setCell (v := process) (i := Process.suspendedContext) (x := m.specials.nil)
    fun r _ _ => .inl h.nil
  have s₅ : Staffed K role (Scheduling.transferred m scheduler old process r) :=
    s₄.switched (stocked stocked₃)
  refine ⟨h.transferTo (fun w hw hne => ?_) u _ hrun' (s₅.ne_array s₅.context), s₅⟩
  have hrole : role w = .scheduler ∨ role w = .process := by
    rcases hw with hw | hw | rfl
    · have hsame := (EStateM.Result.ok.inj (hw.symm.trans hs)).1
      exact .inl (hsame ▸ hscheduler)
    · have hactive : Action.activeProcess m = .ok old m :=
        (bind_of_ok hs).trans (Action.fetch_ok.2 ⟨hold, rfl⟩)
      have hsame := (EStateM.Result.ok.inj (hw.symm.trans hactive)).1
      exact .inr (hsame ▸ hrole)
    · exact .inr (hp.resolve_left hne)
  have hne : role w ≠ .context := by rcases hrole with e | e <;> rw [e] <;> decide
  exact ⟨(s.plain w hne).2, fun e => by
    rw [e, s.array] at hrole
    exact absurd hrole (by decide)⟩

/-- The scheduler keeps the line. -/
theorem attends (K : Kinds) (role : Value → Role) (U : Line) (m : Machine) :
    Attends K.nil (Allowed K role) fun m' => Keeps K U m m' ∧ Staffed K role m' where
  allows_nil _ := .inl rfl
  nil_eq := fun ⟨⟨_, h, _⟩, _⟩ => h.nil
  special := fun ⟨⟨_, h, _⟩, s⟩ hr => s.allowed_special h hr
  follow := fun ⟨⟨_, h, _⟩, s⟩ hne hw hr hx => s.allowed_of_cell h hne hw hr hx
  store := by
    rintro m' v i x y r ⟨⟨U', h, hclears⟩, s⟩ hr hv hy hx
    have hrole := role_of_cell h hv hy
    have hne : role v ≠ .context := by rcases hr with rfl | rfl <;> rw [hrole] <;> decide
    have harray : v ≠ m'.specials.array := fun e => by
      rw [e, s.array] at hrole
      rcases hr with rfl | rfl <;> exact absurd hrole (by decide)
    obtain ⟨h₁, hclears'⟩ := h.store (x := x) (s.plain v hne).2 harray ⟨y, hy⟩
    exact ⟨⟨U', h₁, hclears.trans hclears'⟩, s.setCell fun r' _ hr' =>
      hx.field r' (hrole ▸ hr')⟩
  transferTo := fun ⟨⟨_, h, hclears⟩, s⟩ hp => (s.transferTo h hp).mono fun _ _ ⟨hkeeps, s'⟩ =>
    ⟨.after hclears hkeeps, s'⟩
  interrupts := by
    rintro m' i ⟨⟨U', h, hclears⟩, s⟩
    obtain ⟨h₁, hclears'⟩ := h.alike { m' with interrupts := i } rfl rfl rfl rfl rfl rfl
    exact ⟨⟨U', h₁, hclears.trans hclears'⟩, s.of_slots h.stocked rfl rfl rfl s.context⟩

end Staffed

/-! ### What comes before the scheduler -/

/-- The line is kept, and so are the objects of the scheduler. -/
structure Upholds (K : Kinds) (role : Value → Role) (m m' : Machine) : Prop where
  size : m.memory.slots.size ≤ m'.memory.slots.size
  keeps : m'.memory.slots.size ≤ 0x100000000 → ∀ U, Lined K U m → Staffed K role m →
    Keeps K U m m' ∧ Staffed K role m'

instance : Std.Refl (Upholds K role) :=
  ⟨fun _ => ⟨Nat.le_refl _, fun _ U h s => ⟨⟨U, h, fun _ hx => hx⟩, s⟩⟩⟩

instance : IsTrans Machine (Upholds K role) := by
  refine ⟨fun m m' m'' h h' => ⟨Nat.le_trans h.size h'.size, fun room U hU s => ?_⟩⟩
  obtain ⟨⟨U₁, h₁, hclears⟩, s₁⟩ := h.keeps (Nat.le_trans h'.size room) U hU s
  obtain ⟨hkeeps, s₂⟩ := h'.keeps room U₁ h₁ s₁
  exact ⟨.after hclears hkeeps, s₂⟩

theorem Tends.upholds (h : Tends K none m m') : Upholds K role m m' := by
  refine ⟨h.remains.later.size, fun room U hU s => ⟨(h.thins room U hU (by simp)).keeps, ?_⟩⟩
  refine s.of_remains hU.stocked h.remains h.specials (h.context ▸ s.context) fun w hw => ?_
  exact h.cells hU.stocked room w (s.plain w hw).1 (by simp)

namespace Upholds

open Smalltalk.Action Attempt

variable {α : Type} {selector cls receiver method : Value} {large : Bool}

theorem of_upkept (h : m.Upkept m') : Upholds K role m m' := Tends.upholds (.of_upkept h)

theorem of_tends {y : Action α} (hy : Within (Tends K none) y) : Within (Upholds K role) y :=
  fun m a m' hrun => (hy m a m' hrun).upholds

/-! #### The stack -/

theorem popped : Upholds K role m (popped m n) :=
  ⟨Nat.le_refl _, fun _ U h s => ⟨⟨U, h.withRegisters rfl⟩, s.withRegisters h.stocked s.context⟩⟩

theorem pushed : Upholds K role m (pushed m x) := by
  refine ⟨(Alters.setCell m _ _ _).later.size, fun _ U h s => ⟨⟨U, h.pushed⟩, ?_⟩⟩
  exact (s.setCell_context s.context).withRegisters ((Alters.setCell m _ _ _).stocked h.stocked)
    s.context

theorem push : Within (Upholds K role) (push x) := by
  intro m u m' hrun
  obtain ⟨-, rfl⟩ := push_ok.1 hrun
  exact pushed

theorem popN : Within (Upholds K role) (popN n) := by
  intro m u m' hrun
  obtain ⟨-, rfl⟩ := popN_ok.1 hrun
  exact popped

theorem pop : Within (Upholds K role) pop := by
  intro m u m' hrun
  obtain ⟨-, -, rfl⟩ := pop_ok.1 hrun
  exact popped

theorem modifyCounters {f : Counters → Counters} : Within (Upholds K role) (modifyCounters f) := by
  intro m u m' hrun
  obtain rfl := modifyCounters_ok.1 hrun
  exact of_upkept ⟨rfl, rfl, rfl, rfl, .inl rfl, .inl rfl⟩

instance : Stackwork (Upholds K role) where
  push := push
  popN := popN
  modifyCounters := modifyCounters
  lookup := of_tends Groundwork.lookup
  createMessage := of_tends Groundwork.createMessage

/-- A primitive that is declined. -/
theorem of_declined {p : Primitive} (hp : p ∈ Primitive.all)
    (hrun : p.action n m = .error .declined m') : Upholds K role m m' :=
  Tends.upholds (.of_spares ((Primitive.all_last p hp n).declined m m' hrun)
    (Primitive.all_yield p hp n m m' hrun).toSpares)

/-! #### Activations -/

/-- A context that is supplied counts as a context, and the scheduler's objects stay. -/
theorem supplied (hs : Supplied large m v m') (room : m'.memory.slots.size ≤ 0x100000000)
    (live : m'.memory.isLive v = true) (h : Lined K U m) (s : Staffed K role m) :
    role v = .context ∧ Staffed K role m' := by
  cases hs with
  | @pooled o next hhead ho hnext =>
    have hfree : v ∈ U.free large := List.mem_of_head? ((h.lists.head large).symm.trans hhead)
    have hrole : role v = .context := s.role_of_context (.inl (h.idle large v hfree).1)
    have a := Alters.modified m v fun _ => wiped o m.specials.nil
    have remains : m.Remains (m.modified v fun _ => wiped o m.specials.nil) :=
      .of_modified fun o' ho' => by
        rw [ho] at ho'
        obtain rfl := Option.some.inj ho'
        exact .of_pointers Array.size_replicate
    have s₁ := s.alter h.stocked a remains hrole s.context
    exact ⟨hrole, s₁.of_slots (a.stocked h.stocked) rfl rfl rfl s₁.context⟩
  | @fresh m₁ hash o htrims hhead ho hv =>
    have htrimmed : Tends K none m m₁ := Groundwork.trims htrims
    have hroom : (m₁.memory.place o).2.slots.size ≤ 0x100000000 := room
    have later := (Memory.later_place m₁.memory o).size
    obtain ⟨⟨U₁, h₁, -⟩, s₁⟩ := htrimmed.upholds.keeps (Nat.le_trans later hroom) U h s
    have hrole : role v = .context := by
      rw [hv]
      exact s₁.role_of_unissued (h₁.stocked.place_unissued hroom (hv ▸ live))
    have hplaced : Tends K none m₁ (placed m₁ o) := Groundwork.placed m₁ o
    obtain ⟨⟨U₂, h₂, -⟩, s₂⟩ := hplaced.upholds.keeps hroom U₁ h₁ s₁
    exact ⟨hrole, s₂.of_slots h₂.stocked rfl rfl rfl s₂.context⟩

/-- A context that is made while the method is pinned. -/
theorem pinnedContext (h : Lined K U m) (s : Staffed K role m) :
    Gives (withPins [method] (allocateContext large)) m fun v m' =>
      m'.memory.slots.size ≤ 0x100000000 → m'.memory.isLive v = true →
        role v = .context ∧ Staffed K role m' ∧ m'.memory.Stocked := by
  intro v m' hrun room live
  obtain ⟨m₃, hinner, rfl⟩ := withPins_ok hrun
  obtain ⟨m₂, htrims, hsupplied⟩ := allocateContext_ok hinner
  have hready : Tends K none m m₂ :=
    Groundwork.trans (Groundwork.withPins m _) (Groundwork.trims htrims)
  obtain ⟨⟨U₂, h₂, -⟩, s₂⟩ :=
    hready.upholds.keeps (Nat.le_trans hsupplied.remains.later.size room) U h s
  obtain ⟨hrole, s₃⟩ := supplied hsupplied room live h₂ s₂
  have stocked := hsupplied.remains.stocked h₂.stocked
  exact ⟨hrole, s₃.of_slots stocked rfl rfl rfl s₃.context, stocked.of_slots rfl rfl⟩

/-- What a method that is entered stores into counts as a context. -/
theorem staffed_enterMethod (h : Lined K U m) (s : Staffed K role m) :
    Gives (Action.enterMethod receiver method n) m fun _ m' =>
      m'.memory.slots.size ≤ 0x100000000 → Staffed K role m' := by
  refine .bind (.get (.bind fun header m₁ hread => ?_))
  obtain ⟨-, rfl⟩ := ofExcept_ok.1 hread
  refine .bind ((pinnedContext h s).mono fun v m₁ hmade => ?_)
  refine .bind (gives_nil (.bind (gives_registers (.bind fun frame m₂ hframe => ?_))))
  obtain ⟨rfl, -, -⟩ := stackValues_ok hframe
  refine .bind (gives_object fun o ho => .ite (fun _ => .bind .throw) fun hsize => ?_)
  refine .bind fun _ m₂ hfill => ?_
  intro _ m' hrun room
  obtain ⟨-, -, -, -, -, rfl⟩ := counted_ok hrun
  have hm₂ : m₁.modified v (fun o => fillFrame o m₁.registers.context method m₁.specials.nil
    frame.toArray header.tempCount) = m₂ := modifyMemory_ok.1 hfill
  rw [slots_size_saved, withRegisters_memory, slots_size_saved] at room
  have hroom : m₁.memory.slots.size ≤ 0x100000000 := by
    have hslots : m₂.memory.slots.size = m₁.memory.slots.size := by
      rw [← hm₂]
      exact slots_size_modify ..
    exact hslots ▸ room
  obtain ⟨hrole, s₁, stocked⟩ := hmade hroom (Memory.isLive_of_get? ho)
  have a : Alters m₁ m₂ v := hm₂ ▸ .modified m₁ v _
  have remains : m₁.Remains m₂ := hm₂ ▸ .of_modified fun o' ho' => by
    rw [ho] at ho'
    obtain rfl := Option.some.inj ho'
    exact remains_fillFrame (by simpa using hsize)
  have hcontext : role m₂.registers.context = .context := by
    rw [← hm₂]
    exact s₁.context
  have stocked₂ := a.stocked stocked
  have s₂ := s₁.alter stocked a remains hrole hcontext
  have s₃ : Staffed K role (counted m₂ (n + 1)) := s₂.of_slots stocked₂ rfl rfl rfl s₂.context
  have stocked₄ : (Action.saved (counted m₂ (n + 1))).memory.Stocked :=
    (Alters.setCell _ _ _ _).stocked ((Alters.setCell _ _ _ _).stocked stocked₂)
  refine (s₃.saved.withRegisters stocked₄ ?_).saved
  exact hrole

theorem enterMethod : Within (Upholds K role) (enterMethod receiver method n) := by
  intro m u m' hrun
  refine ⟨(enterMethod_remains m u m' hrun).later.size, fun room U h s => ?_⟩
  have s' := staffed_enterMethod h s u m' hrun room
  exact ⟨h.enterMethod u m' hrun room (s'.ne_array s'.context), s'⟩

theorem checkInterrupts : Within (Upholds K role) checkInterrupts := by
  intro m u m' hrun
  have remains : m.Remains m' := checkInterrupts_within m u m' hrun
  exact ⟨remains.later.size, fun _ U h s =>
    (Staffed.attends K role U m).checkInterrupts ⟨⟨U, h, fun _ hx => hx⟩, s⟩ u m' hrun⟩

theorem activateMethod : Within (Upholds K role) (activateMethod receiver method n) :=
  .bind enterMethod fun _ => checkInterrupts

end Upholds

end Lineup

end Smalltalk
