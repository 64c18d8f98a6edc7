import Smalltalk.Proofs.Caching
import Smalltalk.Proofs.Outcome

/-!
# Walks that go round in circles

A search for a method follows superclass fields, and a return follows sender fields. Nothing keeps the
guest from linking classes or contexts in a circle, and a walk along a circle never ends. This is the
only way for it not to end: each object on the way has to be there, so a walk of more links than there
are objects has come back to where it was.
-/

namespace Smalltalk

open Outcome

variable {m m' : Machine} {memory : Memory} {f : Fault} {i a b n hops : Nat}
  {u v w cls target : Value}

/-! ### Following a field -/

namespace Memory

/-- The value that is reached from `v` by following field `i` `n` times. -/
def follow (m : Memory) (i : Nat) : Nat → Value → Option Value
  | 0, v => some v
  | n + 1, v => (m.cell v i).bind (m.follow i n)

/-- Whether field `i` leads from `v` back to `v`. -/
def Circular (m : Memory) (i : Nat) (v : Value) : Prop := ∃ n, 0 < n ∧ m.follow i n v = some v

theorem follow_succ (h : memory.cell v i = some w) :
    memory.follow i (n + 1) v = memory.follow i n w := by
  rw [follow, h, Option.bind_some]

theorem follow_add (memory : Memory) (i a b : Nat) (v : Value) :
    memory.follow i (a + b) v = (memory.follow i a v).bind (memory.follow i b) := by
  induction a generalizing v with
  | zero => rw [Nat.zero_add, follow, Option.bind_some]
  | succ a ih =>
    rw [Nat.succ_add, follow, follow]
    cases memory.cell v i with
    | none => rfl
    | some w => exact ih w

theorem follow_congr {memory' : Memory} (h : memory'.cell = memory.cell) :
    memory'.follow = memory.follow := by
  funext i n v
  induction n generalizing v with
  | zero => rfl
  | succ n ih =>
    rw [follow, follow, h]
    cases memory.cell v i with
    | none => rfl
    | some w => exact ih w

theorem circular_congr {memory' : Memory} (h : memory'.cell = memory.cell) :
    memory'.Circular i v ↔ memory.Circular i v := by
  rw [Circular, Circular, follow_congr h]

/-- Every value before the last one is an object. -/
theorem exists_follow_of_lt (h : memory.follow i n u = some v) (hab : a < n) :
    ∃ w, memory.follow i a u = some w ∧ memory.isLive w = true ∧
      memory.follow i (n - a) w = some v := by
  obtain ⟨k, rfl⟩ : ∃ k, n = a + (k + 1) := ⟨n - a - 1, by omega⟩
  rw [follow_add] at h
  obtain ⟨w, hw, hrest⟩ := Option.bind_eq_some_iff.1 h
  obtain ⟨x, hx, -⟩ := Option.bind_eq_some_iff.1 hrest
  rw [Nat.add_sub_cancel_left]
  exact ⟨w, hw, isLive_of_cell hx, hrest⟩

/-- Who has followed more links than there are objects goes round in a circle. -/
theorem circular_of_follow (h : memory.follow i n u = some v) (hn : memory.population < n) :
    memory.Circular i v := by
  -- the values on the way, before the last one
  let place : Nat → Value := fun a => (memory.follow i a u).getD v
  have hplace : ∀ a < n, memory.follow i a u = some (place a) ∧
      memory.isLive (place a) = true ∧ memory.follow i (n - a) (place a) = some v := by
    intro a ha
    obtain ⟨w, hw, hrest⟩ := exists_follow_of_lt h ha
    have hat : place a = w := by
      simp only [place]
      rw [hw, Option.getD_some]
    rw [hat]
    exact ⟨hw, hrest⟩
  obtain ⟨a, b, hab, hb, e⟩ : ∃ a b, a < b ∧ b < n ∧ place a = place b := by
    by_contra hnone
    push Not at hnone
    have hinj : ∀ a ∈ List.range n, ∀ b ∈ List.range n, place a = place b → a = b := by
      intro a ha b hb e
      rw [List.mem_range] at ha hb
      rcases Nat.lt_trichotomy a b with hlt | heq | hlt
      · exact absurd e (hnone a b hlt hb)
      · exact heq
      · exact absurd e.symm (hnone b a hlt ha)
    have hle := length_le_population (List.nodup_range.map_on hinj) fun w hw => by
      obtain ⟨a, ha, rfl⟩ := List.mem_map.1 hw
      exact (hplace a (List.mem_range.1 ha)).2.1
    rw [List.length_map, List.length_range] at hle
    omega
  obtain ⟨ha, -, hend⟩ := hplace a (hab.trans hb)
  obtain ⟨hb, -, -⟩ := hplace b hb
  -- `b - a` links lead from the place to itself, and so from the end of the walk to itself
  have hround : memory.follow i (b - a) (place a) = some (place a) := by
    have hsplit := memory.follow_add i a (b - a) u
    rw [Nat.add_sub_cancel' hab.le, ha, hb, Option.bind_some] at hsplit
    rw [← hsplit, ← e]
  refine ⟨b - a, by omega, ?_⟩
  calc memory.follow i (b - a) v
      = (memory.follow i (n - a) (place a)).bind (memory.follow i (b - a)) := by
        rw [hend, Option.bind_some]
    _ = memory.follow i (b - a + (n - a)) (place a) := by rw [← follow_add, Nat.add_comm]
    _ = some v := by rw [follow_add, hround, Option.bind_some, hend]

end Memory

/-! ### Faults on the way -/

/-- A fault that says that some value has not the shape that it should have. -/
def Fault.Ordinary : Fault → Prop
  | .endlessChain _ | .endlessResend _ | .panic _ => False
  | _ => True

/-- A computation fails only with such faults. -/
class Checked.Ordinary {α : Type} (x : Except Fault α) : Prop where
  error : ∀ {f}, x = .error f → f.Ordinary

section

variable {α β : Type}

instance {x : Except Fault α} {g : α → Except Fault β} [hx : Checked.Ordinary x]
    [hg : ∀ a, Checked.Ordinary (g a)] : Checked.Ordinary (x >>= g) where
  error h := by
    rcases Checked.bind_error.1 h with h | ⟨a, -, h⟩
    · exact hx.error h
    · exact (hg a).error h

instance {x : Except Fault α} {g : α → β} [hx : Checked.Ordinary x] : Checked.Ordinary (g <$> x) where
  error h := hx.error (Checked.map_error.1 h)

instance {a : α} : Checked.Ordinary (pure a : Except Fault α) := ⟨fun h => nomatch h⟩

instance {memory : Memory} : Checked.Ordinary (memory.object v) where
  error h := by
    unfold Memory.object at h
    split at h
    · exact nomatch h
    · obtain rfl := Except.error.inj h
      trivial

instance {flaw : Flaw} : Checked.Ordinary (memory.field flaw v i) where
  error h := by
    unfold Memory.field at h
    split at h
    · obtain rfl := Except.error.inj h
      trivial
    · split at h
      · exact nomatch h
      · obtain rfl := Except.error.inj h
        trivial

instance : Checked.Ordinary (MethodHeader.of memory v) where
  error h := by
    unfold MethodHeader.of at h
    split at h
    · obtain rfl := Except.error.inj h
      trivial
    · split at h
      · exact nomatch h
      · obtain rfl := Except.error.inj h
        trivial

instance {dictionary selector nil : Value} :
    Checked.Ordinary (Dictionary.find memory dictionary selector nil) where
  error h := by
    unfold Dictionary.find at h
    split at h
    · exact nomatch h
    · dsimp only at h
      split at h
      · exact nomatch h
      · exact Checked.Ordinary.error h

end

/-- A walk fails because of a value on the way, or it is cut off after `hops` links from `u`. -/
def CutOff (memory : Memory) (i hops : Nat) (u : Value) (f : Fault) : Prop :=
  f.Ordinary ∨ ∃ v, f = .endlessChain v ∧ memory.follow i hops u = some v

theorem CutOff.succ (h : CutOff memory i hops w f) (hw : memory.cell u i = some w) :
    CutOff memory i (hops + 1) u f := by
  rcases h with h | ⟨v, hf, h⟩
  · exact .inl h
  · exact .inr ⟨v, hf, by rw [Memory.follow_succ hw, h]⟩

/-- Where a walk is cut off after more links than there are objects, it has come into a circle. -/
theorem CutOff.circular (h : CutOff memory i hops u f) (hhops : memory.population < hops) :
    f.Ordinary ∨ ∃ v, f = .endlessChain v ∧ memory.follow i hops u = some v ∧ memory.Circular i v := by
  rcases h with h | ⟨v, hf, h⟩
  · exact .inl h
  · exact .inr ⟨v, hf, h, Memory.circular_of_follow h hhops⟩

theorem CutOff.circular_of_slots (h : CutOff memory i (memory.slots.size + 1) u f) :
    f.Ordinary ∨ ∃ v, f = .endlessChain v ∧ memory.Circular i v :=
  (h.circular (Nat.lt_succ_of_le memory.population_le)).imp id fun ⟨v, hf, _, h⟩ => ⟨v, hf, h⟩

/-! ### The walks -/

/-- A search for a method fails or is cut off on its way up the superclasses. -/
theorem findMethodWithin_error {selector nil : Value}
    (h : findMethodWithin memory selector nil hops cls = .error f) :
    CutOff memory Class.superclass hops cls f := by
  induction hops generalizing cls with
  | zero =>
    unfold findMethodWithin at h
    split at h
    · cases h
    · exact .inr ⟨cls, (Except.error.inj h).symm, rfl⟩
  | succ hops ih =>
    unfold findMethodWithin at h
    split at h
    · cases h
    rcases Checked.bind_error.1 h with h | ⟨dictionary, -, h⟩
    · exact .inl (Checked.Ordinary.error h)
    rcases Checked.bind_error.1 h with h | ⟨found, -, h⟩
    · exact .inl (Checked.Ordinary.error h)
    cases found with
    | some method => cases h
    | none =>
      rcases Checked.bind_error.1 h with h | ⟨superclass, hsuper, h⟩
      · exact .inl (Checked.Ordinary.error h)
      · exact (ih h).succ (Action.field_ok.1 hsuper)

namespace Action

theorem nil_error : nil m ≠ .error f m' := fun h => nomatch h

theorem fetch_ordinary (h : fetch v i m = .error f m') : m' = m ∧ f.Ordinary := by
  rcases bind_error.1 h with h | ⟨m₁, m₂, hget, h⟩
  · exact nomatch h
  obtain ⟨rfl, rfl⟩ := get_ok.1 hget
  cases hfield : m.memory.field .pointerIndex v i with
  | ok x =>
    rw [hfield] at h
    exact nomatch h
  | error f =>
    rw [hfield] at h
    obtain ⟨rfl, rfl⟩ := EStateM.Result.error.inj h
    exact ⟨rfl, Checked.Ordinary.error hfield⟩

/-- A walk up the superclasses fails or is cut off. -/
theorem isAncestorWithin_error (h : isAncestorWithin target hops cls m = .error f m') :
    m' = m ∧ CutOff m.memory Class.superclass hops cls f := by
  induction hops generalizing cls with
  | zero =>
    unfold isAncestorWithin at h
    split at h
    · cases h
    rcases bind_error.1 h with h | ⟨_, _, hnil, h⟩
    · exact absurd h nil_error
    obtain ⟨rfl, rfl⟩ := nil_ok.1 hnil
    split at h
    · cases h
    · obtain ⟨rfl, rfl⟩ := EStateM.Result.error.inj h
      exact ⟨rfl, .inr ⟨cls, rfl, rfl⟩⟩
  | succ hops ih =>
    unfold isAncestorWithin at h
    split at h
    · cases h
    rcases bind_error.1 h with h | ⟨_, _, hnil, h⟩
    · exact absurd h nil_error
    obtain ⟨rfl, rfl⟩ := nil_ok.1 hnil
    split at h
    · cases h
    rcases bind_error.1 h with h | ⟨superclass, _, hfetch, h⟩
    · exact (fetch_ordinary h).imp id .inl
    obtain ⟨hcell, rfl⟩ := fetch_ok.1 hfetch
    exact (ih h).imp id (·.succ hcell)

/-- A walk down the senders fails or is cut off. -/
theorem senderPathWithin_error {context : Value}
    (h : senderPathWithin target hops context m = .error f m') :
    m' = m ∧ CutOff m.memory Context.sender hops context f := by
  induction hops generalizing context with
  | zero =>
    unfold senderPathWithin at h
    split at h
    · cases h
    rcases bind_error.1 h with h | ⟨_, _, hnil, h⟩
    · exact absurd h nil_error
    obtain ⟨rfl, rfl⟩ := nil_ok.1 hnil
    split at h
    · rcases bind_error.1 h with h | ⟨_, _, h, -⟩
      · obtain ⟨rfl, rfl⟩ := EStateM.Result.error.inj h
        exact ⟨rfl, .inl trivial⟩
      · exact absurd h throw_ok.1
    · obtain ⟨rfl, rfl⟩ := EStateM.Result.error.inj h
      exact ⟨rfl, .inr ⟨context, rfl, rfl⟩⟩
  | succ hops ih =>
    unfold senderPathWithin at h
    split at h
    · cases h
    rcases bind_error.1 h with h | ⟨_, _, hnil, h⟩
    · exact absurd h nil_error
    obtain ⟨rfl, rfl⟩ := nil_ok.1 hnil
    split at h
    · rcases bind_error.1 h with h | ⟨_, _, h, -⟩
      · obtain ⟨rfl, rfl⟩ := EStateM.Result.error.inj h
        exact ⟨rfl, .inl trivial⟩
      · exact absurd h throw_ok.1
    rcases bind_error.1 h with h | ⟨sender, _, hfetch, h⟩
    · exact (fetch_ordinary h).imp id .inl
    obtain ⟨hcell, rfl⟩ := fetch_ok.1 hfetch
    rcases bind_error.1 h with h | ⟨_, _, -, h⟩
    · exact (ih h).imp id (·.succ hcell)
    · cases h

end Action

end Smalltalk
