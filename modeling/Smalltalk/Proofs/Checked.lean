import Mathlib.Data.List.Forall2

/-!
# Computations that may fail

How a chain of computations that may fail came to its end: each step before the last has succeeded, or
one of them has failed and the failure is the end.
-/

namespace Smalltalk.Checked

variable {ε ε' α β : Type} {x : Except ε α} {f : α → Except ε β} {e : ε}

theorem bind_ok {b : β} : x >>= f = .ok b ↔ ∃ a, x = .ok a ∧ f a = .ok b := by
  cases x with
  | error e =>
    change (Except.error e : Except ε β) = .ok b ↔ _
    simp
  | ok a =>
    change f a = .ok b ↔ _
    simp

theorem bind_error : x >>= f = .error e ↔ x = .error e ∨ ∃ a, x = .ok a ∧ f a = .error e := by
  cases x with
  | error e' =>
    change (Except.error e' : Except ε β) = .error e ↔ _
    simp
  | ok a =>
    change f a = .error e ↔ _
    simp

theorem pure_ok {a b : α} : (pure a : Except ε α) = .ok b ↔ a = b := by
  change (Except.ok a : Except ε α) = .ok b ↔ _
  simp

theorem pure_ne_error {a : α} : (pure a : Except ε α) ≠ .error e := by
  change (Except.ok a : Except ε α) ≠ .error e
  simp

theorem throw_ne_ok {a : α} : (throw e : Except ε α) ≠ .ok a := by
  change (Except.error e : Except ε α) ≠ .ok a
  simp

theorem map_error {g : α → β} : g <$> x = .error e ↔ x = .error e := by
  cases x with
  | error e' =>
    change (Except.error e' : Except ε β) = .error e ↔ _
    simp
  | ok a =>
    change (Except.ok (g a) : Except ε β) = .error e ↔ _
    simp

/-- A check that throws was passed. -/
theorem guard_ok {c : Prop} [Decidable c] {y : Except ε α} {g : PUnit → Except ε α} {a : α} :
    (if c then throw e >>= g else y) = .ok a ↔ ¬ c ∧ y = .ok a := by
  by_cases hc : c
  · rw [if_pos hc, bind_ok]
    constructor
    · rintro ⟨u, hu, -⟩
      exact absurd hu throw_ne_ok
    · exact fun h => absurd hc h.1
  · rw [if_neg hc]
    exact ⟨fun h => ⟨hc, h⟩, And.right⟩

theorem mapError_ok {g : ε → ε'} {a : α} : Except.mapError g x = .ok a ↔ x = .ok a := by
  cases x with
  | error e => simp [Except.mapError]
  | ok b => simp [Except.mapError]

/-- All steps over a list succeed, each with its own answer. -/
theorem mapM_ok {as : List α} {bs : List β} :
    as.mapM f = .ok bs ↔ List.Forall₂ (fun a b => f a = .ok b) as bs := by
  induction as generalizing bs with
  | nil => rw [List.mapM_nil, pure_ok, List.forall₂_nil_left_iff, eq_comm]
  | cons a as ih =>
    rw [List.mapM_cons, bind_ok, List.forall₂_cons_left_iff]
    constructor
    · rintro ⟨b, hb, h⟩
      obtain ⟨bs', hbs', h⟩ := bind_ok.1 h
      exact ⟨b, bs', hb, ih.1 hbs', (pure_ok.1 h).symm⟩
    · rintro ⟨b, bs', hb, hbs', rfl⟩
      exact ⟨b, hb, bind_ok.2 ⟨bs', ih.2 hbs', pure_ok.2 rfl⟩⟩

end Smalltalk.Checked
