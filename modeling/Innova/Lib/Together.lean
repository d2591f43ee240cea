import Mathlib.Algebra.Ring.Int.Defs
import Mathlib.Tactic.Common

/-! Two fallible programs side by side. `Together R x y` says that both fail with the same
error, or that both succeed with results that are related. -/
namespace Innova.Lib

variable {ε α β γ δ ι : Type}

def Together (R : α → β → Prop) : Except ε α → Except ε β → Prop
  | .ok a, .ok b => R a b
  | .error e, .error e' => e = e'
  | _, _ => False

section Rules
variable {f : α → Except ε γ}

theorem together_ok (related : R a b) : Together R (.ok a : Except ε α) (.ok b) := related

theorem together_error (e : ε) : Together R (.error e) (.error e) := rfl

theorem Together.bind (first : Together R x y) (rest : ∀ a b, R a b → Together S (f a) (g b)) :
    Together S (x >>= f) (y >>= g) := by
  cases x with
  | ok a =>
    cases y with
    | ok b => exact rest a b first
    | error e => exact first.elim
  | error e =>
    cases y with
    | ok b => exact first.elim
    | error e' => exact first

/-- Loops over one list, step by step. -/
theorem Together.foldlM (steps : ∀ a b i, R a b → Together R (step a i) (step' b i)) (l : List ι) (start : R a b) :
    Together R (l.foldlM step a) (l.foldlM step' b) := by
  induction l generalizing a b with
  | nil => exact start
  | cons i l ih =>
    exact (steps a b i start).bind fun _ _ => ih

theorem except_bind_ok (ran : (x >>= f) = .ok c) : ∃ a, x = .ok a ∧ f a = .ok c := by
  cases x with
  | ok a => exact ⟨a, rfl, ran⟩
  | error e => cases ran

theorem except_bind_ok_iff {x : Except ε α} {f : α → Except ε β} :
    (x >>= f) = .ok c ↔ ∃ a, x = .ok a ∧ f a = .ok c := by
  refine ⟨except_bind_ok, ?_⟩
  rintro ⟨a, rfl, ran⟩
  exact ran

/-- A loop whose every step adds at most `g i` to a measure adds at most their sum. -/
theorem foldlM_bounded {step : α → ι → Except ε α} {P : α → Prop} {m : α → Int} {g : ι → Int}
    (steps : ∀ a i a', P a → step a i = .ok a' → P a' ∧ m a' ≤ m a + g i) (l : List ι) (start : P a)
    (ran : l.foldlM step a = .ok a') : P a' ∧ m a' ≤ m a + (l.map g).sum := by
  induction l generalizing a with
  | nil =>
    cases ran
    exact ⟨start, by simp⟩
  | cons i l ih =>
    obtain ⟨b, first, rest⟩ := except_bind_ok ran
    obtain ⟨holds, here⟩ := steps a i b start first
    obtain ⟨ends, below⟩ := ih holds rest
    refine ⟨ends, ?_⟩
    rw [List.map_cons, List.sum_cons]
    omega

/-- What every step of a loop keeps, a loop that succeeds keeps. -/
theorem foldlM_keeps {step : α → ι → Except ε α} {P : α → Prop} (steps : ∀ a i a', P a → step a i = .ok a' → P a')
    (l : List ι) (start : P a) (ran : l.foldlM step a = .ok a') : P a' :=
  (foldlM_bounded (m := fun _ => 0) (g := fun _ => 0)
    (fun a i a' held ran => ⟨steps a i a' held ran, Int.le_refl 0⟩) l start ran).1

section Log
variable {ρ : Type} {step : α → ι → Except ε α} {W : ρ → Prop}

end Log

/-- Related results that determine the same answer are one answer. -/
theorem Together.map_eq (together : Together R x y) (same : ∀ a b, R a b → p a = q b) : x.map p = y.map q := by
  cases x with
  | ok a =>
    cases y with
    | ok b => exact congrArg Except.ok (same a b together)
    | error e => exact together.elim
  | error e =>
    cases y with
    | ok b => exact together.elim
    | error e' => exact congrArg Except.error together

end Rules
end Innova.Lib
