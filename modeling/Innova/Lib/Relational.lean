import Mathlib.Tactic.Common

/-! Programs that answer the same from any two related states. `Blind R x` says that `x` cannot
tell `R`-related states apart: it answers alike and leaves related states behind. -/
namespace Innova.Lib

variable {σ α β : Type} {R : σ → σ → Prop} {x : StateM σ α} {s t : σ}

def Blind (R : σ → σ → Prop) (x : StateM σ α) : Prop :=
  ∀ s t, R s t → (x.run s).1 = (x.run t).1 ∧ R (x.run s).2 (x.run t).2

theorem blind_pure (a : α) : Blind R (pure a) := fun _ _ related => ⟨rfl, related⟩

theorem run_bind_state : (x >>= f).run s = (f (x.run s).1).run (x.run s).2 := rfl

theorem Blind.bind (first : Blind R x) (next : ∀ a, Blind R (f a)) : Blind R (x >>= f) := by
  intro s t related
  obtain ⟨answer, left⟩ := first s t related
  rw [run_bind_state, answer]
  exact next (x.run t).1 _ _ left

/-- Reading what related states share. -/
theorem blind_gets (shared : ∀ s t, R s t → view s = view t) : Blind R (view <$> get) :=
  fun s t related => ⟨shared s t related, related⟩

theorem Blind.map (blind : Blind R x) (g : α → β) : Blind R (g <$> x) := by
  exact blind.bind fun a => blind_pure (g a)

/-- A list of programs run one after the other leaves related states related. -/
theorem Blind.mapM (each : ∀ a, Blind R (f a)) (items : List α) : Blind R (items.mapM f) := by
  induction items with
  | nil =>
    exact blind_pure []
  | cons item items ih =>
    rw [List.mapM_cons]
    apply (each item).bind
    intro b
    apply ih.bind
    intro rest
    exact blind_pure _

end Innova.Lib
