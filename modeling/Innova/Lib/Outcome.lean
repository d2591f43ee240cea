import Mathlib.Tactic.Common

/-! Pre- and postconditions for programs that keep their state when they fail.
`Ends x s Q E` runs `x` from `s` and asks `Q` of the state it returns with, or
`E` of the state it stops in with an error. -/
namespace Innova.Lib

variable {ε σ α β : Type} {x : EStateM ε σ α} {s t : σ} {a : α} {e : ε}

def Ends (x : EStateM ε σ α) (s : σ) (Q : α → σ → Prop) (E : ε → σ → Prop) : Prop :=
  match x s with
  | .ok a t => Q a t
  | .error e t => E e t

/-- What holds after a run that returned. -/
theorem Ends.of_ok (ends : Ends x s Q E) (ran : x s = .ok a t) : Q a t := by
  simpa only [Ends, ran] using ends

/-- What holds after a run that failed. -/
theorem Ends.of_error (ends : Ends x s Q E) (ran : x s = .error e t) : E e t := by
  simpa only [Ends, ran] using ends

/-- A program that cannot fail returns. -/
theorem Ends.returns (ends : Ends x s Q fun _ _ => False) : ∃ a t, x s = .ok a t ∧ Q a t := by
  unfold Ends at ends
  split at ends
  · next ran => exact ⟨_, _, ran, ends⟩
  · exact ends.elim

/-- Both conclusions may be weakened. -/
theorem Ends.mono (ends : Ends x s Q E) (ok : ∀ a t, Q a t → Q' a t) (error : ∀ e t, E e t → E' e t) :
    Ends x s Q' E' := by
  unfold Ends at ends ⊢
  split at ends
  · exact ok _ _ ends
  · exact error _ _ ends

theorem Ends.imp (ends : Ends x s Q E) (ok : ∀ a t, Q a t → Q' a t) : Ends x s Q' E := ends.mono ok fun _ _ => id

/-- Whatever the program does. -/
theorem ends_true : Ends x s (fun _ _ => True) (fun _ _ => True) := by
  unfold Ends
  split <;> trivial

/-- Two facts about one run. -/
theorem Ends.and (one : Ends x s Q E) (two : Ends x s Q' E') :
    Ends x s (fun a t => Q a t ∧ Q' a t) (fun e t => E e t ∧ E' e t) := by
  unfold Ends at one two ⊢
  split at one
  · next ran => rw [ran] at two; exact ⟨one, two⟩
  · next ran => rw [ran] at two; exact ⟨one, two⟩

/-- What a run established, with the run itself. -/
theorem Ends.ran (ends : Ends x s Q E) :
    Ends x s (fun a t => x s = .ok a t ∧ Q a t) (fun e t => x s = .error e t ∧ E e t) := by
  unfold Ends at ends ⊢
  split at ends
  · next ran => exact ⟨ran, ends⟩
  · next ran => exact ⟨ran, ends⟩

theorem ends_pure : Ends (pure a) s Q E ↔ Q a s := Iff.rfl

theorem ends_throw : Ends (throw e : EStateM ε σ α) s Q E ↔ E e s := Iff.rfl

theorem ends_get {Q : σ → σ → Prop} : Ends (EStateM.get : EStateM ε σ σ) s Q E ↔ Q s s := Iff.rfl

theorem ends_set {Q : PUnit → σ → Prop} : Ends (EStateM.set t : EStateM ε σ PUnit) s Q E ↔ Q ⟨⟩ t := Iff.rfl

theorem ends_modifyGet : Ends (EStateM.modifyGet g : EStateM ε σ α) s Q E ↔ Q (g s).1 (g s).2 := Iff.rfl

theorem bind_apply : (x >>= f) s = match x s with
    | .ok a t => f a t
    | .error e t => .error e t := rfl

/-- Sequencing: what the first part establishes is what the second starts from. -/
theorem Ends.bind (first : Ends x s (fun a t => Ends (f a) t P E) E) : Ends (x >>= f) s P E := by
  unfold Ends at first ⊢
  rw [bind_apply]
  cases ran : x s with
  | ok a t => simpa only [ran] using first
  | error e t => simpa only [ran] using first

/-- Sequencing after a weaker specification of the first part. -/
theorem Ends.seqMono (first : Ends x s Q E) (rest : ∀ a t, Q a t → Ends (f a) t P E') (error : ∀ e t, E e t → E' e t) :
    Ends (x >>= f) s P E' := Ends.bind (first.mono rest error)

/-- One program after another, both failing alike. -/
theorem Ends.seq (first : Ends x s Q E) (rest : ∀ a t, Q a t → Ends (f a) t P E) : Ends (x >>= f) s P E :=
  first.seqMono rest fun _ _ => id

theorem Ends.get (rest : Ends (f s) s P E) : Ends (EStateM.get >>= f) s P E := Ends.bind (ends_get.mpr rest)

/-- A sequence that returned went through its middle state. -/
theorem bind_ok (ran : (x >>= f) s = .ok b t) : ∃ a m, x s = .ok a m ∧ f a m = .ok b t := by
  rw [bind_apply] at ran
  split at ran
  · exact ⟨_, _, ‹_›, ran⟩
  · cases ran

/-- `x` leaves `view` of the state alone, whether it succeeds or fails. -/
def Keeps {γ : Type} (view : σ → γ) (x : EStateM ε σ α) : Prop :=
  ∀ s, Ends x s (fun _ t => view t = view s) (fun _ t => view t = view s)

section Keeps
variable {γ : Type}

theorem keeps_pure : Keeps view (pure a : EStateM ε σ α) := fun _ => rfl

theorem keeps_throw : Keeps view (throw e : EStateM ε σ α) := fun _ => rfl

theorem keeps_get : Keeps view (EStateM.get : EStateM ε σ σ) := fun _ => rfl

/-- A sequence keeps what both parts keep. -/
theorem Keeps.bind (first : Keeps view x) (rest : ∀ a, Keeps view (f a)) : Keeps view (x >>= f) := fun s =>
  (first s).seq fun a m same => (rest a m).mono (fun _ _ later => later.trans same) fun _ _ later => later.trans same

end Keeps

/-- `x` keeps an invariant, whether it succeeds or fails. -/
def Preserves (I : σ → Prop) (x : EStateM ε σ α) : Prop := ∀ s, I s → Ends x s (fun _ t => I t) (fun _ t => I t)

theorem preserves_pure : Preserves I (pure a : EStateM ε σ α) := fun _ held => held

theorem preserves_throw : Preserves I (throw e : EStateM ε σ α) := fun _ held => held

theorem preserves_get : Preserves I (EStateM.get : EStateM ε σ σ) := fun _ held => held

/-- A sequence preserves what both parts do. -/
theorem Preserves.bind (first : Preserves I x) (rest : ∀ a, Preserves I (f a)) : Preserves I (x >>= f) := fun s held =>
  (first s held).seq fun a m => rest a m

theorem Preserves.ok (keeps : Preserves I x) (held : I s) (ran : x s = .ok a t) : I t := by
  have ends := keeps s held
  rwa [Ends, ran] at ends

theorem Preserves.error (keeps : Preserves I x) (held : I s) (ran : x s = .error e t) : I t := by
  have ends := keeps s held
  rwa [Ends, ran] at ends

/-- An invariant from its two ways to end. -/
theorem preserves_of (ok : ∀ {s a t}, I s → x s = .ok a t → I t) (error : ∀ {s e t}, I s → x s = .error e t → I t) :
    Preserves I x := by
  intro s held
  unfold Ends
  cases ran : x s with
  | ok a t => exact ok held ran
  | error e t => exact error held ran

/-- What keeps each value of a view keeps the view. -/
theorem keeps_of_preserves {γ : Type} {view : σ → γ} (each : ∀ c, Preserves (fun s => view s = c) x) : Keeps view x :=
  fun s => each (view s) s rfl

/-- The state a program ends in. -/
def endState (x : EStateM ε σ α) (s : σ) : σ :=
  match x s with
  | .ok _ t => t
  | .error _ t => t

def succeeds (x : EStateM ε σ α) (s : σ) : Bool :=
  match x s with
  | .ok .. => true
  | .error .. => false

/-- The run behind the test that it succeeds. -/
theorem run_of_succeeds {x : EStateM ε σ Unit} (done : succeeds x s = true) : x s = .ok () (endState x s) := by
  unfold succeeds at done
  unfold endState
  split at done
  · next ran => rw [ran]
  · cases done

/-- How a program stops, if it does. -/
def stopped (x : EStateM ε σ α) (s : σ) : Option ε :=
  match x s with
  | .ok .. => none
  | .error e _ => some e

/-- The run behind the error it stopped with. -/
theorem run_of_stopped (stops : stopped x s = some e) : x s = .error e (endState x s) := by
  unfold stopped at stops
  unfold endState
  split at stops
  · cases stops
  · next ran => cases stops; rw [ran]

/-- A computed part of a result, with the result it is a part of. -/
theorem ok_of_map {x : Except ε α} (mapped : x.map g = .ok b) : ∃ a, x = .ok a ∧ g a = b := by
  cases x with
  | ok a => exact ⟨a, rfl, Except.ok.inj mapped⟩
  | error e => cases mapped

end Innova.Lib
