import Innova.Lib.Outcome

/-! Programs as lists of steps. A step that touches the outside world may meet a fault there; the
program then stops with an error, in a state that depends on the fault. `io` says which points
meet one. -/
namespace Innova.Lib

/-- A step of a program over states `σ`, with points `π`, faults `ω` and errors `ε`. -/
inductive Step (π ω σ ε : Type) where
  /-- A change of the state that cannot fail. -/
  | change (effect : σ → σ)
  /-- The program stops here. -/
  | refuse (e : ε)
  /-- A change that a fault at its point prevents. -/
  | perform (p : π) (effect : σ → σ) (error : ω → ε) (stopped : ω → σ → σ)

namespace Step
variable {π ω σ ε : Type} {io : π → Option ω} {xs : List (Step π ω σ ε)} {x : Step π ω σ ε} {s t : σ} {e : ε}

def effect : Step π ω σ ε → σ → σ
  | change f => f
  | refuse _ => id
  | perform _ f _ _ => f

/-- The state after all steps. -/
def after (xs : List (Step π ω σ ε)) (s : σ) : σ := xs.foldl (fun s x => x.effect s) s

/-- The step goes through. -/
def Passes (io : π → Option ω) : Step π ω σ ε → Prop
  | change _ => True
  | refuse _ => False
  | perform p _ _ _ => io p = none

/-- The step ends the program with `e`, and leaves `t` when it is reached in `s`. -/
def Stops (io : π → Option ω) (x : Step π ω σ ε) (s : σ) (e : ε) (t : σ) : Prop :=
  match x with
  | change _ => False
  | refuse e' => e = e' ∧ t = s
  | perform p _ error stopped => ∃ w, io p = some w ∧ e = error w ∧ t = stopped w s

def run (io : π → Option ω) : List (Step π ω σ ε) → EStateM ε σ Unit
  | [] => pure ()
  | change f :: rest => fun s => run io rest (f s)
  | refuse e :: _ => throw e
  | perform p f error stopped :: rest => fun s =>
    match io p with
    | none => run io rest (f s)
    | some w => .error (error w) (stopped w s)

@[simp] theorem after_nil : after ([] : List (Step π ω σ ε)) s = s := rfl

@[simp] theorem after_cons : after (x :: xs) s = after xs (x.effect s) := rfl

theorem after_append : after (xs ++ ys) s = after ys (after xs s) := List.foldl_append

theorem run_append : run io (xs ++ ys) = run io xs >>= fun _ => run io ys := by
  funext s
  induction xs generalizing s with
  | nil => rfl
  | cons x xs ih =>
    rw [List.cons_append, bind_apply]
    cases x with
    | change f => simp only [run, ih, bind_apply]
    | refuse e => rfl
    | perform p f error stopped =>
      simp only [run]
      cases io p with
      | none => simp only [ih, bind_apply]
      | some w => rfl

theorem run_of_stops (stops : x.Stops io s e t) : run io (x :: xs) s = .error e t := by
  cases x with
  | change f => exact stops.elim
  | refuse e' =>
    obtain ⟨rfl, rfl⟩ := stops
    rfl
  | perform p f error stopped =>
    obtain ⟨w, fault, rfl, rfl⟩ := stops
    simp only [run, fault]

theorem run_ok : run io xs s = .ok () t ↔ (∀ x ∈ xs, x.Passes io) ∧ t = after xs s := by
  induction xs generalizing s with
  | nil =>
    constructor
    · intro ran; cases ran; exact ⟨by simp, rfl⟩
    · rintro ⟨-, rfl⟩; rfl
  | cons x xs ih =>
    cases x with
    | change f => simpa [run, Passes, effect] using ih
    | refuse e =>
      constructor
      · intro ran; cases ran
      · rintro ⟨passes, -⟩; exact (passes _ List.mem_cons_self).elim
    | perform p f error stopped =>
      cases fault : io p with
      | none => simpa [run, Passes, effect, fault] using ih
      | some w => simp [run, Passes, fault]

theorem run_error : run io xs s = .error e t ↔
    ∃ pre x post, xs = pre ++ x :: post ∧ (∀ y ∈ pre, y.Passes io) ∧ x.Stops io (after pre s) e t := by
  constructor
  · intro ran
    induction xs generalizing s with
    | nil => cases ran
    | cons x xs ih =>
      have later (passes : x.Passes io) (rest : run io xs (x.effect s) = .error e t) :
          ∃ pre y post, x :: xs = pre ++ y :: post ∧ (∀ z ∈ pre, z.Passes io) ∧ y.Stops io (after pre s) e t := by
        obtain ⟨pre, y, post, rfl, before, stops⟩ := ih rest
        exact ⟨x :: pre, y, post, rfl, by simpa using ⟨passes, before⟩, stops⟩
      cases x with
      | change f => exact later trivial ran
      | refuse e' => cases ran; exact ⟨[], _, _, rfl, by simp, rfl, rfl⟩
      | perform p f error stopped =>
        simp only [run] at ran
        split at ran
        · next fine => exact later fine ran
        · next w fault => cases ran; exact ⟨[], _, _, rfl, by simp, w, fault, rfl, rfl⟩
  · rintro ⟨pre, x, post, rfl, before, stops⟩
    rw [run_append, bind_apply, run_ok.mpr ⟨before, rfl⟩]
    exact run_of_stops stops

/-- A sequence of two parts stops in the first, or in the second when the first went through. -/
theorem run_append_error : run io (xs ++ ys) s = .error e t ↔
    run io xs s = .error e t ∨ (∀ x ∈ xs, x.Passes io) ∧ run io ys (after xs s) = .error e t := by
  rw [run_append, bind_apply]
  cases ran : run io xs s with
  | ok _ u =>
    obtain ⟨passed, rfl⟩ := run_ok.mp ran
    constructor
    · intro stopped; exact .inr ⟨passed, stopped⟩
    · rintro (⟨⟨⟩⟩ | ⟨-, stopped⟩); exact stopped
  | error e' u =>
    constructor
    · rintro ⟨⟩; exact .inl rfl
    · rintro (same | ⟨passed, -⟩)
      · exact same
      · cases ran.symm.trans (run_ok.mpr ⟨passed, rfl⟩)

/-! ### What steps keep -/

/-- No step breaks `I`, whether it goes through or stops. -/
def Keeps (I : σ → Prop) (xs : List (Step π ω σ ε)) : Prop :=
  ∀ x ∈ xs, ∀ s, I s → I (x.effect s) ∧ ∀ io e t, x.Stops io s e t → I t

theorem keeps_nil : Keeps I ([] : List (Step π ω σ ε)) := by
  intro x member
  cases member

theorem Keeps.cons (first : ∀ s, I s → I (x.effect s) ∧ ∀ io e t, x.Stops io s e t → I t) (rest : Keeps I xs) :
    Keeps I (x :: xs) := by
  intro y member
  rcases List.mem_cons.mp member with rfl | member
  · exact first
  · exact rest y member

theorem Keeps.change {effect : σ → σ} (keeps : ∀ s, I s → I (effect s)) (rest : Keeps I xs) :
    Keeps I (.change effect :: xs) :=
  .cons (fun s held => ⟨keeps s held, fun _ _ _ stops => stops.elim⟩) rest

theorem Keeps.refuse (rest : Keeps I xs) : Keeps I (.refuse e :: xs) :=
  .cons (fun _ held => ⟨held, fun _ _ _ ⟨_, same⟩ => same ▸ held⟩) rest

theorem Keeps.perform {effect : σ → σ} {stopped : ω → σ → σ} (keeps : ∀ s, I s → I (effect s))
    (stops : ∀ w s, I s → I (stopped w s)) (rest : Keeps I xs) : Keeps I (.perform p effect error stopped :: xs) :=
  .cons (fun s held => ⟨keeps s held, fun _ _ _ ⟨w, _, _, same⟩ => same ▸ stops w s held⟩) rest

theorem Keeps.append (left : Keeps I xs) (right : Keeps I ys) : Keeps I (xs ++ ys) := by
  intro x member
  rcases List.mem_append.mp member with member | member
  · exact left x member
  · exact right x member

/-- What every step keeps holds after any of them. -/
theorem Keeps.after (keeps : Keeps I xs) (held : I s) : I (after xs s) := by
  induction xs generalizing s with
  | nil => exact held
  | cons x xs ih =>
    exact ih (fun y member => keeps y (List.mem_cons_of_mem x member)) (keeps x List.mem_cons_self s held).1

/-- And where they stop. -/
theorem Keeps.error (keeps : Keeps I xs) (held : I s) (stopped : run io xs s = .error e t) : I t := by
  obtain ⟨pre, x, post, rfl, -, stops⟩ := run_error.mp stopped
  have before : I (Step.after pre s) := Keeps.after (fun y member => keeps y (by simp [member])) held
  exact (keeps x (by simp) _ before).2 io e t stops

end Step
end Innova.Lib
