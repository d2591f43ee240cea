import Mathlib.Algebra.BigOperators.Group.List.Basic
import Mathlib.Data.List.Perm.Basic
import Mathlib.Tactic.Ring

/-! A list with a flag for each of its entries: the marked entries, their total weight, and what
setting one flag does to it. Also the invariant rule of a left fold that counts its turns. -/
namespace Innova.Lib.Flags

variable {α σ : Type} (weight : α → Int)

def total (xs : List α) : Int := (xs.map weight).sum

/-- The entries of a list that the flags mark. -/
def marked : List α → List Bool → List α
  | x :: xs, flag :: flags => if flag then x :: marked xs flags else marked xs flags
  | _, _ => []

@[simp] theorem total_nil : total weight [] = 0 := rfl

@[simp] theorem total_cons (x : α) (xs : List α) : total weight (x :: xs) = weight x + total weight xs := rfl

theorem total_append (xs ys : List α) : total weight (xs ++ ys) = total weight xs + total weight ys := by
  simp [total]

theorem total_perm (same : xs.Perm ys) : total weight xs = total weight ys :=
  (same.map weight).sum_eq

theorem marked_sublist (xs : List α) (flags : List Bool) : (marked xs flags).Sublist xs := by
  induction xs, flags using marked.induct with
  | case1 x xs flags ih => simpa [marked] using ih
  | case2 x xs flag flags off ih => simpa [marked, off] using ih.cons x
  | case3 xs flags none => simp [marked]

@[simp] theorem marked_all (xs : List α) : marked xs (List.replicate xs.length true) = xs := by
  induction xs with
  | nil => rfl
  | cons x xs ih => simpa [marked, List.replicate_succ] using ih

@[simp] theorem marked_none (xs : List α) (n : Nat) : marked xs (List.replicate n false) = [] := by
  induction xs generalizing n with
  | nil => rfl
  | cons x xs ih =>
    cases n with
    | zero => rfl
    | succ n => simpa [marked, List.replicate_succ] using ih n

/-- Marking one more entry adds its weight. -/
theorem total_marked_set {i : Nat} (entry : xs[i]? = some x) (off : flags[i]? = some false) :
    total weight (marked xs (flags.set i true)) = total weight (marked xs flags) + weight x := by
  induction xs generalizing flags i with
  | nil => simp at entry
  | cons y ys ih =>
    cases flags with
    | nil => simp at off
    | cons flag flags =>
      cases i with
      | zero =>
        obtain rfl : y = x := by simpa using entry
        obtain rfl : flag = false := by simpa using off
        simp [marked, add_comm]
      | succ i =>
        have tail := @ih flags i (by simpa using entry) (by simpa using off)
        cases flag <;> simp [marked, tail, add_assoc]

/-- Taking a mark back restores the flags. -/
theorem set_back {flags : List Bool} (off : flags[i]? = some false) : (flags.set i true).set i false = flags := by
  rw [List.set_set]
  obtain ⟨inside, value⟩ := List.getElem?_eq_some_iff.mp off
  rw [← value, List.set_getElem_self]

/-- The invariant rule of a fold over the entries with their positions. -/
theorem foldl_zipIdx (inv : Nat → σ → Prop) {xs : List α} (start : inv 0 s)
    (step : ∀ i x s, xs[i]? = some x → inv i s → inv (i + 1) (f s (x, i))) : inv xs.length (xs.zipIdx.foldl f s) := by
  -- the suffix still to be folded begins at position `k`
  suffices go : ∀ (ys : List α) (k : Nat) (s : σ), (∀ i, ys[i]? = xs[k + i]?) → inv k s →
      inv (k + ys.length) ((ys.zipIdx k).foldl f s) by
    simpa using go xs 0 s (by simp) start
  intro ys
  induction ys with
  | nil => intro k s _ held; simpa using held
  | cons y ys ih =>
    intro k s suffixed held
    have here : xs[k]? = some y := by simpa using (suffixed 0).symm
    have rest : ∀ i, ys[i]? = xs[k + 1 + i]? := by
      intro i
      have next := suffixed (i + 1)
      rw [List.getElem?_cons_succ] at next
      rw [next, show k + (i + 1) = k + 1 + i by omega]
    have moved := ih (k + 1) (f s (y, k)) rest (step k y s here held)
    rw [List.length_cons, show k + (ys.length + 1) = k + 1 + ys.length by omega]
    exact moved

end Innova.Lib.Flags
