import Mathlib.Logic.Function.Basic
import Mathlib.Tactic.Common

/-! Ancestor lookup of `CBlockIndex` over skip links, on a run of nodes with consecutive heights
that is materialized down to a floor only. A pointer into the run is written as the height of
the node it points to; the walk keeps its own count of heights beside the pointer. -/
namespace Innova.BlockIndex.Ancestor

def invertLowestOne (n : Nat) : Nat := n &&& (n - 1)

def getSkipHeight (height : Nat) : Nat :=
  if height < 2 then 0
  else if height &&& 1 ≠ 0 then invertLowestOne (invertLowestOne (height - 1)) + 1
  else invertLowestOne height

private theorem invertLowestOne_lt (positive : 0 < n) : invertLowestOne n < n := by
  have below : invertLowestOne n ≤ n - 1 := Nat.and_le_right
  omega

private theorem getSkipHeight_lt (positive : 0 < height) : getSkipHeight height < height := by
  unfold getSkipHeight
  split
  · exact positive
  split
  · have once := invertLowestOne_lt (n := height - 1) (by omega)
    have twice : invertLowestOne (invertLowestOne (height - 1)) ≤ invertLowestOne (height - 1) := Nat.and_le_left
    omega
  · exact invertLowestOne_lt positive

/-- The links of a run: every node but the floor has its `pprev`. -/
structure Links where
  floor : Nat
  pskip : Nat → Option Nat

namespace Links
variable {links : Links}

def pprev (links : Links) (p : Nat) : Option Nat := if p = links.floor then none else some (p - 1)

/-- The loop of `GetAncestor`; the walker is `none` once it has left the run. -/
def walk (links : Links) (nHeightTarget : Nat) (pindexWalk : Option Nat) (nHeightWalk : Nat) : Option Nat :=
  if nHeightTarget < nHeightWalk then
    match pindexWalk with
    | none => none
    | some p =>
      let nHeightSkip := getSkipHeight nHeightWalk
      let nHeightSkipPrev := getSkipHeight (nHeightWalk - 1)
      if (links.pskip p).isSome ∧ (nHeightSkip = nHeightTarget ∨ nHeightTarget < nHeightSkip ∧
          ¬(nHeightSkipPrev < nHeightSkip - 2 ∧ nHeightTarget ≤ nHeightSkipPrev)) then
        walk links nHeightTarget (links.pskip p) nHeightSkip
      else walk links nHeightTarget (links.pprev p) (nHeightWalk - 1)
  else pindexWalk
termination_by nHeightWalk
decreasing_by
  · exact getSkipHeight_lt (by omega)
  · omega

def getAncestor (links : Links) (p : Nat) (nHeightTarget : Int) : Option Nat :=
  if p < nHeightTarget ∨ nHeightTarget < 0 then none else links.walk nHeightTarget.toNat (some p) p

def buildSkip (links : Links) (p : Nat) : Links :=
  let found := (links.pprev p).bind fun q => links.getAncestor q (getSkipHeight p)
  { links with pskip := Function.update links.pskip p found }

/-- The first `n` nodes get their skip links, from the floor upward. -/
def buildSkips (links : Links) : Nat → Links
  | 0 => links
  | n + 1 => (links.buildSkips n).buildSkip (links.floor + n)

def clear (links : Links) (cleared : Nat → Bool) : Links :=
  { links with pskip := fun p => if cleared p then none else links.pskip p }

/-- A skip link of the first `n` nodes leads to the node at the skip height. -/
def Skips (n : Nat) (links : Links) : Prop :=
  ∀ i q, i < n → links.pskip (links.floor + i) = some q → q = getSkipHeight (links.floor + i) ∧ links.floor ≤ q

/-- The counted height is the walker's own at every step. -/
theorem walk_exact (skips : links.Skips n) (inside : i < n) (target : Nat) (below : target ≤ links.floor + i) :
    links.walk target (some (links.floor + i)) (links.floor + i) = if links.floor ≤ target then
      some target else none := by
  induction i using Nat.strongRecOn with
  | ind i ih =>
    rw [walk]
    split
    · next deeper =>
      dsimp only
      split
      · next skip =>
        obtain ⟨q, link⟩ := Option.isSome_iff_exists.mp skip.1
        obtain ⟨rfl, high⟩ := skips i q inside link
        have lower : getSkipHeight (links.floor + i) < links.floor + i := getSkipHeight_lt (by omega)
        obtain ⟨j, place⟩ := Nat.exists_eq_add_of_le high
        rw [link, place]
        exact ih j (by omega) (by omega) (by omega)
      · cases i with
        | zero =>
          rw [pprev, if_pos (Nat.add_zero _), if_neg (by omega), walk]
          split <;> rfl
        | succ j =>
          rw [pprev, if_neg (by omega)]
          exact ih j (by omega) (by omega) (by omega)
    · rw [if_pos (by omega), show target = links.floor + i by omega]

private theorem ancestor_exact (skips : links.Skips n) (inside : i < n) (target : Int) :
    links.getAncestor (links.floor + i) target =
      if links.floor ≤ target ∧ target ≤ links.floor + i then some target.toNat else none := by
  unfold getAncestor
  split
  · rw [if_neg (by omega)]
  · rw [walk_exact skips inside _ (by omega)]
    by_cases high : links.floor ≤ target.toNat
    · rw [if_pos high, if_pos (by omega)]
    · rw [if_neg high, if_neg (by omega)]

/-- One more node gets its skip link. -/
theorem Skips.buildSkip (skips : links.Skips n) : (links.buildSkip (links.floor + n)).Skips (n + 1) := by
  intro i q inside link
  by_cases last : i = n
  · subst last
    simp only [Links.buildSkip, Function.update_self] at link
    cases i with
    | zero => simp [pprev] at link
    | succ j =>
      rw [pprev, if_neg (by omega), Option.bind_some] at link
      rw [show links.floor + (j + 1) - 1 = links.floor + j by omega, ancestor_exact skips (Nat.lt_succ_self j)] at link
      split at link
      · next within =>
        cases link
        exact ⟨rfl, Int.ofNat_le.mp within.1⟩
      · cases link
  · simp only [Links.buildSkip, Function.update_of_ne (show links.floor + i ≠ links.floor + n by omega)] at link
    exact skips i q (by omega) link

private theorem buildSkips_skips (links : Links) (n : Nat) :
    (links.buildSkips n).floor = links.floor ∧ (links.buildSkips n).Skips n := by
  induction n with
  | zero => exact ⟨rfl, fun i q below => absurd below (Nat.not_lt_zero i)⟩
  | succ n ih =>
    obtain ⟨floor, skips⟩ := ih
    rw [buildSkips, ← floor]
    exact ⟨rfl, skips.buildSkip⟩

/-- On the node `i` above the floor of a run that goes on to `more` nodes above it, `GetAncestor`
finds every node from the floor to its own height and nothing else, whichever skip links are left. -/
theorem getAncestor_exact (links : Links) (i more : Nat) (cleared : Nat → Bool) (target : Int) :
    ((links.buildSkips (i + 1 + more)).clear cleared).getAncestor (links.floor + i) target =
      if links.floor ≤ target ∧ target ≤ links.floor + i then some target.toNat else none := by
  obtain ⟨floor, skips⟩ := links.buildSkips_skips (i + 1 + more)
  rw [← floor]
  have kept : ((links.buildSkips (i + 1 + more)).clear cleared).Skips (i + 1 + more) := by
    intro j q inside link
    simp only [clear] at link
    split at link
    · cases link
    · exact skips j q inside link
  exact ancestor_exact kept (by omega) target

end Links
end Innova.BlockIndex.Ancestor
