import Mathlib.Data.List.Chain
import Mathlib.Data.List.Pairwise
import Mathlib.Data.List.Nodup
import Mathlib.Tactic.Common

/-! Trees given by parent links: blocks that are found by a key, name their parent by its key and
count their distance from the root. The lineage of a block is the block, its parent, and so on
down to the root. -/
namespace Innova.Lib

/-- How a block names itself and its parent, and how far it is from the root. -/
structure Links (K β : Type) where
  key : β → K
  prev : β → K
  height : β → Nat

/-- A lookup of blocks by key that leads from every block down to a root. -/
structure LinkedTree {K β : Type} (L : Links K β) where
  find : K → Option β
  key_find : ∀ {k b}, find k = some b → L.key b = k
  parent : ∀ {k b}, find k = some b →
    (L.height b = 0 ∧ find (L.prev b) = none) ∨ ∃ p, find (L.prev b) = some p ∧ L.height b = L.height p + 1

variable {K β : Type} {L : Links K β}

namespace LinkedTree
variable (t : LinkedTree L) {b : β} {k : K}

def Has (b : β) : Prop := t.find (L.key b) = some b

/-- The blocks from `b` down, at most `n` steps. -/
def up : Nat → β → List β
  | 0, b => [b]
  | n + 1, b => b :: ((t.find (L.prev b)).map (up n)).getD []

def lineage (b : β) : List β := t.up (L.height b) b

variable {t}

theorem has_find (found : t.find k = some b) : t.Has b := by
  rw [Has, t.key_find found]
  exact found

theorem Has.eq_of_key (has : t.Has a) (has' : t.Has b) (same : L.key a = L.key b) : a = b := by
  rw [Has, same] at has
  exact Option.mem_unique has has'

theorem Has.height_parent (has : t.Has b) (found : t.find (L.prev b) = some p) : L.height b = L.height p + 1 := by
  rcases t.parent has with ⟨-, missing⟩ | ⟨q, found', above⟩
  · rw [missing] at found
    cases found
  · rw [found] at found'
    cases found'
    exact above

theorem Has.height_root (has : t.Has b) (missing : t.find (L.prev b) = none) : L.height b = 0 := by
  rcases t.parent has with ⟨zero, -⟩ | ⟨p, found, -⟩
  · exact zero
  · rw [missing] at found
    cases found

theorem lineage_root (has : t.Has b) (missing : t.find (L.prev b) = none) : t.lineage b = [b] := by
  rw [lineage, has.height_root missing, up]

theorem lineage_step (has : t.Has b) (found : t.find (L.prev b) = some p) : t.lineage b = b :: t.lineage p := by
  rw [lineage, has.height_parent found, up, found]
  rfl

/-- What holds of a block as soon as it holds of its parent holds of every block. -/
@[elab_as_elim]
theorem Has.induct {P : (b : β) → t.Has b → Prop} (root : ∀ b (has : t.Has b), t.find (L.prev b) = none → P b has)
    (step : ∀ b p (has : t.Has b) (found : t.find (L.prev b) = some p), P p (has_find found) → P b has)
    (has : t.Has b) : P b has := by
  generalize height : L.height b = n
  induction n generalizing b with
  | zero =>
    apply root b has
    cases found : t.find (L.prev b) with
    | none => rfl
    | some p =>
      have above := has.height_parent found
      omega
  | succ n ih =>
    cases found : t.find (L.prev b) with
    | none => exact root b has found
    | some p =>
      have above := has.height_parent found
      exact step b p has found (ih (has_find found) (by omega))

theorem Has.mem_lineage_self (has : t.Has b) : b ∈ t.lineage b := by
  cases found : t.find (L.prev b) with
  | none => simp [lineage_root has found]
  | some p => simp [lineage_step has found]

/-- What holds of a block and passes on to parents holds of every ancestor. -/
theorem Has.descend {P : β → Prop} (has : t.Has b) (self : P b)
    (parent : ∀ {a p}, t.Has a → t.find (L.prev a) = some p → P a → P p) (member : a ∈ t.lineage b) : P a := by
  induction has using Has.induct with
  | root b has missing =>
    rw [lineage_root has missing, List.mem_singleton] at member
    exact member ▸ self
  | step b p has found ih =>
    rw [lineage_step has found] at member
    rcases List.mem_cons.mp member with rfl | below
    · exact self
    · exact ih (parent has found self) below

section
variable (has : t.Has b)
include has

theorem Has.of_mem_lineage (member : a ∈ t.lineage b) : t.Has a :=
  has.descend (P := t.Has) has (fun _ found _ => has_find found) member

/-- The lineage of an ancestor is the end of the lineage. -/
theorem Has.lineage_suffix (member : a ∈ t.lineage b) : t.lineage a <:+ t.lineage b := by
  refine has.descend (P := fun a => t.lineage a <:+ t.lineage b) List.suffix_rfl
    (fun {a p} has found suffix => ?_) member
  rw [lineage_step has found] at suffix
  exact (List.suffix_cons a _).trans suffix

theorem Has.height_le (member : a ∈ t.lineage b) : L.height a ≤ L.height b := by
  refine has.descend (P := fun a => L.height a ≤ L.height b) (Nat.le_refl _) (fun has found below => ?_) member
  have above := has.height_parent found
  omega

/-- Heights fall along a lineage. -/
theorem Has.descending : (t.lineage b).Pairwise fun x y => L.height y < L.height x := by
  induction has using Has.induct with
  | root b has missing => simp [lineage_root has missing]
  | step b p has found ih =>
    rw [lineage_step has found, List.pairwise_cons]
    refine ⟨fun a member => ?_, ih⟩
    have above := has.height_parent found
    have below := (has_find found).height_le member
    omega

theorem Has.lineage_length : (t.lineage b).length = L.height b + 1 := by
  induction has using Has.induct with
  | root b has missing => simp [lineage_root has missing, has.height_root missing]
  | step b p has found ih => simp [lineage_step has found, ih, has.height_parent found]

/-- Of two blocks on one lineage the lower is an ancestor of the higher. -/
theorem Has.mem_lineage_of_le (one : x ∈ t.lineage b) (two : y ∈ t.lineage b)
    (below : L.height x ≤ L.height y) : x ∈ t.lineage y := by
  induction has using Has.induct with
  | root b has missing =>
    rw [lineage_root has missing, List.mem_singleton] at two
    rw [two]
    exact one
  | step b p has found ih =>
    have above := has.height_parent found
    rw [lineage_step has found] at two
    rcases List.mem_cons.mp two with rfl | lower
    · exact one
    · rw [lineage_step has found] at one
      rcases List.mem_cons.mp one with rfl | lowest
      · have := (has_find found).height_le lower
        omega
      · exact ih lowest lower

/-- An ancestor of the same height is the block itself. -/
theorem Has.eq_of_mem_lineage (member : a ∈ t.lineage b) (level : L.height b ≤ L.height a) : a = b := by
  cases found : t.find (L.prev b) with
  | none =>
    rw [lineage_root has found, List.mem_singleton] at member
    exact member
  | some p =>
    rw [lineage_step has found] at member
    rcases List.mem_cons.mp member with same | below
    · exact same
    · have above := has.height_parent found
      have := (has_find found).height_le below
      omega

/-- A lineage has one block of each height. -/
theorem Has.eq_of_height (one : x ∈ t.lineage b) (two : y ∈ t.lineage b)
    (level : L.height x = L.height y) : x = y :=
  (has.of_mem_lineage two).eq_of_mem_lineage (has.mem_lineage_of_le one two (Nat.le_of_eq level))
    (Nat.le_of_eq level.symm)

/-- The parent of a block on a lineage is on it. -/
theorem Has.parent_mem_lineage (member : a ∈ t.lineage b) (found : t.find (L.prev a) = some p) :
    p ∈ t.lineage b := by
  have step := lineage_step (has.of_mem_lineage member) found
  apply (has.lineage_suffix member).subset
  rw [step]
  exact List.mem_cons_of_mem _ (has_find found).mem_lineage_self

theorem Has.lineage_subset (member : a ∈ t.lineage b) : t.lineage a ⊆ t.lineage b :=
  (has.lineage_suffix member).subset

/-- The blocks of one lineage have different keys. -/
theorem Has.lineage_keys_nodup : ((t.lineage b).map L.key).Nodup := by
  rw [List.Nodup, List.pairwise_map]
  apply has.descending.imp_of_mem
  intro x y one two above same
  have found : t.find (L.key x) = some x := has.of_mem_lineage one
  have found' : t.find (L.key y) = some y := has.of_mem_lineage two
  rw [same, found'] at found
  cases found
  omega

/-- Each block of a lineage is followed by its parent. -/
theorem Has.lineage_isChain : (t.lineage b).IsChain fun x y => t.find (L.prev x) = some y := by
  induction has using Has.induct with
  | root b has missing => simp [lineage_root has missing]
  | step b p has found ih =>
    rw [lineage_step has found]
    cases found' : t.find (L.prev p) with
    | none => simp [lineage_root (has_find found) found', found]
    | some q =>
      rw [lineage_step (has_find found) found'] at ih ⊢
      exact List.isChain_cons_cons.mpr ⟨found, ih⟩

theorem Has.lineage_head : ∃ rest, t.lineage b = b :: rest := by
  cases found : t.find (L.prev b) with
  | none => exact ⟨[], lineage_root has found⟩
  | some p => exact ⟨_, lineage_step has found⟩

/-- The first of the blocks above an ancestor is the block, the others lie above it on the parent's
lineage. -/
theorem Has.lineage_above (split : t.lineage b = x :: above ++ t.lineage a) (has' : t.Has a) :
    x = b ∧ ∃ p, t.find (L.prev b) = some p ∧ t.lineage p = above ++ t.lineage a := by
  cases found : t.find (L.prev b) with
  | none =>
    obtain ⟨rest, head⟩ := has'.lineage_head
    rw [lineage_root has found, head] at split
    simp at split
  | some p =>
    rw [lineage_step has found, List.cons_append, List.cons.injEq] at split
    exact ⟨split.1.symm, p, rfl, split.2⟩

/-- The blocks from one down to an ancestor of it. -/
theorem Has.lineage_between (has' : t.Has a) (split : t.lineage b = above ++ t.lineage a) :
    ∃ more rest, above ++ [a] = b :: more ∧ t.lineage b = b :: (more ++ rest) := by
  obtain ⟨rest, head⟩ := has'.lineage_head
  obtain ⟨others, first⟩ := has.lineage_head
  have whole : t.lineage b = above ++ [a] ++ rest := by rw [split, head]; simp
  cases path : above ++ [a] with
  | nil => simp at path
  | cons x more =>
    rw [path] at whole
    obtain rfl : b = x := (List.cons.inj (first.symm.trans whole)).1
    exact ⟨more, rest, rfl, whole⟩

theorem Has.length_between (has' : t.Has a) (split : t.lineage b = above ++ t.lineage a) :
    above.length + L.height a = L.height b := by
  have total := has.lineage_length
  rw [split, List.length_append, has'.lineage_length] at total
  omega

end

/-! ## Growth -/

/-- The blocks of one tree are found in the other too. -/
def Grows (t t' : LinkedTree L) : Prop := ∀ {k b}, t.find k = some b → t'.find k = some b

theorem Grows.refl (t : LinkedTree L) : t.Grows t := fun found => found

theorem Grows.trans (one : t.Grows t') (two : t'.Grows t'') : t.Grows t'' := fun found => two (one found)

theorem Grows.has (grows : t.Grows t') (has : t.Has b) : t'.Has b := grows has

/-- A block keeps its lineage: what arrives later is never below it. -/
theorem Grows.lineage_eq (grows : t.Grows t') (has : t.Has b) : t'.lineage b = t.lineage b := by
  induction has using Has.induct with
  | root b has missing =>
    have zero := has.height_root missing
    have missing' : t'.find (L.prev b) = none := by
      rcases t'.parent (grows.has has) with ⟨-, missing'⟩ | ⟨p, -, above⟩
      · exact missing'
      · omega
    rw [lineage_root has missing, lineage_root (grows.has has) missing']
  | step b p has found ih => rw [lineage_step has found, lineage_step (grows.has has) (grows found), ih]

end LinkedTree
end Innova.Lib
