import Mathlib.Data.List.Forall2
import Mathlib.Data.List.Nodup
import Innova.Lib.AlteredTree
import Innova.Lib.EditedTree

/-! The tree that a reference stands for, without its references: leaves and separators only.
Two stores that hold the same tree behave alike, whatever pages they use for it. -/
namespace Innova.Lib.PagedTree
open Entries

/-- Search trees of uniform depth. -/
def Tree (K V : Type) : Nat → Type
  | 0 => List (K × V)
  | d + 1 => List (Tree K V d) × List K

section Splice
variable {α β : Type} {as : List α}

/-- Puts a few elements in place of element `i`. -/
def splice (as : List α) (i : Nat) (new : List α) : List α := as.take i ++ new ++ as.drop (i + 1)

theorem splice_at (place : left.length = i) (new : List α) :
    splice (left ++ a :: right) i new = left ++ new ++ right := by
  subst place
  simp [splice]

theorem splice_length (found : as[i]? = some a) (new : List α) :
    (splice as i new).length + 1 = as.length + new.length := by
  have inside := (List.getElem?_eq_some_iff.mp found).1
  simp only [splice, List.length_append, List.length_take, List.length_drop]
  omega

/-- The elements around element `i`. -/
theorem split_at (found : as[i]? = some a) : ∃ left right, as = left ++ a :: right ∧ left.length = i := by
  obtain ⟨inside, rfl⟩ := List.getElem?_eq_some_iff.mp found
  exact ⟨as.take i, as.drop (i + 1), by simp, by simp; omega⟩

theorem forall₂_splice (all : List.Forall₂ P as bs) (i : Nat) (fresh : List.Forall₂ P new new') :
    List.Forall₂ P (splice as i new) (splice bs i new') :=
  List.rel_append (List.rel_append (List.forall₂_take i all) fresh) (List.forall₂_drop (i + 1) all)

theorem forall₂_getElem (all : List.Forall₂ P as bs) {i : Nat} (found : as[i]? = some a) :
    ∃ b, bs[i]? = some b ∧ P a b := by
  induction all generalizing i with
  | nil => cases found
  | cons head tail ih =>
    cases i with
    | zero => cases found; exact ⟨_, rfl, head⟩
    | succ i => exact ih found

theorem forall₂_imp_mem (all : List.Forall₂ P as bs) (step : ∀ a ∈ as, ∀ b, P a b → Q a b) : List.Forall₂ Q as bs := by
  induction all with
  | nil => exact .nil
  | cons head tail ih => exact .cons (step _ (by simp) _ head) (ih fun a member => step a (by simp [member]))

theorem forall₂_imp_at (all : List.Forall₂ P as bs) (step : ∀ (j : Nat) a b, as[j]? = some a → P a b → Q a b) :
    List.Forall₂ Q as bs := by
  induction all with
  | nil => exact .nil
  | cons head tail ih => exact .cons (step 0 _ _ rfl head) (ih fun j a b found => step (j + 1) a b found)

/-- Changing one element while the others move from `P` to `Q`. -/
theorem forall₂_change (all : List.Forall₂ P as bs) (found : as[i]? = some a) (here : Q a b)
    (others : ∀ (j : Nat) a b, j ≠ i → as[j]? = some a → P a b → Q a b) : List.Forall₂ Q as (splice bs i [b]) := by
  induction all generalizing i with
  | nil => cases found
  | cons head tail ih =>
    cases i with
    | zero =>
      cases found
      exact .cons here (forall₂_imp_at tail fun j a b found => others (j + 1) a b (by omega) found)
    | succ i =>
      exact .cons (others 0 _ _ (by omega) rfl head)
        (ih found fun j a b apart found => others (j + 1) a b (by omega) found)

end Splice

section Stored
variable {K V R : Type}

/-- Read through `rd`, the reference stands for the tree. -/
def Stored (rd : R → Option (Node K V R)) : (d : Nat) → R → Tree K V d → Prop
  | 0, r, es => rd r = some (.leaf es)
  | d + 1, r, tree => ∃ rs, rd r = some (.internal rs tree.2) ∧ List.Forall₂ (Stored rd d) rs tree.1

theorem Stored.mono (stored : Stored rd d r tree) (more : ∀ s n, rd s = some n → rd' s = some n) :
    Stored rd' d r tree := by
  induction d generalizing r with
  | zero => exact more _ _ stored
  | succ d ih =>
    obtain ⟨rs, read, all⟩ := stored
    exact ⟨rs, more _ _ read, all.imp fun _ _ => ih⟩

theorem nodup_of_join {i : Nat} (nodup : (Extent.join xs).refs.Nodup) (place : xs[i]? = some y) :
    y.refs.Nodup := (List.nodup_flatMap.mp nodup).1 y (List.mem_of_getElem? place)

theorem disjoint_of_join {i j : Nat} (nodup : (Extent.join xs).refs.Nodup) (apart : i ≠ j) (one : xs[i]? = some y)
    (two : xs[j]? = some z) (left : s ∈ y.refs) (right : s ∈ z.refs) : False := by
  have pairwise := (List.nodup_flatMap.mp nodup).2
  obtain ⟨inOne, rfl⟩ := List.getElem?_eq_some_iff.mp one
  obtain ⟨inTwo, rfl⟩ := List.getElem?_eq_some_iff.mp two
  rcases Nat.lt_or_gt_of_ne apart with before | after
  · exact List.pairwise_iff_getElem.mp pairwise i j inOne inTwo before left right
  · exact List.pairwise_iff_getElem.mp pairwise j i inTwo inOne after right left

end Stored

section Trees
variable {K V R : Type} [LinearOrder K]

namespace Tree

/-- The entries in order. -/
def entries : (d : Nat) → Tree K V d → List (K × V)
  | 0, es => es
  | d + 1, tree => tree.1.flatMap (entries d)

/-- The leaf a search for `k` ends in. -/
def leafAt (k : K) : (d : Nat) → Tree K V d → List (K × V)
  | 0, es => es
  | d + 1, tree =>
    match tree.1[slot tree.2 k]? with
    | some child => leafAt k d child
    | none => []

/-- The tree with the leaf of `k` changed. -/
def edit (k : K) (change : List (K × V) → List (K × V)) : (d : Nat) → Tree K V d → Tree K V d
  | 0, es => change es
  | d + 1, tree =>
    match tree.1[slot tree.2 k]? with
    | some child => (splice tree.1 (slot tree.2 k) [edit k change d child], tree.2)
    | none => tree

theorem leafAt_child {child : Tree K V d} (found : ts[slot ks k]? = some child) :
    leafAt k (d + 1) ((ts, ks) : List (Tree K V d) × List K) = leafAt k d child := by
  simp only [leafAt, found]

theorem edit_child {child : Tree K V d} (found : ts[slot ks k]? = some child) :
    edit k change (d + 1) ((ts, ks) : List (Tree K V d) × List K) =
      (splice ts (slot ks k) [edit k change d child], ks) := by
  simp only [edit, found]
  rfl

end Tree

variable {d : Nat} {leaf : R} {x : Extent K V R}

/-- Every well-formed subtree stands for a tree with its entries. -/
theorem Holds.tree (holds : Holds rd d lo hi r x) : ∃ tree, Stored rd d r tree ∧ Tree.entries d tree = x.entries := by
  induction d generalizing lo hi r x with
  | zero =>
    obtain ⟨es, read, -, -, rfl⟩ := holds
    exact ⟨es, read, rfl⟩
  | succ d ih =>
    obtain ⟨rs, ks, xs, read, -, chain, rfl⟩ := holds
    have all : ∃ ts, List.Forall₂ (Stored rd d) rs ts ∧ ts.flatMap (Tree.entries d) = (Extent.join xs).entries := by
      clear read
      induction chain with
      | last only =>
        obtain ⟨tree, stored, entries⟩ := ih only
        exact ⟨[tree], .cons stored .nil, by simpa using entries⟩
      | cons head above below tail rest =>
        obtain ⟨tree, stored, entries⟩ := ih head
        obtain ⟨ts, others, joined⟩ := rest
        exact ⟨tree :: ts, .cons stored others, by simp [entries, joined]⟩
    obtain ⟨ts, stored, entries⟩ := all
    exact ⟨(ts, ks), ⟨rs, read, stored⟩, entries⟩

/-- A well-formed subtree has one depth. -/
theorem Holds.depth_eq (holds : Holds rd d lo hi r x) {tree : Tree K V e} (stored : Stored rd e r tree) : d = e := by
  induction d generalizing lo hi r x e with
  | zero =>
    obtain ⟨es, read, -⟩ := holds
    cases e with
    | zero => rfl
    | succ e => obtain ⟨rs, other, -⟩ := stored; rw [read] at other; cases other
  | succ d ih =>
    obtain ⟨rs, ks, xs, read, -, chain, rfl⟩ := holds
    cases e with
    | zero => rw [Stored, read] at stored; cases stored
    | succ e =>
      obtain ⟨rs', other, all⟩ := stored
      obtain ⟨rfl, -⟩ := Node.internal.inj (Option.mem_unique read other)
      cases chain with
      | last only =>
        obtain ⟨tree, -, head, -⟩ := List.forall₂_cons_left_iff.mp all
        rw [ih only head]
      | cons first _ _ _ =>
        obtain ⟨tree, -, head, -⟩ := List.forall₂_cons_left_iff.mp all
        rw [ih first head]

variable {tree : Tree K V d}

theorem Tree.edit_same (same : change (Tree.leafAt k d tree) = Tree.leafAt k d tree) :
    Tree.edit k change d tree = tree := by
  induction d with
  | zero => exact same
  | succ d ih =>
    obtain ⟨ts, ks⟩ := tree
    cases found : ts[slot ks k]? with
    | none => simp only [Tree.edit, found]; rfl
    | some child =>
      rw [Tree.leafAt_child found] at same
      rw [Tree.edit_child found, ih same]
      obtain ⟨left, right, rfl, place⟩ := split_at found
      rw [splice_at place, List.append_assoc]
      rfl

/-- Leaves of a well-formed tree are sorted. -/
theorem Holds.leafAt_sorted (holds : Holds rd d lo hi r x) (stored : Stored rd d r tree) (k : K) :
    Sorted (Tree.leafAt k d tree) := by
  induction d generalizing lo hi r x with
  | zero =>
    obtain ⟨es, read, sorted, -⟩ := holds
    cases Node.leaf.inj (Option.mem_unique read stored)
    exact sorted
  | succ d ih =>
    obtain ⟨rs, read, all⟩ := stored
    obtain ⟨ts, ks⟩ := tree
    obtain ⟨rs', ks', xs, read', -, chain, rfl⟩ := holds
    obtain ⟨rfl, -⟩ := Node.internal.inj (Option.mem_unique read read')
    cases found : ts[slot ks k]? with
    | none => simp only [Tree.leafAt, found]; exact .nil
    | some child =>
      obtain ⟨c, edge, held⟩ := forall₂_getElem all.flip found
      obtain ⟨a, b, y, -, below⟩ := chain.child_at edge
      rw [Tree.leafAt_child found]
      exact ih below held

theorem Stored.frame (stored : Stored rd d r tree) (holds : Holds rd d lo hi r x)
    (same : ∀ s ∈ x.refs, rd' s = rd s) : Stored rd' d r tree := by
  induction d generalizing lo hi r x with
  | zero => exact (same r holds.root_mem).trans stored
  | succ d ih =>
    have here := same r holds.root_mem
    obtain ⟨rs, read, all⟩ := stored
    obtain ⟨rs', ks, xs, read', -, chain, rfl⟩ := holds
    obtain ⟨rfl, -⟩ := Node.internal.inj (Option.mem_unique read read')
    refine ⟨rs, here.trans read, forall₂_imp_mem all fun c member _ below => ?_⟩
    obtain ⟨a, b, y, inside, held⟩ := chain.member_of_ref member
    exact ih below held fun s deeper => same s (List.mem_cons_of_mem _ (Extent.mem_join_refs.mpr ⟨y, inside, deeper⟩))

/-- Below an unmarked reference the stored pages hold the tree. -/
theorem Edited.stored_clean (edited : Edited rd base dirty d lo hi r x) (clean : ¬dirty r)
    (stored : Stored rd d r tree) : Stored base d r tree := by
  induction d generalizing lo hi r x with
  | zero => exact (edited.2 clean).trans stored
  | succ d ih =>
    obtain ⟨rs, read, all⟩ := stored
    obtain ⟨rs', ks, xs, read', same, -, chain, rfl⟩ := edited
    obtain ⟨rfl, -⟩ := Node.internal.inj (Option.mem_unique read read')
    refine ⟨rs, same.trans read, forall₂_imp_mem all fun c member _ below => ?_⟩
    obtain ⟨a, b, y, -, held⟩ := chain.member_of_ref member
    exact ih held.1 (clean ∘ held.2) below

theorem Search.leafAt (search : Search rd k d r trail leaf es) (stored : Stored rd d r tree) :
    Tree.leafAt k d tree = es := by
  induction search with
  | leaf read => exact (Node.leaf.inj (Option.mem_unique read stored)).symm
  | step read child below ih =>
    obtain ⟨rs, read', all⟩ := stored
    obtain ⟨ts, ks⟩ := tree
    obtain ⟨rfl, rfl⟩ := Node.internal.inj (Option.mem_unique read read')
    obtain ⟨t, found, held⟩ := forall₂_getElem all child
    rw [Tree.leafAt_child found, ih held]

/-- Changing the leaf a search ends in changes the tree there only. -/
theorem Search.stored_edit (search : Search rd k d r trail leaf es) {change : List (K × V) → List (K × V)}
    (stored : Stored rd d r tree) (holds : Holds rd d lo hi r x) (nodup : x.refs.Nodup)
    (written : rd' leaf = some (.leaf (change es))) (same : ∀ s ∈ x.refs, s ≠ leaf → rd' s = rd s) :
    Stored rd' d r (Tree.edit k change d tree) := by
  induction search generalizing lo hi x with
  | leaf read =>
    cases Node.leaf.inj (Option.mem_unique read stored)
    exact written
  | @step d r c leaf rs trail ks es read child below ih =>
    obtain ⟨rs', read', all⟩ := stored
    obtain ⟨ts, js⟩ := tree
    obtain ⟨rfl, rfl⟩ := Node.internal.inj (Option.mem_unique read read')
    obtain ⟨rs', ks', xs, node, -, chain, rfl⟩ := holds
    obtain ⟨rfl, rfl⟩ := Node.internal.inj (Option.mem_unique read node)
    obtain ⟨t, found, held⟩ := forall₂_getElem all child
    obtain ⟨a, b, y, place, inner⟩ := chain.child_at child
    obtain ⟨bottom, inside⟩ := below.inside inner
    have low := inside leaf bottom
    obtain ⟨top, nodupBelow⟩ := List.nodup_cons.mp nodup
    have deeper {z : Extent K V R} (member : z ∈ xs) {s : R} (found : s ∈ z.refs) : s ∈ (Extent.join xs).refs :=
      Extent.mem_join_refs.mpr ⟨z, member, found⟩
    have here : r ≠ leaf := by
      rintro rfl
      exact top (deeper (List.mem_of_getElem? place) low)
    rw [Tree.edit_child found]
    refine ⟨rs, by rw [same r (by simp) here, read], ?_⟩
    refine forall₂_change all child ?_ ?_
    · refine ih held inner (nodup_of_join nodupBelow place) written fun s member => same s ?_
      exact List.mem_cons_of_mem _ (deeper (List.mem_of_getElem? place) member)
    · -- a sibling does not share the changed leaf
      intro j c' t' apart edge held'
      obtain ⟨a', b', z, place', sibling⟩ := chain.child_at edge
      refine held'.frame sibling fun s member =>
        same s (List.mem_cons_of_mem _ (deeper (List.mem_of_getElem? place') member)) ?_
      rintro rfl
      exact disjoint_of_join nodupBelow (Ne.symm apart) place place' low member

end Trees
end Innova.Lib.PagedTree
