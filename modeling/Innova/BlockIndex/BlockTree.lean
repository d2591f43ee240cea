import Innova.BlockIndex.Tip
import Innova.Lib.Lineage

/-! Block index entries as a tree: every block but genesis names a parent of the tree, one lower. -/
namespace Innova.BlockIndex
open Lib Chainstate

def recordLinks : Links Hash Record where
  key := Record.hash
  prev := Record.hashPrev
  height r := r.height.toNat

/-- The block index entries of a tree of blocks. Genesis names no parent, every other block one
of the tree. -/
structure BlockTree extends LinkedTree recordLinks where
  no_zero : find (ByteArr.zero 32) = none
  height_nonneg : ∀ {h b}, find h = some b → 0 ≤ b.height
  root_prev : ∀ {h b}, find h = some b → b.height = 0 → b.hashPrev = ByteArr.zero 32

namespace BlockTree
variable {t : BlockTree} {b p : Record}

theorem hash_ne_zero (has : t.Has b) : b.hash ≠ ByteArr.zero 32 := by
  intro zero
  have found : t.find b.hash = some b := has
  rw [zero, t.no_zero] at found
  cases found

theorem hash_of_find (found : t.find h = some b) : b.hash = h := t.key_find found

theorem height_parent (has : t.Has b) (found : t.find b.hashPrev = some p) : b.height = p.height + 1 := by
  have step : b.height.toNat = p.height.toNat + 1 := has.height_parent found
  have := t.height_nonneg found
  omega

/-- A block names a parent exactly when it has one. -/
theorem parent_iff (has : t.Has b) : b.hashPrev ≠ ByteArr.zero 32 ↔ ∃ p, t.find b.hashPrev = some p := by
  constructor
  · intro named
    cases found : t.find b.hashPrev with
    | some p => exact ⟨p, rfl⟩
    | none =>
      have low : b.height.toNat = 0 := has.height_root found
      have := t.height_nonneg has
      exact absurd (t.root_prev has (by omega)) named
  · rintro ⟨p, found⟩ zero
    rw [zero, t.no_zero] at found
    cases found

theorem height_le_iff (has : t.Has p) : b.height ≤ p.height ↔ b.height.toNat ≤ p.height.toNat := by
  have := t.height_nonneg has
  omega

theorem height_le (has : t.Has p) (member : b ∈ t.lineage p) : b.height ≤ p.height :=
  (height_le_iff has).mpr (has.height_le member)

theorem eq_of_height_le (has : t.Has p) (member : b ∈ t.lineage p) (level : p.height ≤ b.height) : b = p :=
  has.eq_of_mem_lineage member ((height_le_iff (has.of_mem_lineage member)).mp level)

/-- A block of height zero is a root, any other block has its parent in the tree. -/
theorem root_or_parent (has : t.Has b) : (b.height = 0 ∧ t.find b.hashPrev = none) ∨
      ∃ p, t.find b.hashPrev = some p ∧ b.height ≠ 0 ∧ b.hashPrev ≠ ByteArr.zero 32 ∧ b.hashPrev = p.hash := by
  have low := t.height_nonneg has
  cases found : t.find b.hashPrev with
  | none =>
    have level : b.height.toNat = 0 := has.height_root found
    exact .inl ⟨by omega, rfl⟩
  | some p =>
    have above := t.height_parent has found
    have low' := t.height_nonneg found
    exact .inr ⟨p, rfl, by omega, (t.parent_iff has).mpr ⟨p, found⟩, (t.hash_of_find found).symm⟩

/-- A chain has one block at each of its heights. -/
theorem find_height (has : t.Has best) (member : b ∈ t.lineage best) :
    (t.lineage best).find? (fun x => x.height = b.height) = some b := by
  cases found : (t.lineage best).find? (fun x => x.height = b.height) with
  | none => exact absurd (List.find?_eq_none.mp found b member) (by simp)
  | some x =>
    have level : x.height = b.height := by simpa using List.find?_some found
    rw [has.eq_of_height (List.mem_of_find?_eq_some found) member (congrArg Int.toNat level)]

/-- A chain has one block above each of its blocks. -/
theorem find_next (has : t.Has best) (member : n ∈ t.lineage best) (found : t.find n.hashPrev = some b) :
    (t.lineage best).find? (fun x => x.hashPrev = b.hash) = some n := by
  have linked : n.hashPrev = b.hash := (t.hash_of_find found).symm
  cases found' : (t.lineage best).find? (fun x => x.hashPrev = b.hash) with
  | none => exact absurd linked (by simpa using List.find?_eq_none.mp found' n member)
  | some x =>
    have linked' : x.hashPrev = b.hash := by simpa using List.find?_some found'
    have member' := List.mem_of_find?_eq_some found'
    have parent : t.find x.hashPrev = some b := by rw [linked', ← linked]; exact found
    have level : x.height.toNat = n.height.toNat := by
      have one : x.height.toNat = b.height.toNat + 1 := (has.of_mem_lineage member').height_parent parent
      have two : n.height.toNat = b.height.toNat + 1 := (has.of_mem_lineage member).height_parent found
      omega
    rw [has.eq_of_height member' member level]

theorem parent_lineage_subset (has : t.Has b) (found : t.find b.hashPrev = some p) : t.lineage p ⊆ t.lineage b :=
  has.lineage_subset (has.parent_mem_lineage has.mem_lineage_self found)

/-- A block has an ancestor at every height up to its own. -/
theorem exists_ancestor (has : t.Has p) {n : Int} (low : 0 ≤ n) (below : n ≤ p.height) :
    ∃ a ∈ t.lineage p, a.height = n := by
  induction has using LinkedTree.Has.induct with
  | root b has missing =>
    have zero : b.height.toNat = 0 := has.height_root missing
    exact ⟨b, has.mem_lineage_self, by omega⟩
  | step b p has found ih =>
    have above := t.height_parent has found
    by_cases top : n = b.height
    · exact ⟨b, has.mem_lineage_self, top.symm⟩
    · obtain ⟨a, member, level⟩ := ih (by omega)
      exact ⟨a, parent_lineage_subset has found member, level⟩

/-- The checks that make a list of blocks a tree. -/
def linked (blocks : List Record) : Bool :=
  blocks.all fun b =>
    b.hash != ByteArr.zero 32 && decide (0 ≤ b.height) &&
      if b.height = 0 then decide (b.hashPrev = ByteArr.zero 32)
      else (blocks.find? fun p => p.hash = b.hashPrev).any fun p => b.height == p.height + 1

/-- The tree of a list of blocks. -/
def ofBlocks (blocks : List Record) (checked : linked blocks = true) : BlockTree :=
  have each : ∀ {h b}, blocks.find? (fun b => b.hash = h) = some b → b.hash ≠ ByteArr.zero 32 ∧ 0 ≤ b.height ∧
      if b.height = 0 then b.hashPrev = ByteArr.zero 32
      else ∃ p, (blocks.find? fun p => p.hash = b.hashPrev) = some p ∧ b.height = p.height + 1 := by
    intro h b found
    have fits := List.all_eq_true.mp checked b (List.mem_of_find?_eq_some found)
    simp only [Bool.and_eq_true, bne_iff_ne, decide_eq_true_eq] at fits
    refine ⟨fits.1.1, fits.1.2, ?_⟩
    split
    · next zero => exact of_decide_eq_true (by simpa only [if_pos zero] using fits.2)
    · next high => simpa [high, Option.any_eq_true] using fits.2
  have zero : blocks.find? (fun b => b.hash = ByteArr.zero 32) = none := by
    cases found : blocks.find? (fun b => b.hash = ByteArr.zero 32) with
    | none => rfl
    | some b => exact absurd (by simpa using List.find?_some found) (each found).1
  { find := fun h => blocks.find? fun b => b.hash = h
    key_find := fun {h b} found => by
      show b.hash = h
      simpa using List.find?_some found
    parent := fun {h b} found => by
      obtain ⟨-, nonneg, link⟩ := each found
      by_cases low : b.height = 0
      · rw [if_pos low] at link
        refine .inl ⟨by simp [recordLinks, low], ?_⟩
        show blocks.find? (fun p => p.hash = b.hashPrev) = none
        rw [link]
        exact zero
      · rw [if_neg low] at link
        obtain ⟨p, found', above⟩ := link
        have low' := (each found').2.1
        refine .inr ⟨p, found', ?_⟩
        show b.height.toNat = p.height.toNat + 1
        omega
    no_zero := zero
    height_nonneg := fun found => (each found).2.1
    root_prev := fun found low => by simpa [low] using (each found).2.2 }

/-! ## A new block -/

/-- The tree with one more block, of hash `h` and on top of `b`. -/
def addChild (t : BlockTree) (has : t.Has b) {h : Hash} (named : h ≠ ByteArr.zero 32)
    (fresh : t.find h = none) : BlockTree :=
  have parent_ne : b.hash ≠ h := fun same => by
    have here : t.find b.hash = some b := has
    rw [same, fresh] at here
    cases here
  { find := fun k => if k = h then some { hash := h, hashPrev := b.hash, height := b.height + 1 } else t.find k
    key_find := fun {k x} found => by
      show x.hash = k
      split at found
      · next same =>
        cases found
        exact same.symm
      · exact t.hash_of_find found
    parent := fun {k x} found => by
      have low := t.height_nonneg has
      split at found
      · cases found
        refine .inr ⟨b, ?_, ?_⟩
        · show (if b.hash = h then _ else t.find b.hash) = some b
          rw [if_neg parent_ne]
          exact has
        · show (b.height + 1).toNat = b.height.toNat + 1
          omega
      · rcases t.parent found with ⟨zero, missing⟩ | ⟨p, found', above⟩
        · refine .inl ⟨zero, ?_⟩
          have root : x.hashPrev = ByteArr.zero 32 := by
            have nonneg := t.height_nonneg found
            have zero' : x.height.toNat = 0 := zero
            exact t.root_prev found (by omega)
          show (if x.hashPrev = h then _ else t.find x.hashPrev) = none
          rw [if_neg (root ▸ named.symm)]
          exact missing
        · refine .inr ⟨p, ?_, above⟩
          have other : x.hashPrev ≠ h := fun same => by
            have found'' : t.find x.hashPrev = some p := found'
            rw [same, fresh] at found''
            cases found''
          show (if x.hashPrev = h then _ else t.find x.hashPrev) = some p
          rw [if_neg other]
          exact found'
    no_zero := by rw [if_neg named.symm, t.no_zero]
    height_nonneg := fun {k x} found => by
      have low := t.height_nonneg has
      split at found
      · cases found
        show 0 ≤ b.height + 1
        omega
      · exact t.height_nonneg found
    root_prev := fun {k x} found zero => by
      have low := t.height_nonneg has
      split at found
      · cases found
        have zero' : b.height + 1 = 0 := zero
        omega
      · exact t.root_prev found zero }

theorem addChild_grows (t : BlockTree) (has : t.Has b) (named : h ≠ ByteArr.zero 32) (fresh : t.find h = none) :
    t.Grows (t.addChild has named fresh).toLinkedTree := by
  intro k x found
  have other : k ≠ h := fun same => by
    rw [same, fresh] at found
    cases found
  show (if k = h then _ else t.find k) = some x
  rw [if_neg other]
  exact found

theorem find_addChild (t : BlockTree) (has : t.Has b) (named : h ≠ ByteArr.zero 32) (fresh : t.find h = none) :
    (t.addChild has named fresh).find h ≠ none := by
  show (if h = h then _ else t.find h) ≠ none
  rw [if_pos rfl]
  exact Option.some_ne_none _

end BlockTree

/-! ## Flags -/

namespace Record

def generatedStakeModifier (b : Record) : Bool := b.nFlags.testBit 2

end Record

end Innova.BlockIndex
