import Innova.Store3A.BatchSpec
import Innova.Store3A.OverlayShape

/-! Lists of operations on trees without pages. The batch overlay takes a tree through the
same trees as operations on the pages do, until an overwrite makes a leaf larger than a
page: there the pages are split and the overlay gives up. -/
namespace Innova.Store3A
open Lib Lib.PagedTree Chainstate

namespace AnyShape

/-- The tree after an operation; `none` is a leaf that cannot be cut. -/
def apply (op : Key × Option Coin) (tree : AnyShape) : Option AnyShape :=
  match op.2 with
  | some c => tree.put op.1 c.encode
  | none => some ⟨tree.1, Tree.edit op.1 (Entries.erase · op.1) tree.1 tree.2⟩

def applyAll : List (Key × Option Coin) → AnyShape → Option AnyShape
  | [], tree => some tree
  | op :: rest, tree => (tree.apply op).bind (applyAll rest)

/-- The key is present, and its new value makes the leaf larger than a page. -/
def Overgrown (op : Key × Option Coin) (tree : AnyShape) : Prop :=
  ∃ c, op.2 = some c ∧ (Entries.find (Tree.leafAt op.1 tree.1 tree.2) op.1).isSome ∧
    pageSize < leafSize (Entries.insert (Tree.leafAt op.1 tree.1 tree.2) op.1 c.encode)

/-- One of the operations is an overwrite that makes its leaf larger than a page. -/
def Outgrown : List (Key × Option Coin) → AnyShape → Prop
  | [], _ => False
  | op :: rest, tree => tree.Overgrown op ∨ ∃ tree', tree.apply op = some tree' ∧ Outgrown rest tree'

variable {tree : AnyShape}

/-- An operation whose leaf fits changes this leaf and nothing else. -/
theorem apply_edit (fits : Fits tree.1 tree.2)
    (small : leafSize (BTree.setEntry (Tree.leafAt op.1 tree.1 tree.2) op) ≤ pageSize) :
    tree.apply op = some ⟨tree.1, Tree.edit op.1 (BTree.setEntry · op) tree.1 tree.2⟩ := by
  obtain ⟨k, after⟩ := op
  cases after with
  | some c =>
    have whole : reshape k (some c.encode) tree.1 tree.2 =
      some (Tree.edit k (BTree.editEntries k (some c.encode)) tree.1 tree.2, none) :=
      reshape_edit fits small
    simp only [apply, put, whole]
    rfl
  | none => rfl

/-- Applying an operation twice is applying it once, where its leaf fits. -/
theorem apply_again (fits : Fits tree.1 tree.2) (sorted : Entries.Sorted (Tree.leafAt op.1 tree.1 tree.2))
    (small : leafSize (BTree.setEntry (Tree.leafAt op.1 tree.1 tree.2) op) ≤ pageSize) :
    apply op ⟨tree.1, Tree.edit op.1 (BTree.setEntry · op) tree.1 tree.2⟩ =
      some ⟨tree.1, Tree.edit op.1 (BTree.setEntry · op) tree.1 tree.2⟩ := by
  have leaf := leafAt_edit fits (BTree.setEntry · op) op.1
  have same := BTree.setEntry_setEntry sorted op
  rw [apply_edit (edit_fits fits small) (by rw [leaf, same]; exact small)]
  dsimp only
  rw [Tree.edit_same (by rw [leaf, same])]

end AnyShape

namespace BTree
variable [Digest] {tree : AnyShape}

/-! ## Operations on the pages -/

open Store in
theorem applyPlain_shape (rooted : Rooted t d x) (plain : Plain t) (stored : Stored t.kept tree.1 t.root tree.2)
    (op : Key × Option Coin) :
    Ends (applyPlain op.1 op.2) t (fun _ t' => ∃ tree', tree.apply op = some tree' ∧
      Stored t'.kept tree'.1 t'.root tree'.2)
      (fun e _ => e.code = .io ∨ tree.apply op = none) := by
  have deep := rooted.depth.1
  rw [rooted.kept.depth_eq stored] at deep
  obtain ⟨k, after⟩ := op
  cases after with
  | some c =>
    refine (put_shape rooted.alloc plain stored deep k c.encode).imp ?_
    rintro _ t' ⟨d', tree', put, stored'⟩
    exact ⟨⟨d', tree'⟩, put, stored'⟩
  | none =>
    refine (erase_shape rooted.alloc plain stored deep k).mono ?_ fun _ _ => .inl
    intro _ t' stored'
    exact ⟨_, rfl, stored'⟩

open Store in
theorem applyPlainAll_shape (rooted : Rooted t d x) (plain : Plain t) (stored : Stored t.kept tree.1 t.root tree.2)
    (ops : List (Key × Option Coin)) : Ends (applyPlainAll ops) t
      (fun _ t' => ∃ tree', tree.applyAll ops = some tree' ∧ Stored t'.kept tree'.1 t'.root tree'.2)
      (fun e _ => e.code = .io ∨ tree.applyAll ops = none) := by
  induction ops generalizing t d x tree with
  | nil => exact ends_pure.mpr ⟨tree, rfl, stored⟩
  | cons op ops ih =>
    refine ((applyPlain_spec rooted plain op).and (applyPlain_shape rooted plain stored op)).seqMono ?_ ?_
    · rintro _ t1 ⟨⟨view, d1, x1, rooted1, -⟩, tree1, applied, stored1⟩
      have later := ih rooted1 (plain.of_view view) stored1
      rw [show tree.applyAll (op :: ops) = tree1.applyAll ops by rw [AnyShape.applyAll, applied]; rfl]
      exact later
    · rintro e t1 ⟨-, io | stuck⟩
      · exact .inl io
      · exact .inr (by rw [AnyShape.applyAll, stuck]; rfl)

/-! ## Operations on the overlay -/

section
variable (overlaid : Overlaid t d x) (stored : Stored t.rd tree.1 t.root tree.2) (fits : Fits tree.1 tree.2)
include overlaid stored fits

open Store in
/-- One operation into the overlay: it changes its leaf, or asks for a finalize first, or fails
at an overwrite that makes the leaf larger than a page. -/
theorem applyOverlay_shape (op : Key × Option Coin) : Ends (applyOverlay op.1 op.2) t
      (fun full t' => ¬tree.Overgrown op ∧ if full then Stored t'.rd tree.1 t'.root tree.2
        else leafSize (setEntry (Tree.leafAt op.1 tree.1 tree.2) op) ≤ pageSize ∧
          Stored t'.rd tree.1 t'.root (Tree.edit op.1 (setEntry · op) tree.1 tree.2))
            (fun _ _ => tree.Overgrown op) := by
  cases overlaid.edited.holds.depth_eq stored
  obtain ⟨k, after⟩ := op
  cases after with
  | some c =>
    refine (overlayPut_shape overlaid stored fits k c.encode).mono ?_ fun e _ failed => ⟨c, rfl, failed.2⟩
    intro full t'
    cases full with
    | true =>
      rintro ⟨-, absent, kept⟩
      refine ⟨?_, kept⟩
      rintro ⟨-, -, present, -⟩
      rw [absent] at present
      cases present
    | false =>
      rintro ⟨small, edited⟩
      refine ⟨?_, small, edited⟩
      rintro ⟨c', same, -, large⟩
      cases same
      exact absurd large (Nat.not_lt.mpr small)
  | none =>
    refine (overlayErase_shape overlaid stored k).seqMono ?_ fun _ _ => False.elim
    intro _ t' edited
    exact ends_pure.mpr ⟨(fun ⟨_, same, _⟩ => nomatch same), erase_fits fits k, edited⟩

open Store in
/-- Finalizing in the middle of a batch and replaying the operation on the pages. -/
theorem replay_shape (op : Key × Option Coin) :
    Ends (do finalizeOverlay; EStateM.modifyGet fun t => ((), t.beginOverlay); applyPlain op.1 op.2) t
      (fun _ t' => ∃ tree', tree.apply op = some tree' ∧ Stored t'.rd tree'.1 t'.root tree'.2 ∧ Fits tree'.1 tree'.2)
      (fun e _ => e.code = .io ∨ tree.apply op = none) := by
  cases overlaid.edited.holds.depth_eq stored
  refine ((finalizeOverlay_spec overlaid).and (finalizeOverlay_shape overlaid stored fits)).seqMono ?_
    fun _ _ failed => .inl failed.2
  rintro _ t1 ⟨⟨closed, d1, x1, ret, rooted, -⟩, kept⟩
  have begun := rooted.beginOverlay
  have plain := closed.begun
  refine Ends.bind
    (ends_modifyGet.mpr (((applyPlain_spec begun plain op).and (applyPlain_shape begun plain kept op)).mono ?_
    fun _ _ failed => failed.2))
  rintro _ t2 ⟨⟨view, -⟩, tree', applied, kept'⟩
  refine ⟨tree', applied, ?_, fits_of_stored kept'⟩
  exact (plain.of_view view).stored kept'

open Store in
private theorem applyOp_shape (op : Key × Option Coin) : Ends (applyOp op.1 op.2) t (fun _ t' => ¬tree.Overgrown op ∧
        ∃ tree', tree.apply op = some tree' ∧ Stored t'.rd tree'.1 t'.root tree'.2 ∧ Fits tree'.1 tree'.2)
      (fun e _ => e.code = .io ∨ tree.apply op = none ∨ tree.Overgrown op) := by
  have sorted : Entries.Sorted (Tree.leafAt op.1 tree.1 tree.2) := by
    have holds := overlaid.edited.holds
    cases holds.depth_eq stored
    exact holds.leafAt_sorted stored op.1
  refine Ends.get ?_
  simp only [overlaid.pending.on, Bool.not_true, Bool.false_eq_true, if_false]
  refine ((applyOverlay_spec overlaid op).and (applyOverlay_shape overlaid stored fits op)).seqMono ?_
    fun _ _ failed => .inr (.inr failed.2)
  rintro full t1 ⟨⟨same, overlaid1⟩, smooth, shape⟩
  refine Ends.get ?_
  cases full with
  | true =>
    simp only [Bool.true_or, if_true]
    refine (replay_shape overlaid1 shape fits op).mono (fun _ _ applied => ⟨smooth, applied⟩) fun _ _ failed => ?_
    exact failed.imp_right .inl
  | false =>
    simp only [Bool.false_eq_true, if_false] at shape overlaid1
    obtain ⟨small, edited⟩ := shape
    have applied := AnyShape.apply_edit fits small
    have fits1 := edit_fits fits small
    simp only [Bool.false_or]
    split
    · -- the operation is in the overlay already; its replay changes nothing more
      let again : AnyShape := ⟨tree.1, Tree.edit op.1 (setEntry · op) tree.1 tree.2⟩
      have edited : Stored t1.rd again.1 t1.root again.2 := edited
      refine (replay_shape overlaid1 edited fits1 op).mono ?_ ?_
      · rw [AnyShape.apply_again fits sorted small, applied]
        exact fun _ _ done => ⟨smooth, done⟩
      · rw [AnyShape.apply_again fits sorted small]
        exact fun _ _ failed => failed.elim .inl nofun
    · exact ends_pure.mpr ⟨smooth, _, applied, edited, fits1⟩

open Store in
/-- The overlay takes a tree through the trees the pages take it through, up to an overwrite
that makes its leaf larger than a page. -/
theorem applyOps_shape (ops : List (Key × Option Coin)) : Ends (applyOps ops) t (fun _ t' => ¬tree.Outgrown ops ∧
        ∃ tree', tree.applyAll ops = some tree' ∧ Stored t'.rd tree'.1 t'.root tree'.2 ∧ Fits tree'.1 tree'.2)
      (fun e _ => e.code = .io ∨ tree.applyAll ops = none ∨ tree.Outgrown ops) := by
  induction ops generalizing t d x tree with
  | nil => exact ends_pure.mpr ⟨id, tree, rfl, stored, fits⟩
  | cons op ops ih =>
    refine ((applyOp_spec overlaid op).and (applyOp_shape overlaid stored fits op)).seqMono ?_ ?_
    · rintro _ t1 ⟨⟨d1, x1, overlaid1, -⟩, smooth, tree1, applied, stored1, fits1⟩
      have all : tree.applyAll (op :: ops) = tree1.applyAll ops := by rw [AnyShape.applyAll, applied]; rfl
      refine (ih overlaid1 stored1 fits1).mono ?_ ?_
      · rintro _ t2 ⟨rest, done⟩
        refine ⟨?_, all ▸ done⟩
        rintro (here | ⟨tree', applied', later⟩)
        · exact smooth here
        · cases applied.symm.trans applied'
          exact rest later
      · rintro e t2 (io | stuck | later)
        · exact .inl io
        · exact .inr (.inl (all ▸ stuck))
        · exact .inr (.inr (.inr ⟨tree1, applied, later⟩))
    · rintro e t1 ⟨-, io | stuck | here⟩
      · exact .inl io
      · exact .inr (.inl (by rw [AnyShape.applyAll, stuck]; rfl))
      · exact .inr (.inr (.inl here))

end

end BTree
end Innova.Store3A
