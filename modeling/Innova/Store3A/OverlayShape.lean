import Innova.Store3A.Shape
import Innova.Store3A.OverlaySpec

/-! The batch overlay on trees without pages. An overlay edit changes one leaf in place,
finalizing keeps the tree, and neither fails but for a failed write or for a leaf that an
overwrite made too large. -/
namespace Innova.Store3A
open Lib Lib.PagedTree Chainstate

namespace BTree
variable [Digest] {t : BTree} {d : Nat}

/-! ## Edits -/

section
variable {tree : Tree Key Bytes d} (overlaid : Overlaid t d x) (stored : Stored t.rd d t.root tree)
include overlaid stored

/-- Replacing the leaf of `k` and marking the way to it changes the tree at this leaf only. -/
theorem Overlaid.edit_shape (change : List Entry → List Entry) (search : Search t.rd k d t.root trail leaf es)
    (loads : Loaded x.refs t m) (cached : ∀ id ∈ ids trail, (m.ovEnt id).n.isSome) :
    Ends (markDirty (ids trail)) (m.withEnt leaf.id { m.ovEnt leaf.id with n := some (.leaf (change es)) })
      (fun _ t' => Stored t'.rd d t'.root (Tree.edit k change d tree)) E := by
  refine (overlaid.mark _ search loads cached).imp ?_
  rintro _ t' ⟨pages, -, here, elsewhere, -⟩
  rw [pages.root]
  exact search.stored_edit stored overlaid.edited.holds (List.Nodup.of_map _ overlaid.nodup) here elsewhere

/-- Loading nodes keeps the tree. -/
theorem Overlaid.loaded_shape (loads : Loaded x.refs t m) : Stored m.rd d m.root tree := by
  rw [loads.pages.root]
  exact stored.frame overlaid.edited.holds loads.view

omit overlaid stored in
omit [Digest] in
/-- The expected size is right for a new key. -/
theorem prospective_absent (absent : Entries.find es k = none) (v : Bytes) :
    prospective es k v = leafSize (Entries.insert es k v) := by
  rw [prospective, Entries.present_eq, absent, leafSize_insert absent]
  rfl

omit overlaid stored in
omit [Digest] in
private theorem prospective_present (found : Entries.find es k = some old) (v : Bytes) :
    prospective es k v = leafSize es := by
  rw [prospective, Entries.present_eq, found]
  rfl

/-- What becomes of the tree: nothing when the caller has to finalize first. -/
theorem overlayPut_shape (fits : Fits d tree) (k : Key)
    (v : Bytes) : Ends (overlayPut k v) t (fun full t' => if full then
          pageSize < leafSize (Entries.insert (Tree.leafAt k d tree) k v) ∧
            Entries.find (Tree.leafAt k d tree) k = none ∧ Stored t'.rd d t'.root tree
        else leafSize (Entries.insert (Tree.leafAt k d tree) k v) ≤ pageSize ∧
          Stored t'.rd d t'.root (Tree.edit k (Entries.insert · k v) d tree))
      (fun e _ => e.code = .internal ∧ (Entries.find (Tree.leafAt k d tree) k).isSome ∧
        pageSize < leafSize (Entries.insert (Tree.leafAt k d tree) k v)) := by
  have small := leafAt_fits fits k
  refine Ends.get (overlaid.descend k ?_)
  intro trail leaf es m search _ loads cached
  rw [search.leafAt stored] at small ⊢
  unfold overlayPutAt
  cases found : Entries.find es k with
  | none =>
    rw [prospective_absent found]
    split
    · next large => exact ends_pure.mpr ⟨large, rfl, overlaid.loaded_shape stored loads⟩
    · next fit =>
      refine (overlaid.edit_shape stored (Entries.insert · k v) search loads cached).seq ?_
      intro _ t' edited
      exact ends_pure.mpr ⟨Nat.le_of_not_lt fit, edited⟩
  | some old =>
    rw [prospective_present found, if_neg (Nat.not_lt.mpr small)]
    refine Ends.bind (show Ends _ (m.withEnt leaf.id _) _ _ from ?_)
    split
    · next large => exact ends_throw.mpr ⟨rfl, rfl, large⟩
    · next fit =>
      refine (overlaid.edit_shape stored (Entries.insert · k v) search loads cached).seq ?_
      intro _ t' edited
      exact ends_pure.mpr ⟨Nat.le_of_not_lt fit, edited⟩

theorem overlayErase_shape (k : Key) :
    Ends (overlayErase k) t (fun _ t' => Stored t'.rd d t'.root (Tree.edit k (Entries.erase · k) d tree))
      (fun _ _ => False) := by
  refine Ends.get (overlaid.descend k ?_)
  intro trail leaf es m search _ loads cached
  unfold overlayEraseAt
  split
  · exact Ends.bind (overlaid.edit_shape stored (Entries.erase · k) search loads cached)
  · next absent =>
    rw [Entries.present_eq, Bool.not_eq_true, Option.isSome_eq_false_iff, Option.isNone_iff_eq_none] at absent
    have same : Entries.erase (Tree.leafAt k d tree) k = Tree.leafAt k d tree := by
      rw [search.leafAt stored, Entries.erase_of_absent absent]
    rw [Tree.edit_same same]
    exact ends_pure.mpr (overlaid.loaded_shape stored loads)

end

/-! ## Finalizing -/

/-- Every node of a tree that fits its pages does. -/
theorem nodeSize_of_fits (holds : Holds t.rd d lo hi r x) (stored : Stored t.rd d r tree) (fits : Fits d tree)
    (member : s ∈ x.refs) (found : t.rd s = some n) : nodeSize n ≤ pageSize := by
  induction d generalizing lo hi r x with
  | zero =>
    obtain ⟨es, -, -, -, rfl⟩ := holds
    cases List.mem_singleton.mp member
    cases found.symm.trans stored
    exact fits
  | succ d ih =>
    obtain ⟨rs, read, all⟩ := stored
    obtain ⟨rs', ks, xs, read', -, chain, rfl⟩ := holds
    obtain ⟨rfl, -⟩ := Node.internal.inj (Option.mem_unique read read')
    obtain ⟨size, -, each⟩ := fits
    rcases List.mem_cons.mp member with rfl | below
    · cases found.symm.trans read
      rw [← all.length_eq] at size
      exact size
    · obtain ⟨y, inside, deeper⟩ := Extent.mem_join_refs.mp below
      obtain ⟨a, b, c, edge, held⟩ := chain.ref_of_member inside
      obtain ⟨i, place⟩ := List.getElem?_of_mem edge
      obtain ⟨child, at_, kept⟩ := forall₂_getElem all place
      exact ih held kept (each child (List.mem_of_getElem? at_)) deeper

theorem Plain.stored (plain : Plain t) (stored : Stored t.kept d r tree) : Stored t.rd d r tree := by
  rw [rd_of_plain plain]
  exact stored.mono fun s n read => (kept_eq_some.mp read).2

/-- The pages of a standing tree are in use. -/
theorem Rooted.stored_kept (rooted : Rooted t d x) {tree : Shape e} (stored : Stored t.disk e t.root tree) :
    Stored t.kept e t.root tree := by
  cases rooted.holds.depth_eq stored
  exact stored.frame rooted.holds fun s member => kept_of_live (rooted.live s member)

/-- Finalizing keeps the tree. -/
theorem finalizeOverlay_shape (overlaid : Overlaid t d x) (stored : Stored t.rd d t.root tree) (fits : Fits d tree) :
    Ends finalizeOverlay t (fun _ t' => Stored t'.kept d t'.root tree) (fun e _ => e.code = .io) := by
  refine (finalizeOverlay_emits overlaid).mono ?_ ?_
  · rintro _ t' ⟨⟨-, d', x', -, rooted, -⟩, trees⟩
    exact rooted.stored_kept (trees tree stored)
  · rintro e t' ⟨-, io | ⟨s, member, n, found, large⟩⟩
    · exact io
    · exact absurd (nodeSize_of_fits overlaid.edited.holds stored fits member found) (Nat.not_le.mpr large)

end BTree
end Innova.Store3A
