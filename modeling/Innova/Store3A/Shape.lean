import Innova.Lib.TreeShape
import Innova.Store3A.Authenticated

/-! The updates of `btree.cpp` on trees without pages. A program that rewrites pages does to
the tree it stands for exactly what `reshape` does, whichever pages it takes, and fails for
no other reason than a failed write or a leaf that cannot be cut in two. -/
namespace Innova.Store3A
open Lib Lib.PagedTree Chainstate

abbrev Shape := Tree Key Bytes

/-! ## Updates without pages -/

/-- A right sibling, with the separator before it. -/
abbrev Cut (d : Nat) := Option (Key × Shape d)

def reshapeLeaf (entries : List Entry) : Option (Shape 0 × Cut 0) :=
  let left := entries.take (entries.length / 2)
  let right := entries.drop (entries.length / 2)
  if leafSize entries ≤ pageSize then some (entries, none)
  else match right with
    | [] => none
    | first :: _ =>
      if leafSize left ≤ pageSize ∧ leafSize right ≤ pageSize then some (left, some (first.1, right)) else none

/-- The size of an internal page by its numbers of children and separators. -/
def widthSize (children keys : Nat) : Nat := 4 + children * (4 + 32) + keys * 36

def reshapeInternal {d : Nat} (children : List (Shape d)) (keys : List Key) : Shape (d + 1) × Cut (d + 1) :=
  if widthSize children.length keys.length ≤ pageSize then ((children, keys), none)
  else
    let half := keys.length / 2
    ((children.take (half + 1), keys.take half),
      some (keys.getD half (ByteArr.zero 36), (children.drop (half + 1), keys.drop (half + 1))))

/-- `modRec` on a tree: `none` is the leaf that cannot be cut. -/
def reshape (k : Key) (val : Option Bytes) : (d : Nat) → Shape d → Option (Shape d × Cut d)
  | 0, es => reshapeLeaf (BTree.editEntries k val es)
  | d + 1, tree => do
    let ci := slot tree.2 k
    let child ← tree.1[ci]?
    let (nc, cut) ← reshape k val d child
    return reshapeInternal (splice tree.1 ci (nc :: (cut.map Prod.snd).toList))
      (tree.2.take ci ++ (cut.map Prod.fst).toList ++ tree.2.drop ci)

/-- A tree of any depth. -/
abbrev AnyShape := Σ d, Shape d

def AnyShape.put (k : Key) (v : Bytes) (tree : AnyShape) : Option AnyShape := do
  match ← reshape k (some v) tree.1 tree.2 with
  | (nr, none) => return ⟨tree.1, nr⟩
  | (nr, some (sep, right)) => return ⟨tree.1 + 1, ([nr, right], [sep])⟩

/-- Every node fits a page, and has one child more than separators. -/
def Fits : (d : Nat) → Shape d → Prop
  | 0, es => leafSize es ≤ pageSize
  | d + 1, tree => widthSize tree.1.length tree.2.length ≤ pageSize ∧ tree.1.length = tree.2.length + 1 ∧
      ∀ child ∈ tree.1, Fits d child

/-! ## Updates that cut nothing -/

theorem fits_child (fits : Fits (d + 1) ((ts, ks) : List (Shape d) × List Key)) (k : Key) :
    ∃ child, ts[slot ks k]? = some child ∧ Fits d child := by
  obtain ⟨-, width, each⟩ := fits
  have inside : slot ks k < ts.length := (slot_le ks k).trans_lt (by dsimp only at width; omega)
  exact ⟨ts[slot ks k], List.getElem?_eq_getElem inside, each _ (List.getElem_mem inside)⟩

private theorem splice_one_length {as : List α} (found : as[i]? = some a) (b : α) :
    (splice as i [b]).length = as.length :=
  Nat.succ.inj (splice_length found [b])

/-- As long as the changed leaf fits, an update changes this leaf and nothing else. -/
theorem reshape_edit (fits : Fits d tree)
    (small : leafSize (BTree.editEntries k val (Tree.leafAt k d tree)) ≤ pageSize) :
    reshape k val d tree = some (Tree.edit k (BTree.editEntries k val) d tree, none) := by
  induction d with
  | zero => exact if_pos small
  | succ d ih =>
    obtain ⟨ts, ks⟩ := tree
    obtain ⟨child, found, below⟩ := fits_child fits k
    rw [Tree.leafAt_child found] at small
    rw [Tree.edit_child found]
    have same := splice_one_length found (Tree.edit k (BTree.editEntries k val) d child)
    simp only [reshape, found, ih below small, bind, Option.bind, pure, Option.map_none,
      Option.toList_none, List.append_nil,
      List.take_append_drop, reshapeInternal, same]
    rw [if_pos fits.1]

theorem edit_fits (fits : Fits d tree) (small : leafSize (change (Tree.leafAt k d tree)) ≤ pageSize) :
    Fits d (Tree.edit k change d tree) := by
  induction d with
  | zero => exact small
  | succ d ih =>
    obtain ⟨ts, ks⟩ := tree
    obtain ⟨child, found, below⟩ := fits_child fits k
    rw [Tree.leafAt_child found] at small
    rw [Tree.edit_child found]
    have same := splice_one_length found (Tree.edit k change d child)
    obtain ⟨size, width, each⟩ := fits
    refine ⟨same ▸ size, same ▸ width, fun other member => ?_⟩
    rcases List.mem_append.mp member with front | back
    · rcases List.mem_append.mp front with left | here
      · exact each other (List.mem_of_mem_take left)
      · rw [List.mem_singleton.mp here]
        exact ih below small
    · exact each other (List.mem_of_mem_drop back)

theorem leafAt_fits (fits : Fits d tree) (k : Key) : leafSize (Tree.leafAt k d tree) ≤ pageSize := by
  induction d with
  | zero => exact fits
  | succ d ih =>
    obtain ⟨ts, ks⟩ := tree
    obtain ⟨child, found, below⟩ := fits_child fits k
    rw [Tree.leafAt_child found]
    exact ih below

theorem leafAt_edit (fits : Fits d tree) (change : List Entry → List Entry) (k : Key) :
    Tree.leafAt k d (Tree.edit k change d tree) = change (Tree.leafAt k d tree) := by
  induction d with
  | zero => rfl
  | succ d ih =>
    obtain ⟨ts, ks⟩ := tree
    obtain ⟨child, found, below⟩ := fits_child fits k
    obtain ⟨left, right, rfl, place⟩ := split_at found
    rw [Tree.edit_child found, Tree.leafAt_child found, splice_at place, List.append_assoc]
    have again : (left ++ ([Tree.edit k change d child] ++ right))[slot ks k]? = some (Tree.edit k change d child) := by
      rw [← place]
      simp
    rw [Tree.leafAt_child again, ih below]

private theorem leafSize_erase (es : List Entry) (k : Key) : leafSize (Entries.erase es k) ≤ leafSize es := by
  induction es with
  | nil => exact le_rfl
  | cons e es ih =>
    rw [Entries.erase_cons]
    split
    · rw [leafSize_cons, leafSize_cons]
      omega
    · split
      · rw [leafSize_cons]
        omega
      · exact le_rfl

/-- A new key grows its leaf by its own record. -/
theorem leafSize_insert (absent : Entries.find es k = none) (v : Bytes) :
    leafSize (Entries.insert es k v) = leafSize es + (38 + v.length) := by
  induction es with
  | nil =>
    rw [Entries.insert_nil, leafSize_cons]
    dsimp only
    omega
  | cons e es ih =>
    rw [Entries.find_cons] at absent
    have apart : e.1 ≠ k := by
      intro same
      rw [if_pos same] at absent
      cases absent
    rw [if_neg apart] at absent
    rw [Entries.insert_cons]
    split
    · next below =>
      rw [if_neg (not_lt.mpr below.le)] at absent
      rw [leafSize_cons, leafSize_cons, ih absent]
      omega
    · rw [leafSize_cons (k, v)]
      dsimp only
      omega

theorem erase_fits (fits : Fits d tree) (k : Key) : leafSize (Entries.erase (Tree.leafAt k d tree) k) ≤ pageSize :=
  (leafSize_erase _ k).trans (leafAt_fits fits k)

/-! ## Pages in use -/

namespace BTree
section Kept
variable [Digest] {t : BTree} {r : PageRef}

/-- The node of a page in use. -/
def kept (t : BTree) (r : PageRef) : Option Node := if r.id ∈ t.freeList ∨ t.nextId ≤ r.id then none else t.disk r

theorem kept_of_live (live : ¬Free t r.id) : t.kept r = t.disk r := if_neg live

theorem kept_eq_some : t.kept r = some n ↔ ¬Free t r.id ∧ t.disk r = some n := by
  unfold kept
  split
  · next free => exact ⟨nofun, fun found => absurd free found.1⟩
  · next live => exact ⟨fun read => ⟨live, read⟩, And.right⟩

private theorem Grows.kept (grows : Grows t t') (s : PageRef) (n : Node) (read : t.kept s = some n) :
    t'.kept s = some n := by
  obtain ⟨live, read⟩ := kept_eq_some.mp read
  exact kept_eq_some.mpr ⟨fun free => live (grows.free _ free), by rw [grows.disk live, read]⟩

theorem Rooted.kept (rooted : Rooted t d x) : Holds t.kept d ⊥ ⊤ t.root x :=
  rooted.holds.frame fun s member => kept_of_live (rooted.live s member)

theorem fits_of_stored (stored : Stored t.kept d r tree) : Fits d tree := by
  induction d generalizing r with
  | zero => exact (decodeNode_decoded (disk_eq_some (kept_eq_some.mp stored).2).1).2
  | succ d ih =>
    obtain ⟨rs, read, all⟩ := stored
    obtain ⟨shaped, size⟩ : rs.length = tree.2.length + 1 ∧ internalSize rs tree.2 ≤ pageSize :=
      decodeNode_decoded (disk_eq_some (kept_eq_some.mp read).2).1
    have lengths := all.length_eq
    refine ⟨by unfold internalSize at size; unfold widthSize; omega, by omega, fun child member => ?_⟩
    obtain ⟨i, found⟩ := List.getElem?_of_mem member
    obtain ⟨c, -, held⟩ := forall₂_getElem all.flip found
    exact ih held

/-! ## Programs on pages -/

private theorem Fresh.kept {id : PageId} (fresh : Fresh t t' id) (read : t'.disk ⟨id, nodeHash n⟩ = some n) :
    t'.kept ⟨id, nodeHash n⟩ = some n := kept_eq_some.mpr ⟨fresh.2, read⟩

omit [Digest] in
private theorem encodeNode_size (encoded : encodeNode n = some buf) : nodeSize n ≤ pageSize := by
  unfold encodeNode at encoded
  split at encoded
  · cases encoded
  · omega

/-- What a rewrite returned stands for a tree and its right sibling, if any. -/
structure Grown (t : BTree) (d : Nat) (out : PageRef × Split) (tree : Shape d) (cut : Cut d) : Prop where
  seps : out.2.map Prod.fst = cut.map Prod.fst
  refs : List.Forall₂ (Stored t.kept d) (out.2.refs out.1) (tree :: (cut.map Prod.snd).toList)

private theorem rewriteLeaf_shape (alloc : Alloc t) (old : PageRef) (entries : List Entry) :
    Ends (rewriteLeaf old.id entries) t
      (fun out t' => Grows t t' ∧ ∃ tree cut, reshapeLeaf entries = some (tree, cut) ∧ Grown t' 0 out tree cut)
      (fun e _ => e.code = .io ∨ reshapeLeaf entries = none) := by
  unfold rewriteLeaf reshapeLeaf
  by_cases fits : leafSize entries ≤ pageSize
  · simp only [fits, if_true]
    refine ends_appendOne alloc (.leaf entries) trivial (encodeNode_of_fits fits) old ?_ fun _ _ io _ => .inl io
    intro id t' grows _ fresh read
    exact ends_pure.mpr ⟨grows, entries, none, rfl, rfl, .cons (fresh.kept read) .nil⟩
  · simp only [fits, if_false]
    unfold splitLeaf
    cases right : entries.drop (entries.length / 2) with
    | nil => exact ends_throw.mpr (.inr rfl)
    | cons first rest =>
      dsimp only
      by_cases halves : leafSize (entries.take (entries.length / 2)) ≤ pageSize ∧ leafSize (first :: rest) ≤ pageSize
      · rw [if_pos halves]
        have left : encodeNode (.leaf (entries.take (entries.length / 2))) = some _ := encodeNode_of_fits halves.1
        have back : encodeNode (.leaf (first :: rest)) = some _ := encodeNode_of_fits halves.2
        rw [left, back]
        refine (appendTwo_spec alloc (.leaf _) (.leaf _) trivial trivial left back old _).mono
          ?_ fun _ _ failed => .inl failed.1
        rintro _ t' ⟨grows, -, lid, rid, rfl, freshLeft, freshRight, -, readLeft, readRight⟩
        exact ⟨grows, _, _, rfl, rfl, .cons (freshLeft.kept readLeft) (.cons (freshRight.kept readRight) .nil)⟩
      · rw [if_neg halves]
        cases left : encodeNode (.leaf (entries.take (entries.length / 2))) with
        | none => exact ends_throw.mpr (.inr rfl)
        | some lb =>
          cases back : encodeNode (.leaf (first :: rest)) with
          | none => exact ends_throw.mpr (.inr rfl)
          | some rb => exact absurd ⟨encodeNode_size left, encodeNode_size back⟩ halves

private theorem rewriteInternal_shape (alloc : Alloc t) (old : PageRef) (all : List.Forall₂ (Stored t.kept d) rs ts)
    (shaped : rs.length = ks.length + 1) (near : widthSize rs.length ks.length ≤ pageSize + 72) :
    Ends (rewriteInternal old.id rs ks) t
      (fun out t' => Grows t t' ∧ Grown t' (d + 1) out (reshapeInternal ts ks).1 (reshapeInternal ts ks).2)
      (fun e _ => e.code = .io) := by
  have lengths := all.length_eq
  have size : internalSize rs ks = widthSize ts.length ks.length := by rw [← lengths]; rfl
  unfold rewriteInternal reshapeInternal
  rw [size]
  by_cases fits : widthSize ts.length ks.length ≤ pageSize
  · simp only [fits, if_true]
    refine ends_appendOne alloc (.internal rs ks) shaped
      (encodeNode_of_fits (show internalSize rs ks ≤ pageSize by omega)) old ?_ fun _ _ io _ => io
    intro id t' grows _ fresh read
    exact ends_pure.mpr ⟨grows, rfl, .cons ⟨rs, fresh.kept read, all.imp fun _ _ held => held.mono grows.kept⟩ .nil⟩
  · simp only [fits, if_false]
    -- half of a node that is one child too wide fits with room to spare
    have numbers : ks.length ≤ 57 := by
      unfold widthSize pageSize at near
      omega
    have halves {cs : List PageRef} {js : List Key} (few : js.length ≤ 28) (more : cs.length = js.length + 1) :
        nodeSize (.internal cs js) ≤ pageSize := by
      show internalSize cs js ≤ pageSize
      unfold internalSize pageSize
      omega
    have leftLength : (rs.take (ks.length / 2 + 1)).length = (ks.take (ks.length / 2)).length + 1 := by
      simp only [List.length_take]
      omega
    have rightLength : (rs.drop (ks.length / 2 + 1)).length = (ks.drop (ks.length / 2 + 1)).length + 1 := by
      simp only [List.length_drop]
      unfold widthSize pageSize at fits
      omega
    have left := encodeNode_of_fits (halves (by simp only [List.length_take]; omega) leftLength)
    have right := encodeNode_of_fits (halves (by simp only [List.length_drop]; omega) rightLength)
    unfold splitInternal
    dsimp only
    rw [left, right]
    refine (appendTwo_spec alloc (.internal _ _) (.internal _ _) leftLength rightLength left right old _).mono
      ?_ fun _ _ => And.left
    rintro _ t' ⟨grows, -, lid, rid, rfl, freshLeft, freshRight, -, readLeft, readRight⟩
    have later : List.Forall₂ (Stored t'.kept d) rs ts := all.imp fun _ _ held => held.mono grows.kept
    exact ⟨grows, rfl, .cons ⟨_, freshLeft.kept readLeft, List.forall₂_take _ later⟩
      (.cons ⟨_, freshRight.kept readRight, List.forall₂_drop _ later⟩ .nil)⟩

/-- `modRec` does to the tree what `reshape` does. -/
theorem modRec_shape (alloc : Alloc t) (plain : Plain t) (stored : Stored t.kept d r tree) (deep : d < fuel) :
    Ends (modRec k val fuel r) t
      (fun out t' => Grows t t' ∧ ∃ tree' cut, reshape k val d tree = some (tree', cut) ∧ Grown t' d out tree' cut)
      (fun e _ => e.code = .io ∨ reshape k val d tree = none) := by
  induction d generalizing r fuel with
  | zero =>
    obtain ⟨fuel, rfl⟩ := Nat.exists_eq_add_of_lt deep
    have read : t.rd r = some (.leaf tree) := by rw [rd_of_plain plain]; exact (kept_eq_some.mp stored).2
    exact Ends.bind (ends_read read (rewriteLeaf_shape alloc r (editEntries k val tree)))
  | succ d ih =>
    obtain ⟨fuel, rfl⟩ := Nat.exists_eq_add_of_lt deep
    obtain ⟨size, width, -⟩ := fits_of_stored stored
    obtain ⟨rs, kept, all⟩ := stored
    obtain ⟨ts, ks⟩ := tree
    dsimp only at size width all kept
    have lengths := all.length_eq
    have read : t.rd r = some (.internal rs ks) := by rw [rd_of_plain plain]; exact (kept_eq_some.mp kept).2
    have inside : slot ks k < rs.length := (slot_le ks k).trans_lt (by omega)
    obtain ⟨c, edge⟩ : ∃ c, rs[slot ks k]? = some c := ⟨rs[slot ks k], List.getElem?_eq_getElem inside⟩
    obtain ⟨child, found, held⟩ := forall₂_getElem all edge
    have entered := childAt_of_getElem? edge
    have step : reshape k val (d + 1) ((ts, ks) : List (Shape d) × List Key) = (reshape k val d child).map fun out =>
        reshapeInternal (splice ts (slot ks k) (out.1 :: (out.2.map Prod.snd).toList))
          (ks.take (slot ks k) ++ (out.2.map Prod.fst).toList ++ ks.drop (slot ks k)) := by
      simp only [reshape, found, bind, Option.bind]
      cases reshape k val d child <;> rfl
    refine Ends.bind (ends_read read ?_)
    simp only [entered]
    refine (ih held (by omega)).seqMono ?_ ?_
    · rintro ⟨nc, split⟩ t1 ⟨grows, tree', cut, reshaped, seps, refs⟩
      have later : List.Forall₂ (Stored t1.kept d) rs ts := all.imp fun _ _ held => held.mono grows.kept
      have children : List.Forall₂ (Stored t1.kept d) (spliceChildren rs (slot ks k) nc split)
          (splice ts (slot ks k) (tree' :: (cut.map Prod.snd).toList)) := forall₂_splice later (slot ks k) refs
      have keys : spliceKeys ks (slot ks k) split =
          ks.take (slot ks k) ++ (cut.map Prod.fst).toList ++ ks.drop (slot ks k) := by rw [spliceKeys, seps]
      have few : (cut.map Prod.snd).toList.length = (cut.map Prod.fst).toList.length ∧
          (cut.map Prod.fst).toList.length ≤ 1 := by cases cut <;> simp
      have number := splice_length found (tree' :: (cut.map Prod.snd).toList)
      have keyNumber : (ks.take (slot ks k) ++ (cut.map Prod.fst).toList ++ ks.drop (slot ks k)).length =
          ks.length + (cut.map Prod.fst).toList.length := by
        simp only [List.length_append, List.length_take, List.length_drop]
        omega
      have childNumber := children.length_eq
      rw [List.length_cons] at number
      rw [keys]
      refine (rewriteInternal_shape grows.alloc r children (by omega) ?_).mono ?_ fun _ _ => .inl
      · unfold widthSize at size ⊢
        omega
      · rintro out t2 ⟨more, grown⟩
        refine ⟨grows.trans more, _, _, ?_, grown⟩
        rw [step, reshaped]
        rfl
    · rintro e t1 (io | stuck)
      · exact .inl io
      · exact .inr (by rw [step, stuck]; rfl)

section
variable (alloc : Alloc t) (plain : Plain t) (stored : Stored t.kept d t.root tree) (deep : d < t.maxDepth) (k : Key)
include alloc plain stored deep k

theorem put_shape (v : Bytes) : Ends (put k v) t
      (fun _ t' => ∃ d' tree', AnyShape.put k v ⟨d, tree⟩ = some ⟨d', tree'⟩ ∧ Stored t'.kept d' t'.root tree')
      (fun e _ => e.code = .io ∨ AnyShape.put k v ⟨d, tree⟩ = none) := by
  refine Ends.get ((modRec_shape alloc plain stored deep).seqMono ?_ ?_)
  · rintro ⟨nr, split⟩ t1 ⟨grows, tree', cut, reshaped, seps, refs⟩
    cases cut with
    | none =>
      cases Option.map_eq_none_iff.mp seps
      obtain ⟨here, -⟩ := List.forall₂_cons.mp refs
      refine ⟨d, tree', ?_, here⟩
      simp only [AnyShape.put, reshaped]
      rfl
    | some next =>
      obtain ⟨sep, tree''⟩ := next
      obtain ⟨⟨sep', right⟩, rfl, rfl⟩ := Option.map_eq_some_iff.mp seps
      have encoded :=
        encodeNode_of_fits (n := .internal [nr, right] [sep']) (by simp [nodeSize, internalSize, pageSize])
      refine (appendNode_spec grows.alloc (.internal [nr, right] [sep']) rfl encoded).seqMono ?_ fun _ _ failed =>
        .inl failed.1
      rintro id t2 ⟨more, fresh, read, -⟩
      refine ⟨d + 1, ([tree', tree''], [sep']), ?_, [nr, right], fresh.kept read, refs.imp fun _ _ held =>
        held.mono more.kept⟩
      simp only [AnyShape.put, reshaped]
      rfl
  · rintro e t1 (io | stuck)
    · exact .inl io
    · exact .inr (by simp only [AnyShape.put, stuck]; rfl)

/-- Removing a key never cuts a leaf. -/
theorem erase_shape :
    Ends (erase k) t (fun _ t' => Stored t'.kept d t'.root (Tree.edit k (Entries.erase · k) d tree))
      (fun e _ => e.code = .io) := by
  have whole : reshape k none d tree = some (Tree.edit k (editEntries k none) d tree, none) :=
    reshape_edit (fits_of_stored stored) (erase_fits (fits_of_stored stored) k)
  refine Ends.get ((modRec_shape alloc plain stored deep).seqMono ?_ ?_)
  · rintro ⟨nr, split⟩ t1 ⟨grows, tree', cut, reshaped, seps, refs⟩
    rw [whole] at reshaped
    cases reshaped
    cases Option.map_eq_none_iff.mp seps
    exact (List.forall₂_cons.mp refs).1
  · rintro e t1 (io | stuck)
    · exact io
    · rw [whole] at stuck
      cases stuck

end

end Kept
end BTree

end Innova.Store3A
