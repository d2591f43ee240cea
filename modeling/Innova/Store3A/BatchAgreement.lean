import Innova.Store3A.BatchShape
import Innova.Store3A.UndoLog

/-! The batch overlay against the plain path. Whenever the operations of a batch succeed on
the pages, the overlay takes them too and ends with the same map, unless one of them
overwrites a present key with a value that makes its leaf larger than a page. -/
namespace Innova.Store3A
open Lib Lib.PagedTree Chainstate

namespace BTree
section Agreement
variable [Digest] {t tp : BTree} {d : Nat} {x : Extent Key Bytes PageRef} {tree : AnyShape} {m : CoinMap}

/-- The leaf a lookup of `k` ends in. -/
def leafLoop (t : BTree) (k : Key) : (guard : Nat) → PageRef → Except ChainError (List Entry)
  | 0, _ => .error (corrupt "tree depth exceeded")
  | guard + 1, r => do
    match ← t.readNodeVerified r with
    | .leaf entries => return entries
    | .internal children keys => t.leafLoop k guard (childAt children (slot keys k))

/-- The operation overwrites a present key, and its leaf then exceeds a page. -/
def overgrows (t : BTree) (k : Key) (after : Option Coin) : Bool :=
  match after, t.leafLoop k 64 t.root with
  | some c, .ok entries => Entries.present entries k && decide (pageSize < leafSize (Entries.insert entries k c.encode))
  | _, _ => false

/-- Applied to the pages one after the other, one of the operations is such an overwrite. -/
def outgrows : List (Key × Option Coin) → BTree → Bool
  | [], _ => false
  | (k, after) :: rest, t =>
    t.overgrows k after || match Store.applyPlain k after t with
      | .ok _ t' => outgrows rest t'
      | .error .. => false

/-- A whole batch: the operations go through the overlay, which is then written out. -/
def runBatch (ops : List (Key × Option Coin)) (t : BTree) : EStateM.Result ChainError BTree Unit :=
  (do Store.applyOps ops; finalizeOverlay : TreeM Unit) t.beginOverlay

theorem leafLoop_shape {guard : Nat} {tree : Shape d} (stored : Stored t.rd d r tree) (fits : Fits d tree)
    (deep : d < guard) : t.leafLoop k guard r = .ok (Tree.leafAt k d tree) := by
  obtain ⟨guard, rfl⟩ := Nat.exists_eq_add_of_lt deep
  induction d generalizing guard r with
  | zero =>
    simp only [leafLoop, rd_eq_some.mp stored, bind, Except.bind]
    rfl
  | succ d ih =>
    obtain ⟨rs, read, all⟩ := stored
    obtain ⟨ts, ks⟩ := tree
    obtain ⟨child, found, below⟩ := fits_child fits k
    obtain ⟨c, edge, held⟩ := forall₂_getElem all.flip found
    have entered := childAt_of_getElem? edge
    rw [Tree.leafAt_child found, ← ih held below guard (by omega), show d + 1 + guard + 1 =
      (d + guard + 1) + 1 by omega]
    simp only [leafLoop, rd_eq_some.mp read, bind, Except.bind, entered]

private theorem overgrows_iff (rooted : Rooted t d x) (plain : Plain t) (stored : Stored t.kept tree.1 t.root tree.2)
    (op : Key × Option Coin) : t.overgrows op.1 op.2 = true ↔ tree.Overgrown op := by
  have deep := rooted.depth.2
  rw [rooted.kept.depth_eq stored] at deep
  have leaf : t.leafLoop op.1 64 t.root = .ok (Tree.leafAt op.1 tree.1 tree.2) :=
    leafLoop_shape (plain.stored stored) (fits_of_stored stored) (by omega)
  obtain ⟨k, after⟩ := op
  cases after with
  | some c =>
    simp only [overgrows, leaf, Bool.and_eq_true, decide_eq_true_eq, Entries.present_eq, AnyShape.Overgrown]
    exact ⟨fun large => ⟨c, rfl, large⟩, fun ⟨_, same, large⟩ => Option.some.inj same ▸ large⟩
  | none => exact ⟨nofun, fun ⟨_, same, _⟩ => nomatch same⟩

open Store in
private theorem outgrows_iff (rooted : Rooted t d x) (plain : Plain t) (stored : Stored t.kept tree.1 t.root tree.2)
    (ran : applyPlainAll ops t = .ok () tp) : outgrows ops t = true ↔ tree.Outgrown ops := by
  induction ops generalizing t d x tree with
  | nil => exact ⟨nofun, False.elim⟩
  | cons op ops ih =>
    obtain ⟨⟨⟩, t1, first, rest⟩ := bind_ok ran
    obtain ⟨view, d1, x1, rooted1, -⟩ := (applyPlain_spec rooted plain op).of_ok first
    obtain ⟨tree1, applied, stored1⟩ := (applyPlain_shape rooted plain stored op).of_ok first
    have later := ih rooted1 (plain.of_view view) stored1 rest
    rw [outgrows, first, Bool.or_eq_true, overgrows_iff rooted plain stored op, later, AnyShape.Outgrown]
    refine or_congr_right ⟨fun held => ⟨tree1, applied, held⟩, ?_⟩
    rintro ⟨tree', applied', held⟩
    cases applied.symm.trans applied'
    exact held

private theorem Overlaid.get (overlaid : Overlaid t d x) (k : Key) : t.get k = .ok (Entries.find x.entries k) :=
  getLoop_spec overlaid.edited.holds bot_le (WithTop.coe_lt_top k) (by have := overlaid.depth.2; omega)

open Store in
/-- What a batch over a closed tree comes to. -/
theorem runBatch_spec (rooted : Rooted t d x) (closed : Closed t) (stored : Stored t.kept tree.1 t.root tree.2)
    (ops : List (Key × Option Coin)) : Ends (do applyOps ops; finalizeOverlay) t.beginOverlay
      (fun _ t' => ¬tree.Outgrown ops ∧ Closed t' ∧ ∃ d' x', Rooted t' d' x' ∧ x'.entries = setEntries ops x.entries)
      (fun e _ => e.code = .io ∨ tree.applyAll ops = none ∨ tree.Outgrown ops) := by
  have overlaid := rooted.beginOverlay.overlaid closed.1 rfl
  have onPages : Stored t.beginOverlay.rd tree.1 t.root tree.2 := closed.begun.stored stored
  have fits := fits_of_stored stored
  refine ((applyOps_spec overlaid ops).and (applyOps_shape overlaid onPages fits ops)).seqMono ?_ fun _ _ => And.right
  rintro _ t1 ⟨⟨d1, x1, overlaid1, moved⟩, smooth, tree1, -, stored1, fits1⟩
  cases overlaid1.edited.holds.depth_eq stored1
  refine ((finalizeOverlay_spec overlaid1).and (finalizeOverlay_shape overlaid1 stored1 fits1)).mono
    ?_ fun _ _ failed => .inl failed.2
  rintro _ t2 ⟨⟨closed2, d2, x2, -, rooted2, entries, -⟩, -⟩
  exact ⟨smooth, closed2, d2, x2, rooted2, entries.trans moved.entries⟩

open Store in
/-- On a tree without an open batch, let the operations succeed on the pages, and let no write
of the batch fail. Then the batch succeeds with the same map as the plain run, and lookups
in its middle see the operations made so far, exactly when no operation overwrites a present
key with a value that makes its leaf, as the plain operations before it left it, larger than
a page. -/
theorem batch_agrees_iff (represents : Represents t m) (closed : Closed t) {ops : List (Key × Option Coin)}
    (plain : applyPlainAll ops t = .ok () tp) (written : ∀ e t', runBatch ops t = .error e t' → e.code ≠ .io) :
    ((∃ t', runBatch ops t = .ok () t' ∧ t'.collectAll = tp.collectAll ∧ ∀ k, t'.get k = tp.get k) ∧
      ∀ made rest t', made ++ rest = ops → applyOps made t.beginOverlay = .ok () t' →
        ∀ k, t'.get k = .ok (m.setAll made k)) ↔ outgrows ops t = false := by
  obtain ⟨plainly, d, x, rooted, rfl⟩ := represents
  obtain ⟨tree, onPages, -⟩ := rooted.holds.tree
  let shape : AnyShape := ⟨d, tree⟩
  have stored : Stored t.kept shape.1 t.root shape.2 := rooted.stored_kept onPages
  have grown := outgrows_iff rooted plainly stored plain
  have batch := runBatch_spec rooted closed stored ops
  obtain ⟨view, dp, xp, rootedp, movedp⟩ := (applyPlainAll_spec rooted plainly ops).of_ok plain
  obtain ⟨treep, all, -⟩ := (applyPlainAll_shape rooted plainly stored ops).of_ok plain
  have plainp := plainly.of_view view
  rw [← Bool.not_eq_true, grown]
  constructor
  · rintro ⟨⟨t', ran, -⟩, -⟩
    exact (batch.of_ok ran).1
  · intro smooth
    refine ⟨?_, fun made rest t' _ ran k => ?_⟩
    · cases ran : runBatch ops t with
      | error e t' =>
        rcases batch.of_error ran with io | stuck | large
        · exact absurd io (written e t' ran)
        · rw [all] at stuck
          cases stuck
        · exact absurd large smooth
      | ok _ t' =>
        obtain ⟨-, closed', d', x', rooted', entries⟩ := batch.of_ok ran
        refine ⟨t', rfl, ?_, fun k => ?_⟩
        · rw [rooted'.collectAll closed'.plain, rootedp.collectAll plainp, entries, movedp.entries]
        · rw [rooted'.get closed'.plain, rootedp.get plainp, entries, movedp.entries]
    · have overlaid := rooted.beginOverlay.overlaid closed.1 rfl
      obtain ⟨d', x', overlaid', moved⟩ := (applyOps_spec overlaid made).of_ok ran
      rw [overlaid'.get k, moved.entries, find_setEntries rooted.holds.sorted]

end Agreement

/-! ## An overwrite that does not fit -/

def shortCoin : Coin := ⟨50, [], 1, 0, false, false⟩

def longCoin : Coin := ⟨50, List.replicate 4000 7, 1, 0, false, false⟩

/-- An overlay of one node, which is finalized before every operation but the first. -/
def narrow : BTree := { @create sha256Digest 16 [] with overlayMax := 1 }

def shortOps : List (Key × Option Coin) := [(lowKey, some shortCoin), (highKey, some shortCoin), (lowKey, none)]

theorem batch_agrees_iff_narrow : ∃ tp t', @Store.applyPlainAll sha256Digest shortOps narrow = .ok () tp ∧
    @runBatch sha256Digest shortOps narrow = .ok () t' ∧ ∀ k, @get sha256Digest t' k = @get sha256Digest tp k := by
  let := sha256Digest
  have created : Represents (create 16 []) fun _ => none := create_represents (by decide) (by decide)
  have represents : Represents narrow fun _ => none := by
    obtain ⟨plain, d, x, ⟨alloc, holds, live, nodup⟩, empty⟩ := created
    exact ⟨plain, d, x, ⟨SameFile.alloc (t := create 16 []) ⟨rfl, rfl, rfl, rfl, rfl⟩ alloc, holds, live, nodup⟩, empty⟩
  have plain : Store.applyPlainAll shortOps narrow = .ok () _ := run_of_succeeds (by decide +kernel)
  have batch : runBatch shortOps narrow = .ok () _ := run_of_succeeds (by decide +kernel)
  obtain ⟨⟨t', ran, -, same⟩, -⟩ := (batch_agrees_iff represents ⟨rfl, rfl⟩ plain
    fun e t' failed => nomatch batch.symm.trans failed).mpr (by decide +kernel)
  exact ⟨_, t', plain, ran, same⟩

section Overwrite
variable [Digest]

def pairLeaf (v w : Bytes) : Node := .leaf [(lowKey, v), (highKey, w)]

/-- The file after two keys that share a leaf. -/
def pairTree (v w : Bytes) : BTree :=
  { oneLeaf v with
    pages := Function.update (oneLeaf v).pages 2 (page (pairLeaf v w)), nextId := 3, rootId := 2
    rootHash := nodeHash (pairLeaf v w), commitRetired := [0, 1], writes := [2, 1, 0] }

section
variable (fits : leafSize [(lowKey, v), (highKey, w)] ≤ pageSize)
include fits

theorem put_pair :
    Ends (put highKey w) (oneLeaf v) (fun _ t' => t' = pairTree v w) (fun _ _ => False) := by
  have alone : leafSize [(lowKey, v)] ≤ pageSize := by
    simp only [leafSize_cons] at fits ⊢
    omega
  refine Ends.get (Ends.bind (Ends.bind (ends_read (oneLeaf_root alone) ?_)))
  show Ends (rewriteLeaf 1 [(lowKey, v), (highKey, w)]) (oneLeaf v) _ _
  rw [rewriteLeaf, if_pos fits]
  rfl

theorem pairTree_root : (pairTree v w).rd (pairTree v w).root = some (pairLeaf v w) := by
  rw [rd_of_plain fun _ => rfl]
  exact disk_page (n := pairLeaf v w) (show (2 : PageId) < 3 by decide) trivial fits (by simp [pairTree])

/-- On the pages an overwrite that does not fit splits the leaf. -/
theorem put_over (large : pageSize < leafSize [(lowKey, u), (highKey, w)]) (left : leafSize [(lowKey, u)] ≤ pageSize) :
    Ends (put lowKey u) (pairTree v w) (fun _ _ => True) (fun _ _ => False) := by
  have right : leafSize [(highKey, w)] ≤ pageSize := by
    simp only [leafSize_cons] at fits ⊢
    omega
  refine Ends.get (Ends.bind (Ends.bind (ends_read (pairTree_root fits) ?_)))
  show Ends (rewriteLeaf 2 [(lowKey, u), (highKey, w)]) (pairTree v w) _ _
  rw [rewriteLeaf, if_neg (Nat.not_le.mpr large), splitLeaf_two 2 left right]
  trivial

/-- In a batch it fails. -/
theorem overwrite_overlay (large : pageSize < leafSize [(lowKey, c.encode), (highKey, w)])
    (overlaid : Overlaid (pairTree v w).beginOverlay d x) :
    Ends (do Store.applyOps [(lowKey, some c)]; finalizeOverlay) (pairTree v w).beginOverlay (fun _ _ => False)
      (fun e _ => e.code = .internal) := by
  have stored : Stored (pairTree v w).beginOverlay.rd 0 (pairTree v w).root [(lowKey, v), (highKey, w)] := by
    have root := pairTree_root fits
    exact root
  cases overlaid.edited.holds.depth_eq stored
  have put := overlayPut_shape overlaid stored fits lowKey c.encode
  refine Ends.bind (Ends.bind (Ends.get ?_))
  refine put.seqMono ?_ fun _ _ failed => failed.1
  intro full t'
  cases full with
  | true =>
    rintro ⟨-, absent, -⟩
    cases absent
  | false =>
    rintro ⟨small, -⟩
    exact absurd large (Nat.not_lt.mpr small)

end

end Overwrite

/-- A coin put over a shorter one splits its leaf on the pages; the overlay counted no growth
for a present key, and the batch fails. -/
theorem overwrite_fails_batch :
    ∃ t m ops tp e t', @Run sha256Digest 16 [] t m ∧ Closed t ∧ @Store.applyPlainAll sha256Digest ops t = .ok () tp ∧
      @runBatch sha256Digest ops t = .error e t' ∧ e.code = .internal := by
  let := sha256Digest
  have short : shortCoin.encode.length = 21 := by rw [Coin.encode_length]; rfl
  have long : longCoin.encode.length =
    4021 := by rw [Coin.encode_length, show longCoin.script.length = 4000 from List.length_replicate]
  have pair : leafSize [(lowKey, shortCoin.encode), (highKey, shortCoin.encode)] ≤ pageSize := by
    simp [leafSize, pageSize, short]
  have alone : leafSize [(lowKey, shortCoin.encode)] ≤ pageSize := by simp [leafSize, pageSize, short]
  have large : pageSize < leafSize [(lowKey, longCoin.encode), (highKey, shortCoin.encode)] := by
    simp [leafSize, pageSize, short, long]
  have left : leafSize [(lowKey, longCoin.encode)] ≤ pageSize := by simp [leafSize, pageSize, long]
  obtain ⟨⟨⟩, _, one, rfl⟩ := Ends.returns (put_low alone)
  obtain ⟨⟨⟩, _, two, rfl⟩ := Ends.returns (put_pair pair)
  obtain ⟨⟨⟩, tp, split, -⟩ := Ends.returns (put_over pair large left)
  have ran : Run 16 [] (pairTree shortCoin.encode shortCoin.encode) _ := .put (.put .create one) two
  obtain ⟨-, d, x, rooted, -⟩ := ran.represents (by decide) (by decide)
  have closed : Closed (pairTree shortCoin.encode shortCoin.encode) := ⟨rfl, rfl⟩
  have plain : Store.applyPlainAll [(lowKey, some longCoin)] (pairTree shortCoin.encode shortCoin.encode) =
    .ok () tp := by
    show (put lowKey longCoin.encode >>= fun _ => pure ()) _ = _
    rw [bind_apply, split]
    rfl
  have batch := overwrite_overlay pair large (rooted.beginOverlay.overlaid closed.1 rfl)
  cases failed : runBatch [(lowKey, some longCoin)] (pairTree shortCoin.encode shortCoin.encode) with
  | ok _ t' => exact (batch.of_ok failed).elim
  | error e t' => exact ⟨_, _, _, tp, e, t', ran, closed, plain, failed, batch.of_error failed⟩

end BTree
end Innova.Store3A
