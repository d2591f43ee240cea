import Innova.Store3A.BatchAgreement
import Innova.Chainstate.Delta

/-! Where leaves are cut (`btree.cpp`). A leaf that outgrew its page is cut after half of its
entries, whatever their sizes, so `put` refuses some values that fit a page. A cut may fall
between two outputs of one transaction, and `existsTxidPrefix`, which follows a single path,
then looks on one side of it only. -/
namespace Innova.Store3A
open Lib Lib.PagedTree Chainstate

namespace BTree

/-! ## Insertion -/

/-- The leaf fits a page, or both halves do. -/
def Cuttable (entries : List Entry) : Prop :=
  leafSize entries ≤ pageSize ∨
    leafSize (entries.take (entries.length / 2)) ≤ pageSize ∧ leafSize (entries.drop (entries.length / 2)) ≤ pageSize

instance (entries : List Entry) : Decidable (Cuttable entries) := inferInstanceAs (Decidable (_ ∨ _ ∧ _))

private theorem reshapeLeaf_eq_none : reshapeLeaf entries = none ↔ ¬Cuttable entries := by
  unfold reshapeLeaf Cuttable
  by_cases fits : leafSize entries ≤ pageSize
  · simp [fits]
  · cases right : entries.drop (entries.length / 2) with
    | nil =>
      -- only an empty leaf has an empty right half
      have empty : entries = [] := by
        have length := congrArg List.length right
        simp only [List.length_drop, List.length_nil] at length
        exact List.length_eq_zero_iff.mp (by omega)
      rw [empty] at fits
      exact absurd (by decide) fits
    | cons first rest => simp [fits]

/-- An update fails exactly where its leaf cannot be cut. -/
theorem reshape_eq_none (fits : Fits d tree) (k : Key) (val : Option Bytes) :
    reshape k val d tree = none ↔ ¬Cuttable (editEntries k val (Tree.leafAt k d tree)) := by
  induction d with
  | zero => exact reshapeLeaf_eq_none
  | succ d ih =>
    obtain ⟨ts, ks⟩ := tree
    obtain ⟨child, found, below⟩ := fits_child fits k
    rw [Tree.leafAt_child found, ← ih below]
    simp only [reshape, found, bind, Option.bind]
    cases reshape k val d child <;> simp

private theorem put_eq_none {tree : AnyShape} (fits : Fits tree.1 tree.2) (k : Key) (v : Bytes) :
    tree.put k v = none ↔ ¬Cuttable (Entries.insert (Tree.leafAt k tree.1 tree.2) k v) := by
  rw [show Entries.insert (Tree.leafAt k tree.1 tree.2) k v = editEntries k (some v)
    (Tree.leafAt k tree.1 tree.2) from rfl,
    ← reshape_eq_none fits k (some v)]
  cases reshaped : reshape k (some v) tree.1 tree.2 with
  | none => simp [AnyShape.put, reshaped]
  | some out =>
    obtain ⟨nr, cut⟩ := out
    cases cut <;> simp [AnyShape.put, reshaped]

section Runs
variable [Digest] {t : BTree} {m : Key → Option Bytes} {limit : Nat} {faults : List (Option Bytes)}

/-- A reached tree stands for a tree whose leaves are those the lookups end in. -/
theorem Represents.leaves (represents : Represents t m) : ∃ tree : AnyShape, Stored t.kept tree.1 t.root tree.2 ∧
      (∀ k, t.leafLoop k 64 t.root = .ok (Tree.leafAt k tree.1 tree.2)) ∧
        ∀ e ∈ Tree.entries tree.1 tree.2, m e.1 = some e.2 := by
  obtain ⟨plain, d, x, rooted, rfl⟩ := represents
  obtain ⟨tree, onPages, entries⟩ := rooted.holds.tree
  have stored := rooted.stored_kept onPages
  have deep := rooted.depth.2
  refine ⟨⟨d, tree⟩, stored, fun k => leafLoop_shape ?_ (fits_of_stored stored) (show d < 64 by omega),
    fun e member => ?_⟩
  · rw [rd_of_plain plain]
    exact onPages
  · exact (Entries.find_eq_some rooted.holds.sorted).mpr (entries ▸ member)

/-- On every reached tree, a `put` none of whose page writes fails succeeds exactly if the leaf of
its key, with the value in it, fits a page or can be cut in two halves by count that do. -/
theorem put_succeeds_iff_cuttable (ran : Run limit faults t m) (room : 0 < limit) (small : limit < 2 ^ 32)
    (k : Key) (v : Bytes)
    (written : ∀ e t', put k v t = .error e t' → e.code ≠ .io) : ∃ leaf, t.leafLoop k 64 t.root = .ok leaf ∧
      ((∃ t', put k v t = .ok () t') ↔ Cuttable (Entries.insert leaf k v)) := by
  have represents := ran.represents room small
  obtain ⟨tree, stored, leaves, -⟩ := represents.leaves
  refine ⟨_, leaves k, ?_⟩
  obtain ⟨plain, d, x, rooted, -⟩ := represents
  have deep := rooted.depth.1
  rw [rooted.kept.depth_eq stored] at deep
  have shape := put_shape rooted.alloc plain stored deep k v
  have stuck := put_eq_none (fits_of_stored stored) k v
  constructor
  · rintro ⟨t', ok⟩
    obtain ⟨d', tree', put, -⟩ := shape.of_ok ok
    by_contra uncut
    rw [stuck.mpr uncut] at put
    cases put
  · intro cuttable
    cases call : put k v t with
    | ok _ t' => exact ⟨t', rfl⟩
    | error e t' =>
      rcases shape.of_error call with io | none
      · exact absurd io (written e t' call)
      · exact absurd cuttable (stuck.mp none)

end Runs

/-- The second entry does not fit the page of the first, and the leaf is cut between them. -/
theorem put_succeeds_iff_cuttable_cut : ∃ t m leaf, @Run sha256Digest 16 [] t m ∧
    @leafLoop sha256Digest t highKey 64 t.root = .ok leaf ∧
      pageSize < leafSize (Entries.insert leaf highKey []) ∧ Cuttable (Entries.insert leaf highKey []) := by
  let := sha256Digest
  obtain ⟨u, wide⟩ : ∃ u : Bytes, u.length = 4050 := ⟨List.replicate 4050 7, List.length_replicate⟩
  obtain ⟨⟨⟩, _, one, rfl⟩ := Ends.returns (put_low (low_fits wide))
  obtain ⟨⟨⟩, _, two, rfl⟩ := Ends.returns (put_side wide (k := highKey) rfl)
  have ran : Run 16 [] (oneLeaf u) _ := .put .create one
  obtain ⟨leaf, ends, cut⟩ := put_succeeds_iff_cuttable ran (by decide) (by decide) highKey []
    fun e t' failed => nomatch two.symm.trans failed
  obtain rfl : [(lowKey, u)] = leaf := by
    rw [leafLoop, rd_eq_some.mp (oneLeaf_root (low_fits wide))] at ends
    exact Except.ok.inj ends
  refine ⟨_, _, _, ran, ends, ?_, cut.mp ⟨_, two⟩⟩
  rw [show Entries.insert [(lowKey, u)] highKey [] = [(lowKey, u), (highKey, [])] from rfl]
  simp [leafSize, pageSize, wide]

section Overflow
variable [Digest]

/-- Between the two keys of the leaf. -/
def middleKey : Key := ⟨List.replicate 35 1 ++ [2], by simp⟩

/-- A third entry that leaves the right half too large. -/
theorem put_middle (fits : leafSize [(lowKey, v), (highKey, w)] ≤ pageSize)
    (large : pageSize < leafSize [(middleKey, u), (highKey, w)]) :
    Ends (put middleKey u) (pairTree v w) (fun _ _ => False) (fun e _ => e = ⟨.internal, "leaf split overflow"⟩) := by
  refine Ends.get (Ends.bind (Ends.bind (ends_read (pairTree_root fits) ?_)))
  show Ends (rewriteLeaf 2 [(lowKey, v), (middleKey, u), (highKey, w)]) (pairTree v w) _ _
  have whole : pageSize < leafSize [(lowKey, v), (middleKey, u), (highKey, w)] := by
    rw [leafSize_cons]
    omega
  have right : encodeNode (.leaf [(middleKey, u), (highKey, w)]) = none := if_pos large
  rw [rewriteLeaf, if_neg (Nat.not_le.mpr whole)]
  simp only [splitLeaf, List.length_cons, List.length_nil, Nat.zero_add, Nat.reduceAdd, Nat.reduceDiv,
    List.take_succ_cons,
    List.take_zero, List.drop_succ_cons, List.drop_zero, right]
  cases encodeNode (.leaf [(lowKey, v)]) <;> rfl

end Overflow

/-- Two values of 2000 bytes share a leaf; a value of 4054 bytes, which fits a page of its own, is
refused between them. -/
theorem put_refuses_storable :
    ∃ t m v e t', @Run sha256Digest 16 [] t m ∧ 4 + 38 + v.length ≤ pageSize ∧
      @put sha256Digest middleKey v t = .error e t' ∧
      e = ⟨.internal, "leaf split overflow"⟩ := by
  let := sha256Digest
  obtain ⟨v, half⟩ : ∃ v : Bytes, v.length = 2000 := ⟨List.replicate 2000 7, List.length_replicate⟩
  obtain ⟨u, whole⟩ : ∃ u : Bytes, u.length = 4054 := ⟨List.replicate 4054 7, List.length_replicate⟩
  have pair : leafSize [(lowKey, v), (highKey, v)] ≤ pageSize := by simp [leafSize, pageSize, half]
  have alone : leafSize [(lowKey, v)] ≤ pageSize := by simp [leafSize, pageSize, half]
  have large : pageSize < leafSize [(middleKey, u), (highKey, v)] := by simp [leafSize, pageSize, half, whole]
  obtain ⟨⟨⟩, _, one, rfl⟩ := Ends.returns (put_low alone)
  obtain ⟨⟨⟩, _, two, rfl⟩ := Ends.returns (put_pair pair)
  have ran : Run 16 [] (pairTree v v) _ := .put (.put .create one) two
  have refused := put_middle pair large
  cases call : put middleKey u (pairTree v v) with
  | ok _ t' => exact (refused.of_ok call).elim
  | error e t' => exact ⟨_, _, u, e, t', ran, by simp [pageSize, whole], call, refused.of_error call⟩

/-! ## Presence of a transaction -/

section Presence
variable [Digest] {t : BTree} {txid : Hash}

/-- The child after the last separator that does not exceed `txid` in its first 32 bytes. -/
def prefixSlot (keys : List Key) (txid : Hash) : Nat := (keys.takeWhile fun sep => sep.val.take 32 ≤ txid.val).length

def existsLoop (t : BTree) (txid : Hash) : (guard : Nat) → PageRef → Except ChainError Bool
  | 0, _ => .error (corrupt "tree depth exceeded")
  | guard + 1, r => do
    match ← t.readNodeVerified r with
    | .leaf entries => return entries.any fun e => ofTxid txid e.1
    | .internal children keys => t.existsLoop txid guard (childAt children (prefixSlot keys txid))

def existsTxidPrefix (t : BTree) (txid : Hash) : Except ChainError Bool := t.existsLoop txid 64 t.root

/-- The separators that a lookup of `k` passes: they do not exceed `k`, and stand left of its path. -/
def passedLoop (t : BTree) (k : Key) : (guard : Nat) → PageRef → Except ChainError (List Key)
  | 0, _ => .error (corrupt "tree depth exceeded")
  | guard + 1, r => do
    match ← t.readNodeVerified r with
    | .leaf _ => return []
    | .internal children keys =>
      let below ← t.passedLoop k guard (childAt children (slot keys k))
      return keys.takeWhile (· ≤ k) ++ below

omit [Digest]

private theorem cons_le_cons {p q : Bytes} : a :: p ≤ b :: q ↔ a < b ∨ a = b ∧ p ≤ q := by
  rw [← not_lt, List.cons_lt_cons_iff]
  rcases lt_trichotomy a b with below | rfl | above
  · simp [below, below.ne', not_lt.mpr below.le]
  · simp
  · simp [above, above.ne', not_lt.mpr above.le]

private theorem append_le_append {p p' q q' : Bytes} (length : p.length = p'.length) (below : q ≤ q') :
    p ++ q ≤ p' ++ q' ↔ p ≤ p' := by
  induction p generalizing p' with
  | nil =>
    cases List.length_eq_zero_iff.mp length.symm
    simpa using below
  | cons a p ih =>
    cases p' with
    | nil => cases length
    | cons b p' => rw [List.cons_append, List.cons_append, cons_le_cons, cons_le_cons, ih (by simpa using length)]

private theorem zeros_le (q : Bytes) : List.replicate q.length 0x00 ≤ q := by
  induction q with
  | nil => exact le_rfl
  | cons a q ih => exact cons_le_cons.mpr ((UInt8.zero_le (a := a)).lt_or_eq.imp_right fun same => ⟨same, ih⟩)

private theorem le_ones (q : Bytes) : q ≤ List.replicate q.length 0xff := by
  induction q with
  | nil => exact le_rfl
  | cons a q ih =>
    have top : a ≤ 0xff := UInt8.le_iff_toNat_le.mpr (Nat.le_of_lt_succ a.toNat_lt)
    exact cons_le_cons.mpr (top.lt_or_eq.imp_right fun same => ⟨same, ih⟩)

private theorem key_split (k : Key) : k.val = k.val.take 32 ++ k.val.drop 32 ∧ (k.val.take 32).length = 32 ∧
    (k.val.drop 32).length = 4 := by
  simp [k.property]

private theorem take_le_iff (k : Key) (txid : Hash) : k.val.take 32 ≤ txid.val ↔ k ≤ lastKey txid := by
  obtain ⟨whole, front, back⟩ := key_split k
  show _ ↔ k.val ≤ txid.val ++ List.replicate 4 0xff
  nth_rewrite 2 [whole]
  exact (append_le_append (front.trans txid.property.symm) (back ▸ le_ones _)).symm

private theorem le_take_iff (k : Key) (txid : Hash) : txid.val ≤ k.val.take 32 ↔ firstKey txid ≤ k := by
  obtain ⟨whole, front, back⟩ := key_split k
  show _ ↔ txid.val ++ List.replicate 4 0x00 ≤ k.val
  nth_rewrite 2 [whole]
  exact (append_le_append (txid.property.trans front.symm) (back ▸ zeros_le _)).symm

/-- The keys of a transaction are an interval. -/
theorem ofTxid_iff (k : Key) : ofTxid txid k = true ↔ firstKey txid ≤ k ∧ k ≤ lastKey txid := by
  rw [← take_le_iff, ← le_take_iff, ofTxid, beq_iff_eq]
  exact ⟨fun same => ⟨same.ge, same.le⟩, fun ⟨least, most⟩ => most.antisymm least⟩

private theorem prefixSlot_eq (keys : List Key) : prefixSlot keys txid = slot keys (lastKey txid) := by
  simp only [prefixSlot, slot, take_le_iff]

variable [Digest]

/-- The path is that of the last key the transaction can have. -/
theorem existsLoop_eq (guard : Nat) (r : PageRef) :
    t.existsLoop txid guard r = (t.leafLoop (lastKey txid) guard r).map fun leaf => leaf.any fun e =>
      ofTxid txid e.1 := by
  induction guard generalizing r with
  | zero => rfl
  | succ guard ih =>
    rw [existsLoop, leafLoop]
    cases t.readNodeVerified r with
    | error e => rfl
    | ok n =>
      cases n with
      | leaf entries => rfl
      | internal children keys =>
        simp only [bind, Except.bind, prefixSlot_eq]
        exact ih _

/-- The leaf of a key holds the entries up to the key that are not left of a separator it passes. -/
theorem Holds.leaf {k : Key} (guard : Nat) (holds : Holds t.rd d lo hi r x) (lower : lo ≤ (k : WithBot Key))
    (upper : (k : WithTop Key) < hi) (deep : d < guard) :
    ∃ leaf passed, t.leafLoop k guard r = .ok leaf ∧ t.passedLoop k guard r = .ok passed ∧
      leaf ⊆ x.entries ∧ ∀ e ∈ x.entries, e.1 ≤ k → (e ∈ leaf ↔ ∀ sep ∈ passed, sep ≤ e.1) := by
  induction d generalizing guard lo hi r x with
  | zero =>
    obtain ⟨guard, rfl⟩ := Nat.exists_eq_add_of_lt deep
    obtain ⟨es, read, -, -, rfl⟩ := holds
    refine ⟨es, [], ?_, ?_, fun _ => id, fun e member _ => by simpa using member⟩
    · rw [leafLoop, rd_eq_some.mp read]
      rfl
    · rw [passedLoop, rd_eq_some.mp read]
      rfl
  | succ d ih =>
    obtain ⟨guard, rfl⟩ : ∃ g, guard = g + 1 := ⟨guard - 1, by omega⟩
    obtain ⟨rs, ks, xs, read, -, chain, rfl⟩ := holds
    obtain ⟨c, a, b, y, edge, held, low, high, inside, taken⟩ := chain.passed lower upper
    obtain ⟨leaf, passed, ends, walked, within, exact_⟩ := ih guard held low high (by omega)
    have entered := childAt_of_getElem? edge
    refine ⟨leaf, ks.takeWhile (· ≤ k) ++ passed, ?_, ?_, fun e member => inside (within member),
      fun e member upto => ?_⟩
    · rw [leafLoop, rd_eq_some.mp read]
      show t.leafLoop k guard (childAt rs (slot ks k)) = _
      rw [entered, ends]
    · rw [passedLoop, rd_eq_some.mp read]
      show Except.bind (t.passedLoop k guard (childAt rs (slot ks k))) _ = _
      rw [entered, walked]
      rfl
    · rw [List.forall_mem_append, ← taken e member upto]
      exact ⟨fun here => ⟨within here, (exact_ e (within here) upto).mp here⟩, fun both =>
        (exact_ e both.1 upto).mpr both.2⟩

variable {m : Key → Option Bytes} {limit : Nat} {faults : List (Option Bytes)}

private theorem existsTxidPrefix_of_leaf (last : t.leafLoop (lastKey txid) 64 t.root = .ok leaf) :
    t.existsTxidPrefix txid = .ok (leaf.any fun e => ofTxid txid e.1) := by
  rw [existsTxidPrefix, existsLoop_eq, last]
  rfl

/-- The scan for a transaction lists its keys. -/
theorem Represents.presence (represents : Represents t m) (txid : Hash) :
    ∃ keys, t.keysWithTxidPrefix txid = .ok keys ∧ ∀ k, k ∈ keys ↔ m k ≠ none ∧ ofTxid txid k = true := by
  obtain ⟨plain, d, x, rooted, rfl⟩ := represents
  refine ⟨_, rooted.keysWithTxidPrefix plain txid, fun k => ?_⟩
  rw [List.mem_filter, decide_eq_true_iff, ← ofTxid_iff, Option.ne_none_iff_exists', List.mem_map]
  refine and_congr_left fun _ =>
    ⟨?_, fun ⟨v, found⟩ => ⟨(k, v), (Entries.find_eq_some rooted.holds.sorted).mp found, rfl⟩⟩
  rintro ⟨e, member, rfl⟩
  exact ⟨e.2, (Entries.find_eq_some rooted.holds.sorted).mpr member⟩

/-- On every reached tree `existsTxidPrefix` agrees with the scan for the keys of the transaction
exactly if there is no such key, or one that no separator on the path of the last key the transaction can
have exceeds. -/
theorem existsTxidPrefix_exact_iff (ran : Run limit faults t m) (room : 0 < limit) (small : limit < 2 ^ 32)
    (txid : Hash) :
    ∃ found keys passed, t.existsTxidPrefix txid = .ok found ∧ t.keysWithTxidPrefix txid = .ok keys ∧
      t.passedLoop (lastKey txid) 64 t.root = .ok passed ∧ (∀ k, k ∈ keys ↔ m k ≠ none ∧ ofTxid txid k = true) ∧
      ((found = true ↔ keys ≠ []) ↔ (keys ≠ [] → ∃ k ∈ keys, ∀ sep ∈ passed, sep ≤ k)) := by
  have represents := ran.represents room small
  obtain ⟨keys, scanned, member⟩ := represents.presence txid
  obtain ⟨plain, d, x, rooted, rfl⟩ := represents
  have deep := rooted.depth.2
  obtain ⟨leaf, passed, ends, walked, inside, exact_⟩ := Holds.leaf (k := lastKey txid) 64
    (rd_of_plain plain ▸ rooted.holds) bot_le (WithTop.coe_lt_top _) (by omega)
  refine ⟨_, keys, passed, existsTxidPrefix_of_leaf ends, scanned, walked, member, ?_⟩
  -- a key of the transaction in the leaf is one that no separator exceeds
  have here : (leaf.any fun e => ofTxid txid e.1) = true ↔ ∃ k ∈ keys, ∀ sep ∈ passed, sep ≤ k := by
    rw [List.any_eq_true]
    constructor
    · rintro ⟨e, held, own⟩
      refine ⟨e.1, (member e.1).mpr ⟨?_, own⟩, (exact_ e (inside held) ((ofTxid_iff _).mp own).2).mp held⟩
      rw [(Entries.find_eq_some rooted.holds.sorted).mpr (inside held)]
      exact Option.some_ne_none e.2
    · rintro ⟨k, listed, beyond⟩
      obtain ⟨present, own⟩ := (member k).mp listed
      obtain ⟨v, found⟩ := Option.ne_none_iff_exists'.mp present
      exact ⟨(k, v),
        (exact_ (k, v) ((Entries.find_eq_some rooted.holds.sorted).mp found) ((ofTxid_iff _).mp own).2).mpr beyond, own⟩
  rw [here]
  refine ⟨Iff.mpr, fun complete => ⟨?_, complete⟩⟩
  rintro ⟨k, listed, -⟩ empty
  rw [empty] at listed
  cases listed

end Presence

/-! ## An output left of the cut -/

/-- The transaction that both `lowKey` and `middleKey` belong to. -/
def lowTxid : Hash := ByteArr.filled 32 1

section Straddle
variable [Digest] {u : Bytes} (wide : u.length = 4050)
include wide

private theorem cutTree_stored (k : Key) :
    Stored (cutTree u k k).kept 1 (cutTree u k k).root ([[(lowKey, u)], [(k, [])]], [k]) := by
  obtain ⟨root, left, right⟩ := cutTree_reads wide k k
  rw [rd_of_plain (t := cutTree u k k) fun _ => rfl] at root left right
  have live {r : PageRef} {n : Node} (below : r.id < 5)
    (read : (cutTree u k k).disk r = some n) : (cutTree u k k).kept r = some n :=
    kept_eq_some.mpr ⟨fun free => free.elim (fun member => nomatch member) fun past =>
      absurd below (UInt32.not_lt.mpr past), read⟩
  exact ⟨_, live (show (4 : PageId) < 5 by decide) root,
    .cons (live (show (2 : PageId) < 5 by decide) left) (.cons (live (show (3 : PageId) < 5 by decide) right) .nil)⟩

/-- Without its second output the transaction is left of the cut only. -/
theorem erased_leaf (before : Represents (cutTree u middleKey middleKey) m) (after : Represents t m')
    (ran : erase middleKey (cutTree u middleKey middleKey) = .ok () t) :
    t.leafLoop (lastKey lowTxid) 64 t.root = .ok [] := by
  obtain ⟨plain, d, x, rooted, -⟩ := before
  have stored := cutTree_stored wide middleKey
  have deep := rooted.depth.1
  rw [rooted.kept.depth_eq stored] at deep
  have edited := (erase_shape rooted.alloc plain stored deep middleKey).of_ok ran
  have onPages := edited.mono fun s n read => (kept_eq_some.mp read).2
  rw [← rd_of_plain after.1] at onPages
  rw [leafLoop_shape onPages (fits_of_stored edited) (by decide)]
  rfl

end Straddle

/-- Two outputs of a transaction do not fit one leaf, and the leaf is cut between them. The one right of
the cut is found. -/
theorem existsTxidPrefix_exact_iff_cut : ∃ t m, @Run sha256Digest 16 [] t m ∧ m lowKey ≠ none ∧
      @passedLoop sha256Digest t (lastKey lowTxid) 64 t.root = .ok [middleKey] ∧
      @existsTxidPrefix sha256Digest t lowTxid = .ok true := by
  let := sha256Digest
  obtain ⟨u, wide⟩ : ∃ u : Bytes, u.length = 4050 := ⟨List.replicate 4050 7, List.length_replicate⟩
  obtain ⟨⟨⟩, _, one, rfl⟩ := Ends.returns (put_low (low_fits wide))
  obtain ⟨⟨⟩, _, two, rfl⟩ := Ends.returns (put_side wide (k := middleKey) rfl)
  have ran : Run 16 [] (cutTree u middleKey middleKey) _ := .put (.put .create one) two
  obtain ⟨found, keys, passed, answer, -, walked, member, exact_⟩ :=
    existsTxidPrefix_exact_iff ran (by decide) (by decide) lowTxid
  obtain ⟨root, -, right⟩ := cutTree_reads wide middleKey middleKey
  have path : (cutTree u middleKey middleKey).passedLoop (lastKey lowTxid) 64 (cutTree u middleKey middleKey).root =
      .ok [middleKey] := by
    rw [passedLoop, rd_eq_some.mp root]
    show Except.bind ((cutTree u middleKey middleKey).passedLoop (lastKey lowTxid) 63
      ⟨3, nodeHash (sideLeaf middleKey)⟩) _ = _
    rw [passedLoop, rd_eq_some.mp right]
    rfl
  cases path.symm.trans walked
  have listed : middleKey ∈ keys := (member middleKey).mpr ⟨by simp, by decide⟩
  have agrees := exact_.mpr fun _ => ⟨middleKey, listed, by simp⟩
  rw [agrees.mpr (List.ne_nil_of_mem listed)] at answer
  refine ⟨_, _, ran, ?_, path, answer⟩
  rw [Function.update_of_ne (by decide), Function.update_self]
  exact Option.some_ne_none u

/-- Two outputs of a transaction do not fit one leaf; the leaf is cut between them, and the one right
of the cut is spent. The other is still there, and `existsTxidPrefix` does not find it. -/
theorem existsTxidPrefix_misses_output : ∃ t m, @Run sha256Digest 16 [] t m ∧ m lowKey ≠ none ∧
    ofTxid lowTxid lowKey = true ∧
      @existsTxidPrefix sha256Digest t lowTxid = .ok false := by
  let := sha256Digest
  obtain ⟨u, wide⟩ : ∃ u : Bytes, u.length = 4050 := ⟨List.replicate 4050 7, List.length_replicate⟩
  obtain ⟨⟨⟩, _, one, rfl⟩ := Ends.returns (put_low (low_fits wide))
  obtain ⟨⟨⟩, _, two, rfl⟩ := Ends.returns (put_side wide (k := middleKey) rfl)
  obtain ⟨⟨⟩, t, three, -⟩ := Ends.returns (erase_side wide middleKey)
  have cut : Run 16 [] (cutTree u middleKey middleKey) _ := .put (.put .create one) two
  have ran : Run 16 [] t _ := .erase cut three
  refine ⟨t, _, ran, ?_, by decide, ?_⟩
  · nofun
  · have leaf := erased_leaf wide (cut.represents (by decide) (by decide))
      (ran.represents (by decide) (by decide)) three
    rw [existsTxidPrefix_of_leaf leaf]
    rfl

end BTree
end Innova.Store3A
