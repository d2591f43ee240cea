import Innova.Store3A.TreeMap

/-! Runs of `put` and `erase` from `create`. As long as the page file cannot reach
2^32 pages, every such run is a run of a finite map. Past that size the 32-bit
page counter wraps and a tree whose last update succeeded can no longer be read. -/
namespace Innova.Store3A
open Lib Lib.PagedTree Chainstate

namespace BTree
section Runs
variable [Digest]

/-- Trees reached by calls of `put` and `erase`, with the map their successes make. -/
inductive Run (limit : Nat) (faults : List (Option Bytes)) : BTree → (Key → Option Bytes) → Prop where
  | create : Run limit faults (create limit faults) fun _ => none
  | put {t t' : BTree} {m : Key → Option Bytes} {k : Key} {v : Bytes} (before : Run limit faults t m)
      (ran : put k v t = .ok () t') : Run limit faults t' (Function.update m k (some v))
  | putFailed {t t' : BTree} {m : Key → Option Bytes} {k : Key} {v : Bytes} {e : ChainError}
      (before : Run limit faults t m) (ran : put k v t = .error e t') : Run limit faults t' m
  | erase {t t' : BTree} {m : Key → Option Bytes} {k : Key} (before : Run limit faults t m)
      (ran : erase k t = .ok () t') : Run limit faults t' (Function.update m k none)
  | eraseFailed {t t' : BTree} {m : Key → Option Bytes} {k : Key} {e : ChainError} (before : Run limit faults t m)
      (ran : erase k t = .error e t') : Run limit faults t' m

variable {t t' : BTree} {m : Key → Option Bytes} {limit : Nat} {faults : List (Option Bytes)}

/-- A plain well-formed tree whose entries are those of `m`. -/
def Represents (t : BTree) (m : Key → Option Bytes) : Prop :=
  Plain t ∧ ∃ d x, Rooted t d x ∧ Entries.find x.entries = m

theorem create_represents (room : 0 < limit) (small : limit < 2 ^ 32) :
    Represents (create limit faults) fun _ => none := by
  have plain : Plain (create limit faults) := fun _ => rfl
  have live : ¬Free (create limit faults) 0 := by
    rintro (member | past)
    · simp [create] at member
    · exact absurd (show (1 : PageId) ≤ 0 from past) (by decide)
  have page : encodeNode (.leaf []) = some ((create limit faults).pages 0) := by
    simpa [create] using encodeNode_of_fits (n := .leaf []) (by decide)
  refine ⟨plain, 0, ⟨[], [⟨0, leafHash []⟩]⟩,
    ⟨⟨by simp [create], by simp [create], room, small⟩, ?_, by simpa using live,
    by simp⟩, rfl⟩
  exact ⟨[], disk_written (n := .leaf []) live trivial page, .nil, by simp, rfl⟩

/-- Programs that only write free pages keep the tree of a root they leave in place. -/
theorem Rooted.grows (rooted : Rooted t d x) (grows : Grows t t') (root : t'.root = t.root) : Rooted t' d x := by
  refine ⟨grows.alloc, ?_, fun s member free => rooted.live s member (grows.free _ free), rooted.nodup⟩
  rw [root]
  exact rooted.holds.frame fun s member => grows.disk (rooted.live s member)

private theorem Represents.assign (represents : Represents t m) (k : Key) (val : Option Bytes) :
    Ends (assign k val) t (fun _ t' => Represents t' (Function.update m k val)) (fun _ t' => Represents t' m) := by
  obtain ⟨plain, d, x, rooted, rfl⟩ := represents
  apply ((assign_spec rooted plain k val).and (assign_keeps_overlay k val t)).ran.mono
  · rintro _ t' ⟨-, ⟨d', x', ret, standing, entries, -⟩, view⟩
    refine ⟨plain.of_view view, d', x', standing, funext fun j => ?_⟩
    rw [entries]
    by_cases same : j = k <;> cases val <;>
      simp [editEntries, Entries.find_insert rooted.holds.sorted, Entries.find_erase rooted.holds.sorted, same]
  · rintro _ t' ⟨failed, stopped, view⟩
    exact ⟨plain.of_view view, d, x, rooted.grows stopped.1 (assign_error_root k val failed), rfl⟩

theorem Run.represents (ran : Run limit faults t m) (room : 0 < limit) (small : limit < 2 ^ 32) : Represents t m := by
  induction ran with
  | create => exact create_represents room small
  | @put _ _ _ k v _ ran ih => exact (ih.assign k (some v)).of_ok ran
  | @putFailed _ _ _ k v _ _ ran ih => exact (ih.assign k (some v)).of_error ran
  | @erase _ _ _ k _ ran ih => exact (ih.assign k none).of_ok ran
  | @eraseFailed _ _ _ k _ _ ran ih => exact (ih.assign k none).of_error ran

/-- Every separator stands above all entries of the child before it and at or
below all entries of the child after it. -/
def SeparatorsBound (t : BTree) : Prop :=
  ∀ r children keys, Reaches t.rd t.root r → t.rd r = some (.internal children keys) →
    children.length = keys.length + 1 ∧
    ∀ (i : Nat) sep left right, keys[i]? = some sep → children[i]? = some left → children[i + 1]? = some right →
      ∃ below above, t.collectRec t.maxDepth left = .ok below ∧ t.collectRec t.maxDepth right = .ok above ∧
        (∀ e ∈ below, e.1 < sep) ∧ ∀ e ∈ above, sep ≤ e.1

private theorem chain_neighbours (chain : Chain (Holds t.rd d) lo hi ks rs xs) (deep : d < fuel)
    (key : ks[i]? = some sep) (before : rs[i]? = some left) (after : rs[i + 1]? = some right) :
    ∃ below above, t.collectRec fuel left = .ok below ∧ t.collectRec fuel right = .ok above ∧
      (∀ e ∈ below, e.1 < sep) ∧ ∀ e ∈ above, sep ≤ e.1 := by
  induction chain generalizing i with
  | last only => simp at key
  | cons head above below tail ih =>
    cases i with
    | succ i => exact ih (by simpa using key) (by simpa using before) (by simpa using after)
    | zero =>
      cases key
      cases before
      obtain ⟨hi', y, next⟩ : ∃ hi' y, Holds t.rd d _ hi' right y := by
        cases tail with
        | last only => cases after; exact ⟨_, _, only⟩
        | cons first _ _ _ => cases after; exact ⟨_, _, first⟩
      exact ⟨_, _, collectRec_spec head deep, collectRec_spec next deep,
        fun e member => WithTop.coe_lt_coe.mp (head.within member).2,
        fun e member => WithBot.coe_le_coe.mp (next.within member).1⟩

private theorem Rooted.separators (rooted : Rooted t d x) (plain : Plain t) : SeparatorsBound t := by
  intro r children keys reaches found
  have holds : Holds t.rd d ⊥ ⊤ t.root x := rd_of_plain plain ▸ rooted.holds
  obtain ⟨depth, lo, hi, y, held, shallow⟩ := holds.of_reaches reaches
  cases depth with
  | zero => obtain ⟨es, leaf, -⟩ := held; rw [leaf] at found; cases found
  | succ depth =>
    obtain ⟨rs, ks, xs, node, -, chain, rfl⟩ := held
    rw [node] at found
    cases found
    have deep := rooted.depth.1
    exact ⟨chain.length.1, fun i sep left right key before after => chain_neighbours chain (by omega) key before after⟩

theorem Represents.reads (represents : Represents t m) : (∀ k, t.get k = .ok (m k)) ∧ SeparatorsBound t ∧
      ∃ entries, t.collectAll = .ok entries ∧ entries.Pairwise (·.1 < ·.1) ∧ ∀ k v, (k, v) ∈ entries ↔
        m k = some v := by
  obtain ⟨plain, d, x, rooted, rfl⟩ := represents
  exact ⟨rooted.get plain, rooted.separators plain, x.entries, rooted.collectAll plain, rooted.holds.sorted,
    fun k v => (Entries.find_eq_some rooted.holds.sorted).symm⟩

/-- The copy-on-write tree refines a finite map: in every tree a run of calls
reaches, lookups answer from the map, a successful call changes the map at its key
only, a failed call keeps the root, separators bound their neighbours, and a full
traversal lists the map in increasing key order. Page writes may fail at will, as
long as the file-size limit keeps page ids below 2^32. -/
theorem tree_refines_map (ran : Run limit faults t m) (room : 0 < limit) (small : limit < 2 ^ 32) :
    (∀ k, t.get k = .ok (m k)) ∧
    (∀ k v t', put k v t = .ok () t' → ∀ j, t'.get j = .ok (if j = k then some v else m j)) ∧
    (∀ k t', erase k t = .ok () t' → ∀ j, t'.get j = .ok (if j = k then none else m j)) ∧
    (∀ k v e t', put k v t = .error e t' → t'.rootId = t.rootId ∧ t'.rootHash = t.rootHash) ∧
    (∀ k e t', erase k t = .error e t' → t'.rootId = t.rootId ∧ t'.rootHash = t.rootHash) ∧ SeparatorsBound t ∧
    ∃ entries, t.collectAll = .ok entries ∧ entries.Pairwise (·.1 < ·.1) ∧ ∀ k v, (k, v) ∈ entries ↔ m k = some v := by
  obtain ⟨answers, bound, listed⟩ := (ran.represents room small).reads
  refine ⟨answers, fun k v t' put j => ?_, fun k t' erase j => ?_, fun k v e t' failed => ?_, fun k e t' failed => ?_,
    bound, listed⟩
  · rw [((Run.put ran put).represents room small).reads.1 j, Function.update_apply]
  · rw [((Run.erase ran erase).represents room small).reads.1 j, Function.update_apply]
  · exact PageRef.mk.inj (assign_error_root k (some v) failed)
  · exact PageRef.mk.inj (assign_error_root k none failed)

end Runs

/-! ## A split -/

def lowKey : Key := ByteArr.filled 36 1

def highKey : Key := ByteArr.filled 36 2

def page (n : Node) : Bytes := (encodeNode n).getD []

def lowLeaf (v : Bytes) : Node := .leaf [(lowKey, v)]

def sideLeaf (k : Key) : Node := .leaf [(k, [])]

section Split
variable [Digest] (v : Bytes)

def twoLeaves (k sep : Key) : Node := .internal [⟨2, nodeHash (lowLeaf v)⟩, ⟨3, nodeHash (sideLeaf k)⟩] [sep]

/-- The file after the first key: its leaf is page 1. -/
def oneLeaf : BTree :=
  { create 16 [] with
    pages := Function.update (create 16 []).pages 1 (page (lowLeaf v)), nextId := 2, rootId := 1
    rootHash := nodeHash (lowLeaf v), commitRetired := [0], writes := [1, 0] }

/-- The file after a second key `k` that did not fit: the leaves are pages 2 and 3, the root is
page 4. -/
def cutTree (k sep : Key) : BTree :=
  { oneLeaf v with
    pages := Function.update
      (Function.update (Function.update (oneLeaf v).pages 2 (page (lowLeaf v))) 3 (page (sideLeaf k))) 4
      (page (twoLeaves v k sep))
    nextId := 5, rootId := 4, rootHash := nodeHash (twoLeaves v k sep), rootIsLeaf := false
    commitRetired := [0, 1], writes := [4, 3, 2, 1, 0] }

variable {v}

theorem disk_page {t : BTree} {id : PageId} (inside : id < t.nextId) (shaped : Shaped n)
    (fits : nodeSize n ≤ pageSize) (written : t.pages id = page n) : t.disk ⟨id, nodeHash n⟩ = some n := by
  have decoded : decodeNode (t.pages id) = .ok n := by
    rw [written]
    exact decode_encode shaped (encodeNode_of_fits fits)
  have read : t.readAuthentic ⟨id, nodeHash n⟩ "" = .ok n := by
    simp [readAuthentic, readPage, decoded, UInt32.not_le.mpr inside, bind, Except.bind, pure, Except.pure]
  exact readAuthentic_eq_ok.mp read

theorem put_low (fits : leafSize [(lowKey, v)] ≤ pageSize) :
    Ends (put lowKey v) (create 16 []) (fun _ t' => t' = oneLeaf v) (fun _ _ => False) := by
  have plain : Plain (create 16 []) := fun _ => rfl
  have root : (create 16 []).rd (create 16 []).root = some (.leaf []) := by
    rw [rd_of_plain plain]
    exact disk_page (n := .leaf []) (show (0 : PageId) < 1 by decide) trivial (by decide) (by simp [create, page])
  refine Ends.get (Ends.bind (Ends.bind (ends_read root ?_)))
  show Ends (rewriteLeaf 0 [(lowKey, v)]) (create 16 []) _ _
  rw [rewriteLeaf, if_pos fits]
  rfl

theorem oneLeaf_root (fits : leafSize [(lowKey, v)] ≤ pageSize) :
    (oneLeaf v).rd (oneLeaf v).root = some (lowLeaf v) := by
  rw [rd_of_plain fun _ => rfl]
  exact disk_page (n := lowLeaf v) (show (1 : PageId) < 2 by decide) trivial fits (by simp [oneLeaf])

/-- Two entries that fit a page each are split into two leaves. -/
theorem splitLeaf_two (old : PageId) (left : leafSize [a] ≤ pageSize) (right : leafSize [b] ≤ pageSize) :
    splitLeaf old [a, b] = (do
      retire old
      let lid ← appendPage (page (.leaf [a]))
      let rid ← appendPage (page (.leaf [b]))
      return (⟨lid, nodeHash (.leaf [a])⟩, some (b.1, ⟨rid, nodeHash (.leaf [b])⟩))) := by
  have low : encodeNode (.leaf [a]) = some (page (.leaf [a])) := encodeNode_of_fits left
  have side : encodeNode (.leaf [b]) = some (page (.leaf [b])) := encodeNode_of_fits right
  simp only [splitLeaf, List.length_cons, List.length_nil, Nat.zero_add, Nat.reduceAdd, Nat.reduceDiv,
    List.take_succ_cons, List.take_zero, List.drop_succ_cons, List.drop_zero, low, side]
  rfl

variable (wide : v.length = 4050)
include wide

omit [Digest] in
theorem low_fits : leafSize [(lowKey, v)] ≤ pageSize := by simp [leafSize, pageSize, wide]

theorem put_side (behind : Entries.insert [(lowKey, v)] k [] = [(lowKey, v), (k, [])]) :
    Ends (put k []) (oneLeaf v) (fun _ t' => t' = cutTree v k k) (fun _ _ => False) := by
  refine Ends.get (Ends.bind (Ends.bind (ends_read (oneLeaf_root (low_fits wide)) ?_)))
  show Ends (rewriteLeaf 1 (Entries.insert [(lowKey, v)] k [])) (oneLeaf v) _ _
  rw [behind, rewriteLeaf, if_neg (by simp [leafSize, pageSize, wide]), splitLeaf_two 1 (low_fits wide)
    (by simp [leafSize, pageSize])]
  rfl

/-- What the pages of the split file hold. -/
theorem cutTree_reads (k sep : Key) : (cutTree v k sep).rd (cutTree v k sep).root = some (twoLeaves v k sep) ∧
      (cutTree v k sep).rd ⟨2, nodeHash (lowLeaf v)⟩ = some (lowLeaf v) ∧
      (cutTree v k sep).rd ⟨3, nodeHash (sideLeaf k)⟩ = some (sideLeaf k) := by
  rw [rd_of_plain fun _ => rfl]
  refine ⟨?_, ?_, ?_⟩
  · exact disk_page (n := twoLeaves v k sep) (show (4 : PageId) < 5 by decide) rfl
      (by simp [nodeSize, twoLeaves, internalSize, pageSize]) (by simp [cutTree])
  · exact disk_page (n := lowLeaf v) (show (2 : PageId) < 5 by decide) trivial (low_fits wide)
      (by simp [cutTree])
  · exact disk_page (n := sideLeaf k) (show (3 : PageId) < 5 by decide) trivial
      (by simp [nodeSize, sideLeaf, leafSize, pageSize]) (by simp [cutTree])

theorem erase_side (k : Key) : Ends (erase k) (cutTree v k k) (fun _ _ => True) (fun _ _ => False) := by
  have right : slot [k] k = 1 := by simp [slot_cons]
  have gone : editEntries k none [(k, [])] = [] := by simp [editEntries, Entries.erase, Entries.passed, Entries.after]
  obtain ⟨root, -, side⟩ := cutTree_reads wide k k
  refine Ends.get (Ends.bind (Ends.bind (ends_read root (Ends.bind (Ends.bind ?_)))))
  rw [right]
  refine ends_read side ?_
  show Ends (rewriteLeaf 3 (editEntries k none [(k, [])])) _ _ _
  rw [gone]
  trivial

end Split

/-- The second entry cuts the leaf of the first, and is erased again. -/
theorem tree_refines_map_split : ∃ t m t' v, @Run sha256Digest 16 [] t m ∧ t.rootIsLeaf = false ∧ m highKey = some [] ∧
    @erase sha256Digest highKey t = .ok () t' ∧ @get sha256Digest t' lowKey = .ok (some v) ∧
    @get sha256Digest t' highKey = .ok none := by
  let := sha256Digest
  obtain ⟨v, wide⟩ : ∃ v : Bytes, v.length = 4050 := ⟨List.replicate 4050 7, List.length_replicate⟩
  obtain ⟨⟨⟩, _, one, rfl⟩ := Ends.returns (put_low (low_fits wide))
  obtain ⟨⟨⟩, _, two, rfl⟩ := Ends.returns (put_side wide (k := highKey) rfl)
  obtain ⟨⟨⟩, t, three, -⟩ := Ends.returns (erase_side wide highKey)
  have ran : Run 16 [] (cutTree v highKey highKey) _ := .put (.put .create one) two
  obtain ⟨-, -, erased, -⟩ := tree_refines_map ran (by decide) (by decide)
  refine ⟨_, _, t, v, ran, rfl, Function.update_self .., three, ?_, erased _ _ three highKey⟩
  rw [erased _ _ three lowKey, if_neg (by decide), Function.update_of_ne (by decide), Function.update_self]

/-! ## The page counter wraps -/

section Wrap
variable [Digest] {t : BTree}

/-- One leaf at page `n`, the last page of the file, and no page to reuse. -/
structure LastLeaf (t : BTree) (n : Nat) (entries : List Entry) : Prop where
  freeList : t.freeList = []
  faults : t.faults = []
  overlayOn : t.overlayOn = false
  fileLimit : t.fileLimit = 2 ^ 32
  nextId : t.nextId = UInt32.ofNat (n + 1)
  root : t.root = ⟨UInt32.ofNat n, leafHash entries⟩
  page : encodeNode (.leaf entries) = some (t.pages (UInt32.ofNat n))

section
variable (last : LastLeaf t n entries) (small : n + 1 < 2 ^ 32)
include last small

private theorem LastLeaf.read : t.rd t.root = some (.leaf entries) := by
  have plain : Plain t := fun id => by simp [overlayNode, last.overlayOn]
  have live : ¬Free t (UInt32.ofNat n) := by
    rintro (member | past)
    · simp [last.freeList] at member
    · rw [last.nextId, UInt32.le_iff_toNat_le, UInt32.toNat_ofNat_of_lt' small,
        UInt32.toNat_ofNat_of_lt' (show n < 2 ^ 32 by omega)] at past
      omega
  rw [rd_of_plain plain, last.root]
  exact disk_written (n := .leaf entries) live trivial last.page

private theorem LastLeaf.append (buf : Bytes) (retired : List PageId) :
    Ends (appendPage buf) { t with commitRetired := retired }
      (fun id t' => id = t.nextId ∧ t' = { t with
        commitRetired := retired, pages := Function.update t.pages t.nextId buf, faults := [], nextId := t.nextId + 1
        writes := t.nextId :: t.writes })
      (fun _ _ => False) := by
  have room : ¬t.fileLimit ≤ t.nextId.toNat := by
    rw [last.fileLimit, last.nextId, UInt32.toNat_ofNat_of_lt' small]
    omega
  refine Ends.get ?_
  simp only [last.freeList]
  refine Ends.bind ?_
  simp only [Ends, writePage, room, if_false, last.faults]
  exact ⟨rfl, rfl⟩

/-- Replacing the only leaf moves it to the next page. -/
theorem LastLeaf.put (k : Key) (v : Bytes)
    (fits : leafSize (Entries.insert entries k v) ≤ pageSize) :
    Ends (put k v) t (fun _ t' => LastLeaf t' (n + 1) (Entries.insert entries k v)) (fun _ _ => False) := by
  refine Ends.get (Ends.bind ?_)
  refine Ends.bind (ends_read (last.read small) ?_)
  simp only [editEntries, rewriteLeaf, fits, if_true]
  refine Ends.bind (Ends.bind (show Ends _ { t with commitRetired := _ } _ _ from (last.append small _ _).imp ?_))
  rintro _ _ ⟨rfl, rfl⟩
  refine ⟨last.freeList, rfl, last.overlayOn, last.fileLimit, ?_, ?_, ?_⟩
  · rw [last.nextId, UInt32.ofNat_add (n + 1) 1]
    rfl
  · show PageRef.mk t.nextId _ = _
    rw [last.nextId]
  · show _ = some (Function.update t.pages t.nextId _ _)
    rw [last.nextId, Function.update_self]
    exact encodeNode_of_fits fits

end

private theorem LastLeaf.wrapped (last : LastLeaf t (2 ^ 32 - 1) entries) (k : Key) : ∃ e, t.get k = .error e := by
  have zero : t.nextId = 0 := last.nextId
  have unread (r : PageRef) : t.readPage r.id = .error (corrupt ("page id out of range " ++ toString r.id.toNat)) := by
    rw [readPage, zero, if_pos (UInt32.zero_le)]
  simp [BTree.get, getLoop, readNodeVerified, overlayNode, last.overlayOn, readAuthentic, unread, bind, Except.bind]

/-- Putting one entry over and over without any write failing. -/
theorem repeated_put (k : Key) (n : Nat) (positive : 0 < n) (small : n < 2 ^ 32) :
    ∃ t, Run (2 ^ 32) [] t (Function.update (fun _ => none) k (some [])) ∧ LastLeaf t n [(k, [])] := by
  have fits : leafSize [(k, [])] ≤ pageSize := by simp [leafSize, pageSize]
  induction n with
  | zero => omega
  | succ n ih =>
    have step {t : BTree} {m : Key → Option Bytes} {entries : List Entry} (ran : Run (2 ^ 32) [] t m)
        (last : LastLeaf t n entries) (same : Entries.insert entries k [] = [(k, [])]) :
        ∃ t, Run (2 ^ 32) [] t (Function.update m k (some [])) ∧ LastLeaf t (n + 1) [(k, [])] := by
      have ends := last.put small k [] (same ▸ fits)
      rw [same] at ends
      cases call : BTree.put k [] t with
      | ok _ t' => exact ⟨t', .put ran call, ends.of_ok call⟩
      | error e t' => exact (ends.of_error call).elim
    rcases n.eq_zero_or_pos with rfl | before
    · refine step .create ⟨rfl, rfl, rfl, rfl, rfl, rfl, ?_⟩ rfl
      simpa [create] using encodeNode_of_fits (n := .leaf []) (by decide)
    · obtain ⟨t, ran, last⟩ := ih before (by omega)
      obtain ⟨t', ran, last⟩ := step ran last (by simp [Entries.insert_cons])
      exact ⟨t', by simpa using ran, last⟩

end Wrap

/-- After 2^32 - 1 successful puts of one entry the page counter has wrapped to
zero, and the tree that should hold the entry reads no page. -/
theorem wrapped_tree_unreadable : ∃ t m e, @Run sha256Digest (2 ^ 32) [] t m ∧ m (ByteArr.zero 36) = some [] ∧
      @get sha256Digest t (ByteArr.zero 36) = .error e := by
  obtain ⟨t, ran, last⟩ := @repeated_put sha256Digest (ByteArr.zero 36) (2 ^ 32 - 1) (by norm_num) (by norm_num)
  obtain ⟨e, failed⟩ := @LastLeaf.wrapped sha256Digest t _ last (ByteArr.zero 36)
  exact ⟨t, _, e, ran, Function.update_self .., failed⟩

end BTree
end Innova.Store3A
