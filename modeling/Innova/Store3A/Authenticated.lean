import Innova.Lib.AlteredTree
import Innova.Lib.Together
import Innova.Store3A.TreeRuns

/-! What the node hashes protect. Two files with one root reference agree on every leaf and
on every list of children, as far as their pages have no collision. The separators are not
hashed: an altered separator sends a lookup down another path. -/
namespace Innova.Store3A
open Lib Lib.PagedTree Chainstate

/-! ## Prefix scans -/

namespace BTree
variable [Digest]

/-- Child `i` may hold a key between `lo` and `hi`. -/
def overlaps (lo hi : Key) (keys : List Key) (i : Nat) : Bool :=
  !(0 < i && hi < keys.getD (i - 1) (ByteArr.zero 36)) && !(i < keys.length && keys.getD i (ByteArr.zero 36) < lo)

def keysPrefixRec (t : BTree) (lo hi : Key) : (fuel : Nat) → PageRef → Except ChainError (List Key)
  | 0, _ => .error ⟨.internal, "recursion without end"⟩
  | fuel + 1, r => do
    match ← t.readNodeVerified r with
    | .leaf entries => return (entries.map Prod.fst).filter fun k => lo ≤ k ∧ k ≤ hi
    | .internal children keys =>
      return (← children.zipIdx.mapM fun (c, i) =>
        if overlaps lo hi keys i then t.keysPrefixRec lo hi fuel c else return []).flatten

/-- The first and the last key a transaction can have. -/
def firstKey (txid : Hash) : Key := ⟨txid.val ++ List.replicate 4 0x00, by simp [txid.property]⟩

def lastKey (txid : Hash) : Key := ⟨txid.val ++ List.replicate 4 0xff, by simp [txid.property]⟩

def keysWithTxidPrefix (t : BTree) (txid : Hash) : Except ChainError (List Key) :=
  t.keysPrefixRec (firstKey txid) (lastKey txid) t.maxDepth t.root

end BTree

/-! ## Hashed messages -/

def entryMessage (e : Entry) : Bytes := e.1.val ++ Bytes.le 4 e.2.length ++ e.2

/-- What is hashed of a node. -/
def nodeMessage : Node → Bytes
  | .leaf entries => ntLeaf :: entries.flatMap entryMessage
  | .internal children _ => ntInternal :: children.flatMap childBytes

private theorem nodeHash_eq [Digest] (n : Node) : nodeHash n = Digest.sha256 (nodeMessage n) := by cases n <;> rfl

/-- The values of a decoded page are short, and an internal page has one child more than
separators. -/
def Decoded : Node → Prop
  | .leaf entries => ∀ e ∈ entries, e.2.length < 2 ^ 16
  | .internal children keys => children.length = keys.length + 1

theorem leafSize_cons (e : Entry) (es : List Entry) : leafSize (e :: es) = 38 + e.2.length + leafSize es := by
  simp only [leafSize, List.map_cons, List.sum_cons]
  omega

private theorem value_le_leafSize (member : e ∈ entries) : e.2.length ≤ leafSize entries := by
  obtain ⟨pre, post, rfl⟩ := List.append_of_mem member
  simp only [leafSize, List.map_append, List.map_cons, List.sum_append, List.sum_cons]
  omega

private theorem decodeEntries_size (start : off ≤ pageSize) (decoded : decodeEntries buf cnt off = .ok entries) :
    off + leafSize entries ≤ pageSize + 4 := by
  induction cnt generalizing off entries with
  | zero => cases decoded; simpa [leafSize] using start
  | succ cnt ih =>
    rw [decodeEntries] at decoded
    split at decoded
    · cases decoded
    dsimp only at decoded
    split at decoded
    · cases decoded
    next fits =>
      obtain ⟨rest, tail, done⟩ := except_bind_ok decoded
      cases done
      have later := ih (by omega) tail
      have width := List.length_take_le (Bytes.toNat (Bytes.slice buf (off + 36) 2)) (buf.drop (off + 38))
      rw [leafSize_cons]
      simp only [Bytes.slice] at later width ⊢
      omega

private theorem decodeChildren_size (start : off ≤ pageSize)
    (decoded : decodeChildren buf cnt off = .ok (children, stop)) :
    children.length = cnt ∧ stop = off + cnt * 36 ∧ stop ≤ pageSize := by
  induction cnt generalizing off stop children with
  | zero => cases decoded; exact ⟨rfl, by omega, start⟩
  | succ cnt ih =>
    rw [decodeChildren] at decoded
    split at decoded
    · cases decoded
    · obtain ⟨⟨rest, stop'⟩, tail, done⟩ := except_bind_ok decoded
      cases done
      have later := ih (by omega) tail
      rw [List.length_cons]
      omega

private theorem decodeKeys_size (start : off ≤ pageSize) (decoded : decodeKeys buf cnt off = .ok keys) :
    keys.length = cnt ∧ off + cnt * 36 ≤ pageSize := by
  induction cnt generalizing off keys with
  | zero => cases decoded; exact ⟨rfl, by omega⟩
  | succ cnt ih =>
    rw [decodeKeys] at decoded
    split at decoded
    · cases decoded
    · obtain ⟨rest, tail, done⟩ := except_bind_ok decoded
      cases done
      have later := ih (by omega) tail
      rw [List.length_cons]
      omega

/-- A decoded page is well formed and fits a page. -/
theorem decodeNode_decoded (decoded : decodeNode buf = .ok n) : Decoded n ∧ nodeSize n ≤ pageSize := by
  have start : 4 ≤ pageSize := by decide
  unfold decodeNode at decoded
  dsimp only at decoded
  split at decoded
  · obtain ⟨entries, read, done⟩ := except_bind_ok decoded
    cases done
    have size := decodeEntries_size start read
    have fits : leafSize entries ≤ pageSize := by omega
    exact ⟨fun e member => ((value_le_leafSize member).trans fits).trans_lt (by decide), fits⟩
  · split at decoded
    · obtain ⟨⟨children, off⟩, kids, rest⟩ := except_bind_ok decoded
      obtain ⟨keys, seps, done⟩ := except_bind_ok rest
      cases done
      obtain ⟨wide, stop, inside⟩ := decodeChildren_size start kids
      obtain ⟨cuts, size⟩ := decodeKeys_size inside seps
      refine ⟨wide.trans (by rw [cuts]), ?_⟩
      show internalSize children keys ≤ pageSize
      rw [internalSize]
      omega
    · cases decoded

private theorem entries_of_message {es fs : List Entry} (one : ∀ e ∈ es, e.2.length < 2 ^ 16)
    (two : ∀ e ∈ fs, e.2.length < 2 ^ 16)
    (same : es.flatMap entryMessage = fs.flatMap entryMessage) : es = fs := by
  induction es generalizing fs with
  | nil =>
    cases fs with
    | nil => rfl
    | cons f fs => simpa [entryMessage] using (congrArg List.length same).symm
  | cons e es ih =>
    cases fs with
    | nil => simpa [entryMessage] using congrArg List.length same
    | cons f fs =>
      rw [List.flatMap_cons, List.flatMap_cons, entryMessage, entryMessage] at same
      simp only [List.append_assoc] at same
      obtain ⟨key, same⟩ := List.append_inj same (by rw [e.1.property, f.1.property])
      obtain ⟨width, same⟩ := List.append_inj same (by simp)
      have length : e.2.length = f.2.length := by
        have small := one e (by simp)
        have small' := two f (by simp)
        have length4 : e.2.length < 256 ^ 4 := by omega
        rw [← Bytes.toNat_le_of_lt length4, width, Bytes.toNat_le_of_lt (by omega)]
      obtain ⟨value, same⟩ := List.append_inj same length
      rw [ih (fun e member => one e (by simp [member])) (fun e member => two e (by simp [member])) same,
        Prod.ext (Subtype.ext key) value]

private theorem children_of_message {cs ds : List PageRef} (same : cs.flatMap childBytes = ds.flatMap childBytes) :
    cs = ds := by
  induction cs generalizing ds with
  | nil =>
    cases ds with
    | nil => rfl
    | cons d ds => simpa [childBytes] using (congrArg List.length same).symm
  | cons c cs ih =>
    cases ds with
    | nil => simpa [childBytes] using congrArg List.length same
    | cons d ds =>
      simp only [List.flatMap_cons, childBytes, List.append_assoc] at same
      obtain ⟨id, same⟩ := List.append_inj same (by simp)
      obtain ⟨hash, same⟩ := List.append_inj same (by rw [c.hash.property, d.hash.property])
      have ids : c.id = d.id := by
        have number := congrArg Bytes.toNat id
        rw [Bytes.toNat_le_of_lt c.id.toNat_lt, Bytes.toNat_le_of_lt d.id.toNat_lt] at number
        exact UInt32.toNat_inj.mp number
      rw [ih same, show c = d by cases c; cases d; simp_all [Subtype.ext_iff]]

/-- The message of a decoded page determines the page but for its separators. -/
theorem alike_of_message (one : Decoded n) (two : Decoded n') (same : nodeMessage n = nodeMessage n') : Alike n n' := by
  cases n with
  | leaf es =>
    cases n' with
    | leaf fs => exact (entries_of_message one two (List.cons.inj same).2).symm
    | internal ds js => exact absurd (List.cons.inj same).1 (by decide)
  | internal cs ks =>
    cases n' with
    | leaf fs => exact absurd (List.cons.inj same).1 (by decide)
    | internal ds js =>
      have children := children_of_message (List.cons.inj same).2
      have wide : cs.length = ks.length + 1 := one
      have wide' : ds.length = js.length + 1 := two
      rw [children] at wide
      exact ⟨children.symm, by omega⟩

/-! ## Altered files -/

namespace BTree
section Digests
variable [Digest]

/-- No page of one file is a second message for the hash of the same page of the other. -/
def CollisionFree (t t' : BTree) : Prop :=
  ∀ id n n', decodeNode (t.pages id) = .ok n → decodeNode (t'.pages id) = .ok n' →
    Digest.sha256 (nodeMessage n) = Digest.sha256 (nodeMessage n') → nodeMessage n = nodeMessage n'

theorem disk_eq_some {t : BTree} (read : t.disk r = some n) : decodeNode (t.pages r.id) = .ok n ∧
    nodeHash n = r.hash := by
  have authentic : t.readAuthentic r "" = .ok n := readAuthentic_eq_ok.mpr read
  obtain ⟨buf, page, rest⟩ := except_bind_ok authentic
  obtain ⟨n', decoded, checked⟩ := except_bind_ok rest
  unfold readPage at page
  split at page
  · cases page
  · cases page
    split at checked
    · next hash => cases checked; exact ⟨decoded, hash⟩
    · cases checked

private theorem CollisionFree.altered (free : CollisionFree t t') : Altered t.disk t'.disk := by
  intro r n n' read other
  obtain ⟨decoded, hash⟩ := disk_eq_some read
  obtain ⟨decoded', hash'⟩ := disk_eq_some other
  refine alike_of_message (decodeNode_decoded decoded).1 (decodeNode_decoded decoded').1
    (free r.id n n' decoded decoded' ?_)
  rw [← nodeHash_eq, ← nodeHash_eq, hash, hash']

/-- A lookup that returns has landed in a leaf. -/
theorem getLoop_lands (plain : Plain t) {guard : Nat} (ran : t.getLoop k guard r = .ok answer) :
    ∃ es, Lands t.disk k r es ∧ answer = Entries.find es k := by
  induction guard generalizing r with
  | zero => cases ran
  | succ guard ih =>
    obtain ⟨n, read, rest⟩ := except_bind_ok ran
    have read : t.disk r = some n := by rw [← rd_of_plain plain]; exact rd_eq_some.mpr read
    cases n with
    | leaf entries => cases rest; exact ⟨entries, .leaf read, rfl⟩
    | internal children keys =>
      obtain ⟨es, lands, found⟩ := ih rest
      have wide : children.length = keys.length + 1 := (decodeNode_decoded (disk_eq_some read).1).1
      have low := slot_le keys k
      have edge := List.getElem?_eq_getElem (show slot keys k < children.length by omega)
      exact ⟨es, .child read (edge.trans (congrArg some (childAt_of_getElem? edge).symm)) lands, found⟩

omit [Digest] in
private theorem slot_before (before : i < slot keys k) : keys.getD i (ByteArr.zero 36) ≤ k := by
  induction keys generalizing i with
  | nil => simp at before
  | cons m keys ih =>
    rw [slot_cons] at before
    split at before
    · next below =>
      cases i with
      | zero => exact below
      | succ i => exact ih (by omega)
    · omega

omit [Digest] in
private theorem slot_at (inside : slot keys k < keys.length) : k < keys.getD (slot keys k) (ByteArr.zero 36) := by
  induction keys with
  | nil => simp at inside
  | cons m keys ih =>
    rw [slot_cons] at inside ⊢
    split at inside
    · next below =>
      rw [if_pos below]
      exact ih (by simpa using inside)
    · next above =>
      rw [if_neg above]
      exact not_le.mp above

omit [Digest] in
/-- The child a search enters may hold its key. -/
theorem overlaps_slot (keys : List Key) (least : first ≤ k) (most : k ≤ last) :
    overlaps first last keys (slot keys k) = true := by
  simp only [overlaps, Bool.and_eq_true, Bool.not_eq_true', Bool.and_eq_false_iff, decide_eq_false_iff_not, not_lt]
  constructor
  · by_cases none : slot keys k = 0
    · exact .inl (by omega)
    · exact .inr ((slot_before (by omega)).trans most)
  · by_cases inside : slot keys k < keys.length
    · exact .inr (least.trans (slot_at inside).le)
    · exact .inl (by omega)

section Scans
variable {t t' : BTree} {d : Nat} {x : Extent Key Bytes PageRef} {xs : List (Extent Key Bytes PageRef)}

omit [Digest] in
private theorem mapM_filter_chain {f : PageRef × Nat → Except ChainError (List Key)} (chain : Chain P lo hi ks rs xs)
    (ran : (rs.zipIdx n).mapM f = .ok outs)
    (each : ∀ i c y out, rs[i]? = some c → xs[i]? = some y → f (c, n + i) = .ok out →
    out = (y.entries.map Prod.fst).filter p) :
    outs.flatten = ((Extent.join xs).entries.map Prod.fst).filter p := by
  induction chain generalizing n outs with
  | last only =>
    rw [List.zipIdx_cons, List.zipIdx_nil, List.mapM_cons] at ran
    obtain ⟨out, here, rest⟩ := except_bind_ok ran
    cases rest
    simpa using each 0 _ _ out rfl rfl here
  | cons head above below tail ih =>
    rw [List.zipIdx_cons, List.mapM_cons] at ran
    obtain ⟨out, here, rest⟩ := except_bind_ok ran
    obtain ⟨later, ranLater, done⟩ := except_bind_ok rest
    cases done
    have front := each 0 _ _ out rfl rfl here
    have back := ih ranLater fun i c y out edge place run =>
      each (i + 1) c y out edge place (by rwa [show n + (i + 1) = n + 1 + i by omega])
    rw [List.flatten_cons, front, back, Extent.join_cons_entries, List.map_append, List.filter_append]

/-- A scan of an altered file lists the keys of the range whose path it followed. -/
theorem keysPrefixRec_altered (plain : Plain t') (altered : Altered t.disk t'.disk) (holds : Holds t.disk d lo hi r x)
    (ran : t'.keysPrefixRec first last fuel r = .ok out) {p : Key → Bool}
    (picks : ∀ e ∈ x.entries, p e.1 = true ↔ (first ≤ e.1 ∧ e.1 ≤ last) ∧
      Follows t.disk t'.disk (fun keys i => overlaps first last keys i = true) e.1 r) :
    out = (x.entries.map Prod.fst).filter p := by
  induction fuel generalizing d lo hi r x out p with
  | zero => cases ran
  | succ fuel ih =>
    obtain ⟨n, verified, rest⟩ := except_bind_ok ran
    have other : t'.disk r = some n := by rw [← rd_of_plain plain]; exact rd_eq_some.mpr verified
    cases d with
    | zero =>
      obtain ⟨es, read, -, -, rfl⟩ := holds
      have alike := altered _ _ _ read other
      cases n with
      | internal => exact alike.elim
      | leaf fs =>
        cases alike
        cases rest
        apply List.filter_congr
        intro k member
        obtain ⟨e, inside, rfl⟩ := List.mem_map.mp member
        rw [Bool.eq_iff_iff, picks e inside, decide_eq_true_iff]
        exact (and_iff_left (.leaf read)).symm
    | succ d =>
      obtain ⟨rs, ks, xs, read, -, chain, rfl⟩ := holds
      have alike := altered _ _ _ read other
      cases n with
      | leaf => exact alike.elim
      | internal ss js =>
        obtain ⟨rfl, -⟩ := alike
        obtain ⟨outs, scanned, done⟩ := except_bind_ok rest
        cases done
        refine mapM_filter_chain chain scanned fun i c y out edge place here => ?_
        obtain ⟨a, b, y', place', held⟩ := chain.child_at edge
        cases place.symm.trans place'
        have inside (e : Entry) (member : e ∈ y.entries) : e ∈ (Extent.join xs).entries :=
          Extent.mem_join_entries.mpr ⟨y, List.mem_of_getElem? place, member⟩
        -- a key of this child is met exactly if the child is scanned and the key is met there
        have step (e : Entry) (member : e ∈ y.entries) : p e.1 = true ↔ overlaps first last js i = true ∧
            (first ≤ e.1 ∧ e.1 ≤ last) ∧
              Follows t.disk t'.disk (fun keys i => overlaps first last keys i = true) e.1 c := by
          have at_ : slot ks e.1 = i := chain.slot_of_mem place member
          rw [picks e (inside e member), follows_child_iff read other (by rw [at_]; exact edge), at_]
          tauto
        rw [Nat.zero_add] at here
        dsimp only at here
        split at here
        · next meets =>
          exact ih held here fun e member => by
            rw [step e member]
            exact and_iff_right meets
        · next missed =>
          cases here
          symm
          rw [List.filter_eq_nil_iff]
          intro k member
          obtain ⟨e, found, rfl⟩ := List.mem_map.mp member
          exact fun picked => missed ((step e found).mp picked).1

/-- In an unaltered file every key of the range is met. -/
theorem follows_scan (holds : Holds t.disk d lo hi r x) {k : Key} (lower : lo ≤ (k : WithBot Key))
    (upper : (k : WithTop Key) < hi) (least : first ≤ k) (most : k ≤ last) :
    Follows t.disk t.disk (fun keys i => overlaps first last keys i = true) k r := by
  induction d generalizing lo hi r x with
  | zero =>
    obtain ⟨es, read, -⟩ := holds
    exact .leaf read
  | succ d ih =>
    obtain ⟨rs, ks, c, a, b, y, read, edge, held, above, below, -, -⟩ := holds.descend lower upper
    exact .child read read (overlaps_slot ks least most) edge (ih held above below)

omit [Digest] in
private theorem mapM_succeeds {α β : Type} {f : α → Except ChainError β} {as : List α}
    (each : ∀ a ∈ as, ∃ b, f a = .ok b) :
    ∃ bs, as.mapM f = .ok bs := by
  induction as with
  | nil => exact ⟨[], rfl⟩
  | cons a as ih =>
    obtain ⟨b, here⟩ := each a (by simp)
    obtain ⟨bs, later⟩ := ih fun a member => each a (by simp [member])
    exact ⟨b :: bs, by rw [List.mapM_cons, here, later]; rfl⟩

private theorem keysPrefixRec_succeeds (plain : Plain t) (holds : Holds t.disk d lo hi r x) (deep : d < fuel) :
    ∃ out, t.keysPrefixRec first last fuel r = .ok out := by
  induction d generalizing lo hi r x fuel with
  | zero =>
    obtain ⟨fuel, rfl⟩ := Nat.exists_eq_add_of_lt deep
    obtain ⟨es, read, -⟩ := holds
    rw [← rd_of_plain plain] at read
    simp only [keysPrefixRec, rd_eq_some.mp read, bind, Except.bind]
    exact ⟨_, rfl⟩
  | succ d ih =>
    obtain ⟨fuel, rfl⟩ := Nat.exists_eq_add_of_lt deep
    obtain ⟨rs, ks, xs, read, -, chain, rfl⟩ := holds
    rw [← rd_of_plain plain] at read
    obtain ⟨outs, scanned⟩ : ∃ outs, (rs.zipIdx.mapM fun (c, i) =>
        if overlaps first last ks i then t.keysPrefixRec first last (d + 1 + fuel) c else return []) = .ok outs := by
      apply mapM_succeeds
      rintro ⟨c, i⟩ member
      dsimp only
      split
      · obtain ⟨a, b, y, -, held⟩ := chain.member_of_ref (List.fst_mem_of_mem_zipIdx member)
        exact ih held (by omega)
      · exact ⟨[], rfl⟩
    refine ⟨outs.flatten, ?_⟩
    simp only [keysPrefixRec, rd_eq_some.mp read, bind, Except.bind]
    exact congrArg (Except.map List.flatten) scanned

/-- A scan of a well-formed tree lists the keys of the transaction in order. -/
theorem Rooted.keysWithTxidPrefix (rooted : Rooted t d x) (plain : Plain t) (txid : Hash) : t.keysWithTxidPrefix txid =
      .ok ((x.entries.map Prod.fst).filter fun k => firstKey txid ≤ k ∧ k ≤ lastKey txid) := by
  obtain ⟨out, ran⟩ : ∃ out, t.keysPrefixRec (firstKey txid) (lastKey txid) t.maxDepth t.root = .ok out :=
    keysPrefixRec_succeeds plain rooted.holds rooted.depth.1
  have same : Altered t.disk t.disk := fun r n n' read other => by
    cases read.symm.trans other
    cases n with
    | leaf => rfl
    | internal => exact ⟨rfl, rfl⟩
  rw [BTree.keysWithTxidPrefix, ran, keysPrefixRec_altered plain same rooted.holds ran]
  intro e member
  rw [decide_eq_true_iff]
  exact ⟨fun range => ⟨range, follows_scan rooted.holds bot_le (WithTop.coe_lt_top _) range.1 range.2⟩, And.left⟩

/-! ## Lookups in an altered file -/

/-- The altered separators lead a search for `k` down its path. -/
def RoutedAlike (t t' : BTree) (k : Key) : Prop := Follows t.disk t'.disk (fun keys i => slot keys k = i) k t.root

/-- The altered separators lead a scan for `txid` down the path of `k`. -/
def ScannedAlike (t t' : BTree) (txid : Hash) (k : Key) : Prop :=
  Follows t.disk t'.disk (fun keys i => overlaps (firstKey txid) (lastKey txid) keys i = true) k t.root

/-- An answer read from an altered file under the same root reference is the original answer
exactly if the altered separators lead to every present key it depends on. -/
theorem answers_alike_iff {m : Key → Option Bytes} (written : Represents t m) (plain' : Plain t')
    (root : t'.root = t.root)
    (free : CollisionFree t t') :
    (∀ k answer, t'.get k = .ok answer → (t.get k = .ok answer ↔ m k = none ∨ RoutedAlike t t' k)) ∧
    ∀ txid keys, t'.keysWithTxidPrefix txid = .ok keys → (t.keysWithTxidPrefix txid = .ok keys ↔
      ∀ k, firstKey txid ≤ k → k ≤ lastKey txid → m k ≠ none → ScannedAlike t t' txid k) := by
  obtain ⟨plain, d, x, rooted, rfl⟩ := written
  constructor
  · intro k answer ran
    rw [BTree.get, root] at ran
    obtain ⟨es, lands, rfl⟩ := getLoop_lands plain' ran
    rw [rooted.get plain k, Except.ok.injEq, eq_comm]
    exact lands.find_iff free.altered rooted.holds bot_le (WithTop.coe_lt_top k)
  · intro txid keys ran
    rw [BTree.keysWithTxidPrefix, root] at ran
    classical
    have listed := keysPrefixRec_altered plain' free.altered rooted.holds ran
      (p := fun k => decide ((firstKey txid ≤ k ∧ k ≤ lastKey txid) ∧ ScannedAlike t t' txid k)) fun e _ => by
        rw [decide_eq_true_iff]
        rfl
    rw [rooted.keysWithTxidPrefix plain txid, Except.ok.injEq, listed]
    constructor
    · intro same k least most present
      obtain ⟨v, found⟩ := Option.ne_none_iff_exists'.mp present
      have member : k ∈ x.entries.map Prod.fst :=
        List.mem_map.mpr ⟨_, (Entries.find_eq_some rooted.holds.sorted).mp found, rfl⟩
      have here : k ∈ (x.entries.map Prod.fst).filter fun k => firstKey txid ≤ k ∧ k ≤ lastKey txid :=
        List.mem_filter.mpr ⟨member, decide_eq_true ⟨least, most⟩⟩
      rw [same] at here
      exact (of_decide_eq_true (List.mem_filter.mp here).2).2
    · intro met
      apply List.filter_congr
      intro k member
      obtain ⟨e, inside, rfl⟩ := List.mem_map.mp member
      have present : Entries.find x.entries e.1 ≠ none := by
        rw [(Entries.find_eq_some rooted.holds.sorted).mpr inside]
        exact Option.some_ne_none e.2
      rw [decide_eq_decide]
      exact ⟨fun range => ⟨range, met e.1 range.1 range.2 present⟩, And.left⟩

end Scans

end Digests

/-! ## One altered separator -/

section Split
variable [Digest] (v : Bytes)

abbrev splitTree (sep : Key) : BTree := cutTree v highKey sep

variable {v}

section Steps
variable {t : BTree}

private theorem getLoop_leaf (read : t.rd r = some (.leaf es)) :
    t.getLoop k (fuel + 1) r = .ok (Entries.find es k) := by
  rw [getLoop, rd_eq_some.mp read]
  rfl

private theorem getLoop_internal (read : t.rd r = some (.internal cs ks)) :
    t.getLoop k (fuel + 1) r = t.getLoop k fuel (childAt cs (slot ks k)) := by
  rw [getLoop, rd_eq_some.mp read]
  rfl

private theorem keysPrefixRec_leaf (read : t.rd r = some (.leaf es)) :
    t.keysPrefixRec first last (fuel + 1) r = .ok ((es.map Prod.fst).filter fun k => first ≤ k ∧ k ≤ last) := by
  rw [keysPrefixRec, rd_eq_some.mp read]
  rfl

private theorem keysPrefixRec_two (read : t.rd r = some (.internal [one, two] [sep]))
    (met : overlaps first last [sep] 0 = true) (missed : overlaps first last [sep] 1 = false) :
    t.keysPrefixRec first last (fuel + 1) r = t.keysPrefixRec first last fuel one := by
  rw [keysPrefixRec, rd_eq_some.mp read]
  show Except.bind (List.mapM _ [(one, 0), (two, 1)]) _ = _
  rw [List.mapM_cons, List.mapM_cons]
  dsimp only
  rw [if_pos met, if_neg (by simp [missed])]
  cases t.keysPrefixRec first last fuel one with
  | ok keys => simp [bind, Except.bind, pure, Except.pure]
  | error e => rfl

end Steps

variable (wide : v.length = 4050)
include wide

omit wide in
private theorem splitTree_plain (sep : Key) : Plain (splitTree v sep) := fun _ => rfl

omit wide in
/-- The separator is not hashed. -/
theorem splitTree_root (one two : Key) : (splitTree v one).root = (splitTree v two).root := rfl

private theorem splitTree_run : ∃ m, Run 16 [] (splitTree v highKey) m ∧ m highKey = some [] := by
  obtain ⟨⟨⟩, _, one, rfl⟩ := Ends.returns (put_low (low_fits wide))
  obtain ⟨⟨⟩, _, two, rfl⟩ := Ends.returns (put_side wide (k := highKey) rfl)
  exact ⟨_, .put (.put .create one) two, Function.update_self ..⟩

omit wide in
/-- Files that differ in the separator only hash the same messages. -/
theorem splitTree_collisionFree (one two : Key) : CollisionFree (splitTree v one) (splitTree v two) := by
  intro id n n' decoded decoded' _
  by_cases root : id = 4
  · subst root
    have page_root (sep : Key) : decodeNode ((splitTree v sep).pages 4) = .ok (twoLeaves v highKey sep) := by
      rw [show (splitTree v sep).pages 4 = page (twoLeaves v highKey sep) by simp [cutTree]]
      exact decode_encode rfl (encodeNode_of_fits (by simp [nodeSize, twoLeaves, internalSize, pageSize]))
    cases (page_root one).symm.trans decoded
    cases (page_root two).symm.trans decoded'
    rfl
  · have same : (splitTree v two).pages id = (splitTree v one).pages id := by
      simp only [cutTree, Function.update_of_ne root]
    rw [same] at decoded'
    cases decoded.symm.trans decoded'
    rfl

def raisedKey : Key := ByteArr.filled 36 9

def highTxid : Hash := ByteArr.filled 32 2

private theorem raised_get : (splitTree v raisedKey).get highKey = .ok none := by
  obtain ⟨root, low, -⟩ := cutTree_reads wide highKey raisedKey
  have routed : childAt [⟨2, nodeHash (lowLeaf v)⟩, ⟨3, nodeHash (sideLeaf highKey)⟩]
    (slot [raisedKey] highKey) = ⟨2, nodeHash (lowLeaf v)⟩ := by
    rw [show slot [raisedKey] highKey = 0 by decide]
    rfl
  have missing : Entries.find [(lowKey, v)] highKey = none := by
    have apart : lowKey ≠ highKey := by decide
    simp [Entries.find_cons, apart]
  calc (splitTree v raisedKey).get highKey
    _ = (splitTree v raisedKey).getLoop highKey 63 _ := getLoop_internal root
    _ = _ := by rw [routed]
    _ = _ := getLoop_leaf low
    _ = .ok none := by rw [missing]

private theorem raised_scan : (splitTree v raisedKey).keysWithTxidPrefix highTxid = .ok [] := by
  obtain ⟨root, low, -⟩ := cutTree_reads wide highKey raisedKey
  have outside : ([(lowKey, v)].map Prod.fst).filter (fun k => firstKey highTxid ≤ k ∧ k ≤ lastKey highTxid) = [] := by
    show [lowKey].filter _ = []
    decide
  calc (splitTree v raisedKey).keysWithTxidPrefix highTxid
    _ = (splitTree v raisedKey).keysPrefixRec _ _ 5 _ := keysPrefixRec_two root (by decide) (by decide)
    _ = _ := keysPrefixRec_leaf low
    _ = .ok [] := by rw [outside]

end Split

def wideValue : Bytes := List.replicate 4050 7

theorem answers_alike_iff_raised : ∃ m, @Run sha256Digest 16 [] (@splitTree sha256Digest wideValue highKey) m ∧
      (@get sha256Digest (@splitTree sha256Digest wideValue highKey) highKey = .ok none ↔
        m highKey = none ∨ @RoutedAlike sha256Digest (@splitTree sha256Digest wideValue highKey)
          (@splitTree sha256Digest wideValue raisedKey) highKey) := by
  let := sha256Digest
  have wide : wideValue.length = 4050 := List.length_replicate ..
  obtain ⟨m, ran, -⟩ := splitTree_run wide
  refine ⟨m, ran, ?_⟩
  exact (answers_alike_iff (ran.represents (by decide) (by decide)) (splitTree_plain raisedKey) (splitTree_root ..)
    (splitTree_collisionFree highKey raisedKey)).1 highKey none (raised_get wide)

/-- With the separator of the root raised, a key that is present is answered as absent, and a
scan misses it. -/
theorem raised_separator_hides_key :
    ∃ t m t', @Run sha256Digest 16 [] t m ∧ Plain t' ∧ t'.root = t.root ∧ @CollisionFree sha256Digest t t' ∧
      m highKey = some [] ∧ @get sha256Digest t' highKey = .ok none ∧ @get sha256Digest t highKey = .ok (some []) ∧
      @keysWithTxidPrefix sha256Digest t' highTxid = .ok [] ∧ @keysWithTxidPrefix sha256Digest t highTxid ≠ .ok [] := by
  let := sha256Digest
  have wide : wideValue.length = 4050 := List.length_replicate ..
  obtain ⟨m, ran, present⟩ := splitTree_run wide
  have represents := ran.represents (by decide) (by decide)
  refine ⟨splitTree wideValue highKey, m, splitTree wideValue raisedKey, ran, splitTree_plain raisedKey,
    splitTree_root ..,
    splitTree_collisionFree highKey raisedKey, present, raised_get wide, ?_, raised_scan wide, ?_⟩
  · rw [represents.reads.1 highKey, present]
  · obtain ⟨plain, d, x, rooted, rfl⟩ := represents
    rw [rooted.keysWithTxidPrefix plain]
    have member := (Entries.find_eq_some rooted.holds.sorted).mp present
    have listed : highKey ∈ (x.entries.map Prod.fst).filter fun k => firstKey highTxid ≤ k ∧ k ≤ lastKey highTxid :=
      List.mem_filter.mpr ⟨List.mem_map.mpr ⟨_, member, rfl⟩, by decide⟩
    intro nothing
    rw [Except.ok.inj nothing] at listed
    cases listed

end BTree
end Innova.Store3A
