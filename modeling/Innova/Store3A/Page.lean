import Innova.Chainstate.Basic
import Innova.Lib.PagedTree

/-! The page format of the copy-on-write tree (`btree.cpp`, lines 15 to 78): node
sizes, Merkle node hashes, and the page encoder and decoder. A node that fits a
page is read back exactly. -/
namespace Innova.Store3A
open Lib Lib.Bytes Chainstate

def pageSize : Nat := 4096

/-- Outpoint keys, ordered as `memcmp` orders them. -/
abbrev Key := ByteArr 36

abbrev PageId := UInt32

/-- A child as its parent names it: page id and authenticated node hash. -/
structure PageRef where
  id : PageId
  hash : Hash
deriving DecidableEq

abbrev Entry := Key × Bytes

/-- A decoded page. `children` and `chashes` of the source are one list of references. -/
abbrev Node := PagedTree.Node Key Bytes PageRef

def ntLeaf : UInt8 := 1
def ntInternal : UInt8 := 2

/-! ## Sizes and hashes -/

/-- The bytes of a leaf. -/
def leafSize (entries : List Entry) : Nat := 4 + (entries.map fun e => 36 + 2 + e.2.length).sum

/-- The bytes of an internal node. -/
def internalSize (children : List PageRef) (keys : List Key) : Nat := 4 + children.length * (4 + 32) + keys.length * 36

section Hashes
variable [Digest]

/-- The hash of a leaf: its entries, domain-separated. -/
def leafHash (entries : List Entry) : Hash :=
  Digest.sha256 (ntLeaf :: entries.flatMap fun e => e.1.val ++ le 4 e.2.length ++ e.2)

/-- Covers the child references only; the separators are not hashed. -/
def internalHash (children : List PageRef) : Hash :=
  Digest.sha256 (ntInternal :: children.flatMap fun c => le 4 c.id.toNat ++ c.hash.val)

/-- The hash a parent holds of a node. -/
def nodeHash : Node → Hash
  | .leaf entries => leafHash entries
  | .internal children _ => internalHash children

end Hashes

/-! ## Encoding -/

def entryBytes (e : Entry) : Bytes := e.1.val ++ le 2 e.2.length ++ e.2

def childBytes (c : PageRef) : Bytes := le 4 c.id.toNat ++ c.hash.val

/-- The page image before its zero fill. -/
def nodeBytes : Node → Bytes
  | .leaf entries => ntLeaf :: (le 2 entries.length ++ 0 :: entries.flatMap entryBytes)
  | .internal children keys =>
    ntInternal :: (le 2 keys.length ++ 0 :: (children.flatMap childBytes ++ keys.flatMap Subtype.val))

def nodeSize : Node → Nat
  | .leaf entries => leafSize entries
  | .internal children keys => internalSize children keys

/-- Writes a node into a zero-filled page; `none` if it does not fit. -/
def encodeNode (n : Node) : Option Bytes :=
  if nodeSize n > pageSize then none
  else some (nodeBytes n ++ List.replicate (pageSize - (nodeBytes n).length) 0)

/-! ## Decoding -/

def corrupt (msg : String) : ChainError := ⟨.corrupt, msg⟩

/-- The entries of a leaf. -/
def decodeEntries (buf : Bytes) : (cnt off : Nat) → Except ChainError (List Entry)
  | 0, _ => .ok []
  | cnt + 1, off =>
    if off + 36 + 2 > pageSize then .error (corrupt "leaf key truncated")
    else
      let vl := toNat (slice buf (off + 36) 2)
      if off + 38 + vl > pageSize then .error (corrupt "leaf val truncated")
      else do
        let rest ← decodeEntries buf cnt (off + 38 + vl)
        return (ByteArr.read 36 buf off, slice buf (off + 38) vl) :: rest

def decodeChildren (buf : Bytes) : (cnt off : Nat) → Except ChainError (List PageRef × Nat)
  | 0, off => .ok ([], off)
  | cnt + 1, off =>
    if off + 36 > pageSize then .error (corrupt "internal child truncated")
    else do
      let (rest, stop) ← decodeChildren buf cnt (off + 36)
      return (⟨UInt32.ofNat (toNat (slice buf off 4)), ByteArr.read 32 buf (off + 4)⟩ :: rest, stop)

def decodeKeys (buf : Bytes) : (cnt off : Nat) → Except ChainError (List Key)
  | 0, _ => .ok []
  | cnt + 1, off =>
    if off + 36 > pageSize then .error (corrupt "internal key truncated")
    else do
      let rest ← decodeKeys buf cnt (off + 36)
      return ByteArr.read 36 buf off :: rest

/-- Reads a page. -/
def decodeNode (buf : Bytes) : Except ChainError Node :=
  let t := buf.headD 0
  let cnt := toNat (slice buf 1 2)
  if t = ntLeaf then do
    return .leaf (← decodeEntries buf cnt 4)
  else if t = ntInternal then do
    let (children, off) ← decodeChildren buf (cnt + 1) 4
    return .internal children (← decodeKeys buf cnt off)
  else .error (corrupt "unknown node type")

/-! ## Round trip -/

/-- An internal node has one child more than it has separators. -/
def Shaped : Node → Prop
  | .leaf _ => True
  | .internal children keys => children.length = keys.length + 1

private theorem entryBytes_length (e : Entry) : (entryBytes e).length = 38 + e.2.length := by
  simp only [entryBytes, List.length_append, le_length, e.1.property]

private theorem entries_length (entries : List Entry) : 4 + (entries.flatMap entryBytes).length = leafSize entries := by
  induction entries with
  | nil => rfl
  | cons e entries ih =>
    simp only [leafSize, List.flatMap_cons, List.length_append, entryBytes_length, List.map_cons, List.sum_cons] at ih ⊢
    omega

private theorem childBytes_length (c : PageRef) : (childBytes c).length = 36 := by
  simp only [childBytes, List.length_append, le_length, c.hash.property]

private theorem children_length (children : List PageRef) :
    (children.flatMap childBytes).length = children.length * 36 := by
  induction children with
  | nil => rfl
  | cons c children ih =>
    simp only [List.flatMap_cons, List.length_append, childBytes_length, ih, List.length_cons]
    omega

private theorem decodeEntries_laid (laid : Laid buf off (entries.flatMap entryBytes))
    (fits : off + (entries.flatMap entryBytes).length ≤ pageSize) :
    decodeEntries buf entries.length off = .ok entries := by
  induction entries generalizing off with
  | nil => rfl
  | cons e entries ih =>
    obtain ⟨first, rest⟩ := laid_append.mp (by simpa only [List.flatMap_cons] using laid)
    obtain ⟨front, val⟩ := laid_append.mp first
    obtain ⟨key, size⟩ := laid_append.mp front
    simp only [List.flatMap_cons, List.length_append, entryBytes_length, le_length, e.1.property] at fits rest val size
    have small : e.2.length < 256 ^ 2 := by unfold pageSize at fits; omega
    have width : toNat (slice buf (off + 36) 2) = e.2.length := size.toNat small
    have body : slice buf (off + 38) e.2.length = e.2 := by simpa [Nat.add_assoc] using val.slice
    have tail := ih rest (by omega)
    rw [List.length_cons, decodeEntries, if_neg (by omega), width, if_neg (by omega),
      show off + 38 + e.2.length = off + (38 + e.2.length) by omega, tail, body, ByteArr.read_laid key]
    rfl

private theorem decodeChildren_laid (laid : Laid buf off (children.flatMap childBytes))
    (fits : off + children.length * 36 ≤ pageSize) :
    decodeChildren buf children.length off = .ok (children, off + children.length * 36) := by
  induction children generalizing off with
  | nil => rfl
  | cons c children ih =>
    obtain ⟨first, rest⟩ := laid_append.mp (by simpa only [List.flatMap_cons] using laid)
    obtain ⟨id, hash⟩ := laid_append.mp first
    simp only [List.length_cons, childBytes_length, le_length] at fits rest hash
    have pageId : UInt32.ofNat (toNat (slice buf off 4)) = c.id := by
      rw [id.toNat c.id.toNat_lt, UInt32.ofNat_toNat]
    rw [List.length_cons, decodeChildren, if_neg (by omega), ih rest (by omega), pageId, ByteArr.read_laid hash]
    simp only [Except.bind, bind, pure, Except.pure, Except.ok.injEq, Prod.mk.injEq, true_and]
    omega

private theorem decodeKeys_laid (laid : Laid buf off (keys.flatMap Subtype.val))
    (fits : off + keys.length * 36 ≤ pageSize) :
    decodeKeys buf keys.length off = .ok keys := by
  induction keys generalizing off with
  | nil => rfl
  | cons k keys ih =>
    obtain ⟨key, rest⟩ := laid_append.mp (by simpa only [List.flatMap_cons] using laid)
    simp only [List.length_cons, k.property] at fits rest
    rw [List.length_cons, decodeKeys, if_neg (by omega), ih rest (by omega), ByteArr.read_laid key]
    rfl

private theorem tag_and_count (tag : UInt8) (body post : Bytes) (small : cnt < 256 ^ 2) :
    (tag :: (le 2 cnt ++ 0 :: body) ++ post).headD 0 = tag ∧
    toNat (slice (tag :: (le 2 cnt ++ 0 :: body) ++ post) 1 2) = cnt ∧
      Laid (tag :: (le 2 cnt ++ 0 :: body) ++ post) 4 body := by
  refine ⟨rfl, ?_, ⟨tag :: (le 2 cnt ++ [0]), post, by simp, by simp⟩⟩
  have count : Laid (tag :: (le 2 cnt ++ 0 :: body) ++ post) 1 (le 2 cnt) := ⟨[tag], 0 :: body ++ post, by simp, rfl⟩
  exact count.toNat small

private theorem length_le_leafSize (entries : List Entry) : entries.length ≤ leafSize entries := by
  induction entries with
  | nil => simp
  | cons e entries ih => simp only [leafSize, List.length_cons, List.map_cons, List.sum_cons] at ih ⊢; omega

/-- Whatever follows the node's bytes in the page is ignored. -/
theorem decode_nodeBytes (shaped : Shaped n) (fits : nodeSize n ≤ pageSize) (post : Bytes) :
    decodeNode (nodeBytes n ++ post) = .ok n := by
  cases n with
  | leaf entries =>
    have size := entries_length entries
    have count := length_le_leafSize entries
    simp only [nodeSize, pageSize] at fits
    obtain ⟨tag, count, laid⟩ := tag_and_count ntLeaf (entries.flatMap entryBytes) post
      (show entries.length < 256 ^ 2 by omega)
    rw [decodeNode, nodeBytes, count, decodeEntries_laid laid (by unfold pageSize; omega)]
    rfl
  | internal children keys =>
    simp only [nodeSize, internalSize, pageSize] at fits
    have wide : children.length = keys.length + 1 := shaped
    obtain ⟨tag, count, laid⟩ := tag_and_count ntInternal (children.flatMap childBytes ++ keys.flatMap Subtype.val) post
      (show keys.length < 256 ^ 2 by omega)
    obtain ⟨kids, seps⟩ := laid_append.mp laid
    rw [children_length] at seps
    rw [decodeNode, nodeBytes, tag, if_neg (by decide), if_pos rfl, count, ← wide,
      decodeChildren_laid kids (by unfold pageSize; omega)]
    simp only [bind, Except.bind]
    rw [decodeKeys_laid seps (by unfold pageSize; omega)]
    rfl

/-- A node that fits a page is read back exactly. -/
theorem decode_encode (shaped : Shaped n) (encoded : encodeNode n = some buf) : decodeNode buf = .ok n := by
  unfold encodeNode at encoded
  split at encoded
  · cases encoded
  next fits =>
    cases encoded
    exact decode_nodeBytes shaped (by omega) _

end Innova.Store3A
