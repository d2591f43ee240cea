import Innova.Store3A.Page
import Innova.Lib.Outcome
import Mathlib.Data.List.AList

/-! The paged copy-on-write tree of `btree.cpp` as a state machine. Programs keep
the tree they fail in, as the C++ object does. Page writes draw their outcome from
`faults`: a failed write may leave anything in its page. -/
namespace Innova.Store3A
open Lib Lib.PagedTree Chainstate

/-- A node edited by the open batch, keyed by its original page id. `n = none`
is the source's node of type 0: not loaded yet, or already emitted. -/
structure OverlayEnt where
  n : Option Node
  dirty : Bool
  done : Bool
  newId : PageId
  newHash : Hash

def OverlayEnt.empty : OverlayEnt := ⟨none, false, false, 0, ByteArr.zero 32⟩

abbrev Overlay := AList fun _ : PageId => OverlayEnt

/-- `BTree`: the file, the root, the overlay and the bookkeeping of pages. -/
structure BTree where
  /-- `tree.dat`, page by page. -/
  pages : PageId → Bytes
  nextId : PageId
  rootId : PageId
  rootHash : Hash
  rootIsLeaf : Bool
  /-- Entry count of a leaf root; `none` is the source's `(size_t)-1`. -/
  rootCount : Option Nat
  overlayOn : Bool
  ov : Overlay
  overlayMax : Nat
  commitRetired : List PageId
  freeList : List PageId
  /-- The file-size limit of `tree.dat` in pages: `pwrite` past it fails with `EFBIG`. -/
  fileLimit : Nat
  /-- Outcomes of the coming page writes: `some junk` fails and leaves `junk` in the page. -/
  faults : List (Option Bytes)
  /-- The pages written since the file was opened, newest first. -/
  writes : List PageId

abbrev TreeM := EStateM ChainError BTree

namespace BTree

def root (t : BTree) : PageRef := ⟨t.rootId, t.rootHash⟩

/-- No page id is reached twice on a walk without a cycle. -/
def maxDepth (t : BTree) : Nat := t.nextId.toNat + 1

/-! ## Reading pages -/

def readPage (t : BTree) (id : PageId) : Except ChainError Bytes :=
  if t.nextId ≤ id then .error (corrupt ("page id out of range " ++ toString id.toNat)) else .ok (t.pages id)

section
variable [Digest]

/-- Reads and decodes a page and checks it against the hash its parent gave. -/
def readAuthentic (t : BTree) (r : PageRef) (mismatch : String) : Except ChainError Node := do
  let buf ← t.readPage r.id
  let n ← decodeNode buf
  if nodeHash n = r.hash then return n else throw (corrupt mismatch)

/-- A node edited in this batch is newer than its page and is served from memory. -/
def overlayNode (t : BTree) (id : PageId) : Option Node :=
  if t.overlayOn then (t.ov.lookup id).bind OverlayEnt.n else none

/-- A node of the overlay, or a page checked against its hash. -/
def readNodeVerified (t : BTree) (r : PageRef) : Except ChainError Node :=
  match t.overlayNode r.id with
  | some n => .ok n
  | none => t.readAuthentic r ("node hash mismatch at page " ++ toString r.id.toNat ++
    " (corrupt/unauthenticated page)")

/-- Child `i`; every node in use has one child more than separators, so `i` is in range. -/
def childAt (children : List PageRef) (i : Nat) : PageRef := children.getD i ⟨0, ByteArr.zero 32⟩

/-- The descent of a lookup. -/
def getLoop (t : BTree) (k : Key) : (guard : Nat) → PageRef → Except ChainError (Option Bytes)
  | 0, _ => .error (corrupt "tree depth exceeded")
  | guard + 1, r => do
    match ← t.readNodeVerified r with
    | .leaf entries => return Entries.find entries k
    | .internal children keys => t.getLoop k guard (childAt children (slot keys k))

def get (t : BTree) (k : Key) : Except ChainError (Option Bytes) := t.getLoop k 64 t.root

/-- The entries below a page, in order. -/
def collectRec (t : BTree) : (fuel : Nat) → PageRef → Except ChainError (List Entry)
  | 0, _ => .error ⟨.internal, "recursion without end"⟩
  | fuel + 1, r => do
    match ← t.readNodeVerified r with
    | .leaf entries => return entries
    | .internal children _ => return (← children.mapM (t.collectRec fuel)).flatten

def collectAll (t : BTree) : Except ChainError (List Entry) := t.collectRec t.maxDepth t.root

end

/-! ## Writing pages -/

/-- One `pwrite` of a whole page. -/
def writePage (id : PageId) (buf : Bytes) (onFault : String) : TreeM Unit := fun t =>
  if t.fileLimit ≤ id.toNat then .error ⟨.io, onFault⟩ t
  else match t.faults with
    | some junk :: rest =>
      .error ⟨.io, onFault⟩
        { t with pages := Function.update t.pages id junk, faults := rest, writes := id :: t.writes }
    | _ => .ok () { t with pages := Function.update t.pages id buf, faults := t.faults.tail, writes := id :: t.writes }

/-- Prefers a reusable page; otherwise grows the file by one page. -/
def appendPage (buf : Bytes) : TreeM PageId := do
  let t ← EStateM.get
  match t.freeList with
  | id :: rest =>
    EStateM.set { t with freeList := rest }
    writePage id buf "reuse page"
    return id
  | [] =>
    let id := t.nextId
    writePage id buf "append page"
    EStateM.modifyGet fun t => (id, { t with nextId := t.nextId + 1 })

/-- Appends a node already known to fit a page. -/
def appendNode (n : Node) : TreeM PageId := appendPage ((encodeNode n).getD [])

/-- The page is not needed once the next generation is acknowledged. -/
def retire (id : PageId) : TreeM Unit := fun t => .ok () { t with commitRetired := t.commitRetired ++ [id] }

def setRootRef (r : PageRef) : TreeM Unit := fun t => .ok () { t with rootId := r.id, rootHash := r.hash }

section
variable [Digest]

def read (r : PageRef) : TreeM Node := fun t =>
  match t.readNodeVerified r with
  | .ok n => .ok n t
  | .error e => .error e t

/-- Moves the root to a page that can be read. -/
def setRoot (r : PageRef) : TreeM Unit := do
  let n ← read r
  EStateM.modifyGet fun t => ((), { t with
    rootId := r.id, rootHash := r.hash
    rootIsLeaf := match n with | .leaf _ => true | .internal .. => false
    rootCount := match n with | .leaf entries => some entries.length | .internal .. => none })

/-- A right sibling a rewrite produced, with the separator before it. -/
abbrev Split := Option (Key × PageRef)

/-- Two pages, with the first key of the second as separator. -/
def splitLeaf (old : PageId) (entries : List Entry) : TreeM (PageRef × Split) := do
  let left := entries.take (entries.length / 2)
  let right := entries.drop (entries.length / 2)
  match right with
  | [] => throw ⟨.internal, "leaf split empty right"⟩
  | first :: _ =>
    match encodeNode (.leaf left), encodeNode (.leaf right) with
    | some lb, some rb =>
      retire old
      let lid ← appendPage lb
      let rid ← appendPage rb
      return (⟨lid, leafHash left⟩, some (first.1, ⟨rid, leafHash right⟩))
    | _, _ => throw ⟨.internal, "leaf split overflow"⟩

/-- A changed leaf goes to a new page, or to two. -/
def rewriteLeaf (old : PageId) (entries : List Entry) : TreeM (PageRef × Split) :=
  if leafSize entries ≤ pageSize then do
    retire old
    let nid ← appendNode (.leaf entries)
    return (⟨nid, leafHash entries⟩, none)
  else splitLeaf old entries

/-- Two pages; the middle separator moves up. -/
def splitInternal (old : PageId) (children : List PageRef) (keys : List Key) : TreeM (PageRef × Split) := do
  let half := keys.length / 2
  let leftKids := children.take (half + 1)
  let rightKids := children.drop (half + 1)
  let sep := keys.getD half (ByteArr.zero 36)
  match encodeNode (.internal leftKids (keys.take half)), encodeNode (.internal rightKids (keys.drop (half + 1))) with
  | some lb, some rb =>
    retire old
    let lid ← appendPage lb
    let rid ← appendPage rb
    return (⟨lid, internalHash leftKids⟩, some (sep, ⟨rid, internalHash rightKids⟩))
  | _, _ => throw ⟨.internal, "internal split overflow"⟩

/-- A changed internal node goes to a new page, or to two. -/
def rewriteInternal (old : PageId) (children : List PageRef) (keys : List Key) : TreeM (PageRef × Split) :=
  if internalSize children keys ≤ pageSize then do
    retire old
    let nid ← appendNode (.internal children keys)
    return (⟨nid, internalHash children⟩, none)
  else splitInternal old children keys

/-- Puts the rewritten child, and its new sibling if any, in place of child `ci`. -/
def spliceChildren (children : List PageRef) (ci : Nat) (nc : PageRef) (split : Split) : List PageRef :=
  children.take ci ++ (nc :: (split.map Prod.snd).toList) ++ children.drop (ci + 1)

def spliceKeys (keys : List Key) (ci : Nat) (split : Split) : List Key :=
  keys.take ci ++ (split.map Prod.fst).toList ++ keys.drop ci

/-- The leaf after `val` is put at `k`, or `k` is removed. -/
def editEntries (k : Key) (val : Option Bytes) (entries : List Entry) : List Entry :=
  match val with
  | some v => Entries.insert entries k v
  | none => Entries.erase entries k

/-- Copy-on-write update of the path to `k`, children before parents. -/
def modRec (k : Key) (val : Option Bytes) : (fuel : Nat) → PageRef → TreeM (PageRef × Split)
  | 0, _ => throw ⟨.internal, "recursion without end"⟩
  | fuel + 1, r => do
    match ← read r with
    | .leaf entries => rewriteLeaf r.id (editEntries k val entries)
    | .internal children keys =>
      let ci := slot keys k
      let (nc, split) ← modRec k val fuel (childAt children ci)
      rewriteInternal r.id (spliceChildren children ci nc split) (spliceKeys keys ci split)

/-- A new file holding one empty leaf. -/
def create (fileLimit : Nat) (faults : List (Option Bytes)) : BTree where
  pages := Function.update (fun _ => []) 0 ((encodeNode (.leaf [])).getD [])
  nextId := 1
  rootId := 0
  rootHash := leafHash []
  rootIsLeaf := true
  rootCount := some 0
  overlayOn := false
  ov := ∅
  overlayMax := 8192
  commitRetired := []
  freeList := []
  fileLimit := fileLimit
  faults := faults
  writes := [0]

/-- `BTree::put`; a split of the root adds a level. -/
def put (k : Key) (v : Bytes) : TreeM Unit := do
  let t ← EStateM.get
  let (nr, split) ← modRec k (some v) t.maxDepth t.root
  match split with
  | some (sep, right) =>
    match encodeNode (.internal [nr, right] [sep]) with
    | some ob =>
      let rid ← appendPage ob
      setRootRef ⟨rid, internalHash [nr, right]⟩
      EStateM.modifyGet fun t => ((), { t with rootIsLeaf := false })
    | none => throw ⟨.internal, "root overflow"⟩
  | none => setRootRef nr

/-- `BTree::erase`; leaves are never merged. -/
def erase (k : Key) : TreeM Unit := do
  let t ← EStateM.get
  let (nr, split) ← modRec k none t.maxDepth t.root
  match split with
  | some _ => throw ⟨.internal, "erase produced split"⟩
  | none => setRootRef nr

end
end BTree
end Innova.Store3A
