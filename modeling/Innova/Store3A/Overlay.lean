import Innova.Store3A.BTree
import Mathlib.Data.List.Dedup
import Mathlib.Data.List.Sort

/-! The batch overlay (`btree.cpp`, lines 267 to 427). A batch edits nodes in memory
under their original page ids; finalizing writes every edited node once, children
before parents, and only then moves the root. -/
namespace Innova.Store3A
open Lib Lib.PagedTree Chainstate

namespace BTree

/-- `ov_[id]`. -/
def ovEnt (t : BTree) (id : PageId) : OverlayEnt := (t.ov.lookup id).getD .empty

def withEnt (t : BTree) (id : PageId) (ent : OverlayEnt) : BTree := { t with ov := t.ov.insert id ent }

def setEnt (id : PageId) (ent : OverlayEnt) : TreeM Unit := fun t => .ok () (t.withEnt id ent)

/-- From here on changes stay in memory. -/
def beginOverlay (t : BTree) : BTree := { t with overlayOn := true }

/-- Drops them. -/
def abortOverlay (t : BTree) : BTree := { t with ov := ∅, overlayOn := false }

def overlayOverflow (t : BTree) : Bool := t.overlayMax ≤ t.ov.entries.length

def isDirty (ov : Overlay) (id : PageId) : Bool := ((ov.lookup id).map OverlayEnt.dirty).getD false

section
variable [Digest]

/-- Loads a node into the overlay unless it is there. Callers discard the overlay
when this fails, so a failed load leaves the entry as it was. -/
def loadOverlay (r : PageRef) : TreeM Node := fun t =>
  match (t.ovEnt r.id).n with
  | some n => .ok n t
  | none =>
    match t.readAuthentic r ("overlay: page " ++ toString r.id.toNat ++ " fails authentication") with
    | .ok n => .ok n (t.withEnt r.id { t.ovEnt r.id with n := some n })
    | .error e => .error e (t.withEnt r.id (t.ovEnt r.id))

def setNode (id : PageId) (n : Node) : TreeM Unit := fun t => setEnt id { t.ovEnt id with n := some n } t

def markDirty : List PageId → TreeM Unit
  | [] => pure ()
  | id :: rest => do
    let t ← EStateM.get
    setEnt id { t.ovEnt id with dirty := true }
    markDirty rest

/-- The descent both overlay operations make: loads the nodes on the way to `k` and
runs `act` at the leaf, with the ids passed, the leaf's own last. -/
def overlayDescend {α : Type} (k : Key) (act : PageId → List Entry → List PageId → TreeM α) :
    (guard : Nat) → (path : List PageId) → PageRef → TreeM α
  | 0, _, _ => throw (corrupt "overlay: tree depth exceeded")
  | guard + 1, path, r => do
    match ← loadOverlay r with
    | .leaf entries => act r.id entries (path ++ [r.id])
    | .internal children keys => overlayDescend k act guard (path ++ [r.id]) (childAt children (slot keys k))

/-- The size the leaf is expected to grow to. A present key counts as no growth, also
when its new value is longer; that is caught after the edit. -/
def prospective (entries : List Entry) (k : Key) (v : Bytes) : Nat :=
  leafSize entries + if Entries.present entries k then 0 else 38 + v.length

/-- `overlayPut` at its leaf; a leaf that would split asks for a finalize. -/
def overlayPutAt (k : Key) (v : Bytes) (id : PageId) (entries : List Entry) (path : List PageId) : TreeM Bool :=
  if prospective entries k v > pageSize then return true
  else do
    setNode id (.leaf (Entries.insert entries k v))
    if leafSize (Entries.insert entries k v) > pageSize then throw ⟨.internal, "overlay: leaf overflow after pre-check"⟩
    else do
      markDirty path
      return false

/-- Answers `needFinalize`: the leaf would overflow and nothing was edited, so that
the caller finalizes and applies the operation to the pages. -/
def overlayPut (k : Key) (v : Bytes) : TreeM Bool := do
  let t ← EStateM.get
  overlayDescend k (overlayPutAt k v) 64 [] t.root

/-- `overlayErase` at its leaf. -/
def overlayEraseAt (k : Key) (id : PageId) (entries : List Entry) (path : List PageId) : TreeM Unit :=
  if Entries.present entries k then do
    setNode id (.leaf (Entries.erase entries k))
    markDirty path
  else return

/-- Removing a key never overflows a leaf, so `needFinalize` stays false. -/
def overlayErase (k : Key) : TreeM Unit := do
  let t ← EStateM.get
  overlayDescend k (overlayEraseAt k) 64 [] t.root

end

/-! ## Finalizing -/

/-- A child is entered when it is dirty and was not entered before. The pair holds the
ids entered so far and the emission order so far. -/
def enter (ov : Overlay) (go : PageId → List PageId × List PageId → List PageId × List PageId)
    (acc : List PageId × List PageId) (c : PageRef) : List PageId × List PageId :=
  if isDirty ov c.id && !acc.1.contains c.id then go c.id (c.id :: acc.1, acc.2) else acc

/-- Extends the emission order by the dirty nodes below `id`, children first. The source
walks with an explicit stack; a node is entered once, so that the walk is never deeper
than the file has pages. -/
def visit (ov : Overlay) : (fuel : Nat) → PageId → List PageId × List PageId → List PageId × List PageId
  | 0, _, acc => acc
  | fuel + 1, id, acc =>
    match ov.lookup id with
    | none => acc
    | some ent =>
      let below := match ent.n with
        | some (.internal children _) => children.foldl (enter ov (visit ov fuel)) acc
        | _ => acc
      (below.1, below.2 ++ [id])

/-- A child that was emitted is named by its new page. -/
def relink (ov : Overlay) (c : PageRef) : PageRef :=
  match ov.lookup c.id with
  | some ent => if ent.done then ⟨ent.newId, ent.newHash⟩ else c
  | none => c

def finalNode (ov : Overlay) (ent : OverlayEnt) : Node :=
  match ent.n with
  | some (.leaf entries) => .leaf entries
  | some (.internal children keys) => .internal (children.map (relink ov)) keys
  | none => .internal [] []

section
variable [Digest]

/-- Writes a changed node under a new page. -/
def emit (id : PageId) : TreeM Unit := do
  let t ← EStateM.get
  let ent := t.ovEnt id
  if ent.dirty && !ent.done then
    let n := finalNode t.ov ent
    match encodeNode n with
    | none => throw ⟨.internal, "overlay: page overflow"⟩
    | some ob =>
      let nid ← appendPage ob
      retire id
      setEnt id { ent with n := none, done := true, newId := nid, newHash := nodeHash n }

def emitAll : List PageId → TreeM Unit
  | [] => pure ()
  | id :: rest => do
    emit id
    emitAll rest

/-- Writes the changed nodes, children first, and moves the root. -/
def finalizeOverlay : TreeM Unit := fun t =>
  if !t.overlayOn then .ok () t
  else if !isDirty t.ov t.rootId then .ok () t.abortOverlay
  else
    match emitAll (visit t.ov t.maxDepth t.rootId ([t.rootId], [])).2 t with
    | .error e m => .error e m.abortOverlay
    | .ok _ m =>
      let root := m.ovEnt t.rootId
      if root.done then .ok () { m.abortOverlay with rootId := root.newId, rootHash := root.newHash }
      else .error ⟨.internal, "overlay: root not finalized"⟩ m.abortOverlay

end

/-! ## Retired pages -/

/-- Sorted and without duplicates, as the source leaves `commitRetired_`. -/
def sortUnique (ids : List PageId) : List PageId := (ids.insertionSort (· ≤ ·)).dedup

/-- Once a generation is acknowledged its retired pages are free. -/
def retireMovedToFree (t : BTree) : BTree :=
  { t with freeList := t.freeList ++ sortUnique t.commitRetired, commitRetired := [] }

def clearRetired (t : BTree) : BTree := { t with commitRetired := [] }

end BTree
end Innova.Store3A
