import Innova.Chainstate.Delta
import Innova.Store3A.Authenticated

/-! The delta builder over the tree's own pages (`incdelta.h`, `TreeReader`). The reader folds a
failed read into "absent", and the overlay drops the status of a scan, so the builder goes on
where a page could not be read. -/
namespace Innova.Store3A
open Lib Chainstate

namespace BTree
variable [Digest]

/-- One scan after the other, up to the first that fails; its keys count. -/
def scanAll (scan : PageRef × Nat → Bool × List Key) : List (PageRef × Nat) → Bool × List Key
  | [] => (true, [])
  | c :: rest =>
    match scan c with
    | (false, keys) => (false, keys)
    | (true, keys) => ((scanAll scan rest).1, keys ++ (scanAll scan rest).2)

/-- `keysPrefixRec` with the keys it has pushed when it fails. -/
def scanRec (t : BTree) (lo hi : Key) : (fuel : Nat) → PageRef → Bool × List Key
  | 0, _ => (false, [])
  | fuel + 1, r =>
    match t.readNodeVerified r with
    | .error _ => (false, [])
    | .ok (.leaf entries) => (true, (entries.map Prod.fst).filter fun k => lo ≤ k ∧ k ≤ hi)
    | .ok (.internal children keys) =>
      scanAll (fun (c, i) => if overlaps lo hi keys i then t.scanRec lo hi fuel c else (true, [])) children.zipIdx

/-- `TreeReader`. -/
def reader (t : BTree) : UtxoReader where
  get k :=
    match t.get k with
    | .ok (some v) => (Coin.decode v v.length 0).map Prod.fst
    | _ => none
  keysWithTxid txid := t.scanRec (firstKey txid) (lastKey txid) t.maxDepth t.root

end BTree

/-! ## What the builder reads -/

/-- A read of the tree that the builder makes. -/
inductive Read where
  | get (k : Key)
  | scan (txid : Hash)

section Walk
variable (height maturity : Int32)

end Walk

section Tree
variable [Digest] {t : BTree} {height maturity : Int32}

/-- No page of the read was unreadable. -/
def Read.Works (t : BTree) : Read → Prop
  | .get k => ∃ v, t.get k = .ok v
  | .scan txid => (t.reader.keysWithTxid txid).1 = true

/-- The overlay stands on the tree, and every key it knows could be read there. -/
def KnownRead (t : BTree) (w : Work BlockView) : Prop :=
  w.view.base = t.reader ∧ ∀ k b, w.view.present.lookup k = some b → (Read.get k).Works t

private theorem KnownRead.insert (known : KnownRead t w) (works : (Read.get k).Works t) :
    KnownRead t ⟨{ w.view with present := w.view.present.insert k b, coin := coins }, ops⟩ := by
  refine ⟨known.1, fun j b' found => ?_⟩
  by_cases same : j = k
  · rw [same]
    exact works
  · rw [AList.lookup_insert_ne same] at found
    exact known.2 j b' found

/-- The scan for the transaction's id and the lookups of its outputs can be read. Their failure goes
unnoticed in a transaction that passes. -/
def Available (t : BTree) (tx : Tx) : Prop :=
  (∃ keys, t.keysWithTxidPrefix tx.txid = .ok keys) ∧
    ∀ j < tx.vout.length, (Read.get (OutPoint.keyBytes ⟨tx.txid, UInt32.ofNat j⟩)).Works t

end Tree

end Innova.Store3A
