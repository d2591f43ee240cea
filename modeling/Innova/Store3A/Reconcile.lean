import Innova.BlockIndex.BlockTree
import Innova.Chainstate.Observe
import Innova.Store3A.Commits

/-! Startup reconciliation of the coin store with the active chain (`main.cpp`,
`ReconcileStore3AToChain`), over the committed states of the store: it unwinds block by block while it is
higher than the chain, and replays the active blocks above it in batches. The calls of the open store are
connected with `Committed.disconnect` and `Committed.publishBatch` by `disconnect_commits` and
`publishBatch_commits`. -/
namespace Innova.Store3A
open Lib Chainstate BlockIndex

/-- `get`; `none` when the stored bytes are no coin. -/
def Committed.get (c : Committed) (k : OutPoint) : Option (Option Coin) :=
  match c.coins k.keyBytes with
  | none => some none
  | some bytes => (Coin.decode bytes bytes.length 0).map fun read => some read.1

namespace Reconcile

/-! ## What the reconciliation reads -/

/-- A block read from disk. -/
structure DiskBlock where
  hash : Hash
  hashPrev : Hash
  txs : List ObservedTx

/-- The committed tip, the active block at a height, any record by its hash, and the block files. -/
structure ChainView where
  tipHeight : Int
  tipHash : Hash
  activeAt : Int → Option BlockIndex.Record
  byHash : Hash → Option BlockIndex.Record
  read : BlockIndex.Record → Option DiskBlock

/-- `uint256::GetHex`: the last byte first. -/
def getHex (h : Hash) : String :=
  String.ofList (h.val.reverse.flatMap fun b => [Nat.digitChar (b.toNat / 16), Nat.digitChar (b.toNat % 16)])

def errName : ErrCode → String
  | .ok => "OK" | .dupOutpoint => "DUP_OUTPOINT" | .missingInput => "MISSING_INPUT" | .immature => "IMMATURE"
  | .negativeSpend => "NEGATIVE_SPEND" | .valueRange => "VALUE_RANGE" | .valueOverflow => "VALUE_OVERFLOW"
  | .badSerialize => "BAD_SERIALIZE" | .io => "IO" | .fs => "FS" | .noSpace => "NO_SPACE" | .corrupt => "CORRUPT"
  | .unknownVersion => "UNKNOWN_VERSION" | .locked => "LOCKED" | .alreadyOpen => "ALREADY_OPEN" | .notOpen => "NOT_OPEN"
  | .notFound => "NOT_FOUND" | .internal => "INTERNAL"

/-- `ChainError::str`. -/
def errText (e : ChainError) : String := errName e.code ++ if e.msg.isEmpty then "" else ": " ++ e.msg

variable (v : ChainView)

/-- `s16_ResolveReplayBlock`. -/
def resolveReplayBlock (height : Int) : Except String (Hash × DiskBlock) :=
  match v.activeAt height with
  | none => .error ("authoritative replay resolve failed at h=" ++ toString height ++
    " (no active block at this height)")
  | some r =>
    if r.height ≠ height then
      .error ("authoritative replay resolve failed at h=" ++ toString height ++ " (no active block at this height)")
    else
      match v.read r with
      | none =>
        .error ("cannot read the active block " ++ getHex r.hash ++ " at h=" ++ toString height ++ " (file=" ++
          toString r.nFile ++ " pos=" ++ toString r.nBlockPos ++ ")")
      | some blk =>
        if blk.hash ≠ r.hash then
          .error ("active block hash mismatch at h=" ++ toString height ++ " (index=" ++ getHex r.hash ++ " read=" ++
            getHex blk.hash ++ ")")
        else .ok (r.hash, blk)

/-- `s16_ResolveReplayParent`. -/
def resolveReplayParent (hash : Hash) (height : Int) : Except String Hash :=
  match v.byHash hash with
  | none => .error ("store tip " ++ getHex hash ++ " at h=" ++ toString height ++ " cannot be resolved by value ()")
  | some r =>
    if r.height ≠ height then
      .error ("store tip " ++ getHex hash ++ " resolved at h=" ++ toString r.height ++ ", not at the store height h=" ++
        toString height)
    else if r.hashPrev = ByteArr.zero 32 then .error "cannot unwind the genesis block"
    else .ok r.hashPrev

/-! ## Unwinding -/

/-- The first loop, with `left` turns before the store is no higher than the chain. -/
def unwind : (left : Nat) → Committed → Except String Committed
  | 0, c => .ok c
  | left + 1, c =>
    match resolveReplayParent v c.blockHash c.tipHeight.toInt with
    | .error e => .error e
    | .ok parent =>
      match c.disconnect c.blockHash parent with
      | .error e => .error ("disconnect h=" ++ toString c.tipHeight.toInt ++ ": " ++ errText e)
      | .ok c => unwind left c

/-! ## Replaying -/

/-- The state of the second loop. The overlay holds the transactions replayed so far, the newest
first, with the heights of their blocks. -/
structure Replay where
  store : Committed
  batch : List Store.BatchBlock := []
  overlay : List (ObservedTx × Int32) := []
  prevApplied : Option Hash

/-- The coin an input spends: from the store, or from the overlay when the store does not have it. -/
def getPrevCoin (c : Committed) (overlay : List (ObservedTx × Int32)) (k : OutPoint) : Option Coin :=
  match c.get k with
  | none => none
  | some (some coin) => some coin
  | some none =>
    match overlay.find? fun e => e.1.txid = k.txid with
    | none => none
    | some (tx, height) => (tx.vout[k.n.toNat]?).map fun out => coinFor tx out height

/-- Blocks published together. -/
def replayBatch : Nat := 2000

/-- The batch goes out once it is full. -/
def Replay.push (s : Replay) (b : Store.BatchBlock) : Replay :=
  let batch := s.batch ++ [b]
  if replayBatch ≤ batch.length then { s with store := s.store.publishBatch batch, batch := [] } else { s with batch }

def replayStep (s : Replay) (height : Int) : Except String Replay :=
  match resolveReplayBlock v height with
  | .error e => .error e
  | .ok (hash, blk) =>
    if s.prevApplied.any (· ≠ blk.hashPrev) then
      .error ("replay discontinuity at h=" ++ toString height ++ ": store tip " ++
        getHex (s.prevApplied.getD (ByteArr.zero 32)) ++ " is not the parent of " ++ getHex hash)
    else
      match ObservedBlock.observeDelta ⟨Int32.ofInt height, blk.txs⟩ (getPrevCoin s.store s.overlay) with
      | .error e => .error ("delta at h=" ++ toString height ++ ": " ++ errText e)
      | .ok d =>
        .ok (Replay.push { s with
            overlay := blk.txs.reverse.map (fun tx => (tx, Int32.ofInt height)) ++ s.overlay
            prevApplied := some hash }
          ⟨d, hash, Int32.ofInt height⟩)

/-- The second loop from `height` on, `left` blocks. -/
def replayFrom : (left : Nat) → (height : Int) → Replay → Except String Replay
  | 0, _, s => .ok s
  | left + 1, height, s =>
    match replayStep v s height with
    | .error e => .error e
    | .ok s => replayFrom left (height + 1) s

/-- An empty store is replayed from height 1: genesis moves no coins. -/
def replay (c : Committed) : Except String Committed :=
  let start := if c.tipHeight.toInt < 0 then 1 else c.tipHeight.toInt + 1
  let prev := if c.tipHeight.toInt < 0 then none else some c.blockHash
  (replayFrom v (v.tipHeight - start + 1).toNat start { store := c, prevApplied := prev }).map fun s =>
    s.store.publishBatch s.batch

/-- `ReconcileStore3AToChain` on an open store; an error is its `false` with a reason. -/
def reconcileStore3AToChain (c : Committed) : Except String Committed :=
  if c.tipHeight.toInt = v.tipHeight ∧ c.blockHash = v.tipHash then .ok c
  else
    match unwind v (c.tipHeight.toInt - v.tipHeight).toNat c with
    | .error e => .error e
    | .ok c =>
      match (if c.tipHeight.toInt < v.tipHeight then replay v c else .ok c) with
      | .error e => .error e
      | .ok c =>
        if c.tipHeight.toInt ≠ v.tipHeight ∨ c.blockHash ≠ v.tipHash then
          .error ("after reconcile store h=" ++ toString c.tipHeight.toInt ++ " " ++
            getHex c.blockHash ++ " != chain h=" ++
            toString v.tipHeight ++ " " ++ getHex v.tipHash)
        else .ok c

end Reconcile
end Innova.Store3A
