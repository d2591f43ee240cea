import Innova.BlockIndex.BlockTree

/-! The synchronized checkpoint rule outside initial download (`checkpoints.cpp`), once as the pointer
rule on the linked index (`checkSync`) and once by value over the index authority, with its three memos
(`checkSyncByValue`).

The authority is seen at one moment at a time. By hash it serves every accepted block: the generation,
the durable tail and the window of appends that are not published yet. By height it serves the active
blocks up to the durable tip only. -/
namespace Innova.Checkpoints
open Lib Chainstate BlockIndex

/-- The block index, the best chain and the synchronized checkpoint at one moment. -/
structure Moment where
  tree : BlockTree
  best : Record
  has_best : tree.Has best
  /-- The height of the durable tip. Active blocks above it wait in the window. -/
  tipHeight : Int
  hashSyncCheckpoint : Hash

/-! ## The pointer rule -/

/-- The walk over `pprev` down to `height`. A walk takes at most as many steps as the block is high. -/
def traceBack (t : BlockTree) (height : Int) : Nat → Record → Option Record
  | 0, p => if p.height > height then none else some p
  | n + 1, p => if p.height > height then (t.find p.hashPrev).bind (traceBack t height n) else some p

/-- `CheckSync` outside initial download, on a fully linked index. -/
def checkSync (w : Moment) (hashBlock : Hash) (pindexPrev : Record) : Bool :=
  match w.tree.find w.hashSyncCheckpoint with
  | none => false
  | some s =>
    let nHeight := pindexPrev.height + 1
    if nHeight > s.height then
      match traceBack w.tree s.height pindexPrev.height.toNat pindexPrev with
      | none => false
      | some p => !(decide (p.height < s.height) || p.hash != w.hashSyncCheckpoint)
    else if nHeight = s.height then hashBlock == w.hashSyncCheckpoint
    else (w.tree.find hashBlock).isSome

/-! ## The resolvers -/

/-- `AuthoritativeBlockResolutionResult`, with the snapshot where there is one. -/
inductive Resolution where
  | found (snapshot : Record)
  | notActive (snapshot : Record)
  | notFound
  | authorityFailure

/-- `ResolveAuthoritativeBlockSnapshotR`. -/
def resolveBlockSnapshot (w : Moment) (hash : Hash) : Resolution :=
  match w.tree.find hash with
  | none => .notFound
  | some b => if b ∈ w.tree.lineage w.best then .found b else .notActive b

/-- `AuthoritativeGetActiveSnapshotByHeightR`: the generation, then the durable tail. The window of
buffered appends is not asked. -/
def activeSnapshotByHeight (w : Moment) (height : Int) : Resolution :=
  if w.tipHeight < height then .notFound
  else
    match (w.tree.lineage w.best).find? fun b => b.height = height with
    | none => .notFound
    | some b => .found b

/-- The reads one call can make, each at most once. -/
inductive Site where
  | checkpoint
  | record
  | anchor
  | parent
  /-- One step of the ancestry walk, by the steps that are left. -/
  | step (left : Nat)

/-- How a read fails in the storage below. -/
inductive Fault where
  | authority
  /-- The store of the tail cannot be read. -/
  | tail

/-- A read by hash. `Materialize` goes on to the generation when the tail cannot be read, so that a
block of the tail is reported missing. -/
def read (fault : Option Fault) (answer : Resolution) : Resolution :=
  match fault with
  | none => answer
  | some .authority => .authorityFailure
  | some .tail => .notFound

/-- A read by height, where every failure is reported as one. -/
def readActive (fault : Option Fault) (answer : Resolution) : Resolution :=
  if fault.isSome then .authorityFailure else answer

/-! ## The memos -/

/-- `SyncCheckpointMemoEntry`. A negative `syncHeight` of the source is a missing snapshot. -/
structure SyncCheckpointMemo where
  hashCheckpoint : Hash := ByteArr.zero 32
  snapshot : Option Record := none
  resolved : Bool := false
  transientFailure : Bool := false
deriving DecidableEq

/-- `BestExtendsCheckpointMemo`. -/
structure BestExtendsMemo where
  epochCheckpoint : Hash
  bestTip : Hash
  bestExtends : Bool
deriving DecidableEq

/-- What the calls leave to the later ones: `g_syncCheckpointMemo`, `g_bestExtendsMemo` where it is
valid, and `mapDescendantVerdict` with its epoch. -/
structure Memos where
  sync : SyncCheckpointMemo := {}
  best : Option BestExtendsMemo := none
  epoch : Hash := ByteArr.zero 32
  verdicts : List (Hash × Bool) := []
deriving DecidableEq

def descendantVerdictCap : Nat := 8192

/-- `MemoizeDescendantVerdict`, called for a parent without a verdict. -/
def Memos.memoize (m : Memos) (parent : Hash) (verdict : Bool) : Memos :=
  { m with verdicts := (parent, verdict) :: if descendantVerdictCap ≤ m.verdicts.length then [] else m.verdicts }

/-- The verdict memos belong to one checkpoint. -/
def Memos.enter (m : Memos) (hashSyncCheckpoint : Hash) : Memos :=
  if m.epoch = hashSyncCheckpoint then m
  else { m with best := none, epoch := hashSyncCheckpoint, verdicts := [] }

/-- The entry of the best tip memo that answers for this tip. -/
def Memos.bestFor (m : Memos) (hashSyncCheckpoint tip : Hash) : Option BestExtendsMemo :=
  m.best.filter fun e => e.epochCheckpoint == hashSyncCheckpoint && e.bestTip == tip

namespace SyncCheckpointMemo

/-- The entry that one read of the checkpoint leaves. -/
def fill (w : Moment) (fault : Option Fault) : SyncCheckpointMemo :=
  match read fault (resolveBlockSnapshot w w.hashSyncCheckpoint) with
  | .found s | .notActive s => { hashCheckpoint := w.hashSyncCheckpoint, snapshot := some s, resolved := true }
  | .authorityFailure => { hashCheckpoint := w.hashSyncCheckpoint, resolved := true, transientFailure := true }
  | .notFound => { hashCheckpoint := w.hashSyncCheckpoint, resolved := true }

/-- The entry holds no answer for the checkpoint. A transient failure is read again. -/
def stale (w : Moment) (memo : SyncCheckpointMemo) : Bool :=
  let memo :=
    if memo.resolved && memo.hashCheckpoint == w.hashSyncCheckpoint && memo.snapshot.isNone && memo.transientFailure
    then {} else memo
  !memo.resolved || memo.hashCheckpoint != w.hashSyncCheckpoint

/-- `ResolveSyncCheckpointSnapMemoized`: an answer is kept for as long as the checkpoint is. -/
def resolve (w : Moment) (fault : Option Fault) (memo : SyncCheckpointMemo) : SyncCheckpointMemo :=
  if memo.stale w then fill w fault else memo

end SyncCheckpointMemo

/-! ## The rule by value -/

/-- The verdict of one call, the memos after it, and whether a read of the call failed. -/
structure Outcome where
  verdict : Bool
  memos : Memos
  failed : Bool

/-- Where the ancestry walk ends, and if it ends early, whether a read failed. -/
inductive Walk where
  | reached (b : Record)
  | broken (failed : Bool)

/-- `CheckpointAncestorAtHeight`, with at most as many steps as the start is high. -/
def checkpointAncestorAtHeight (w : Moment) (fails : Site → Option Fault) (targetHeight : Int) : Nat → Record → Walk
  | 0, cur => if cur.height > targetHeight then .broken false else .reached cur
  | left + 1, cur =>
    if cur.height > targetHeight then
      if cur.hashPrev = ByteArr.zero 32 ∨ cur.height ≤ 0 then .broken false
      else
        match read (fails (.step left)) (resolveBlockSnapshot w cur.hashPrev) with
        | .authorityFailure | .notFound => .broken (fails (.step left)).isSome
        | .found p | .notActive p =>
          if p.height ≠ cur.height - 1 then .broken false else checkpointAncestorAtHeight w fails targetHeight left p
    else .reached cur

/-- The verdict on the ancestor that was found, kept for the parent. -/
def settle (w : Moment) (m : Memos) (s : Record) (hashPrev : Hash) (ancestor : Record) : Outcome :=
  let fDescendant := decide (ancestor.height = s.height) && ancestor.hash == w.hashSyncCheckpoint
  ⟨fDescendant, m.memoize hashPrev fDescendant, false⟩

/-- The parent is the best tip: one look at the active block at the checkpoint's height. -/
def checkBestTip (w : Moment) (fails : Site → Option Fault) (m : Memos) (s : Record) (hashPrev : Hash) : Outcome :=
  match m.bestFor w.hashSyncCheckpoint hashPrev with
  | some e => ⟨e.bestExtends, m.memoize hashPrev e.bestExtends, false⟩
  | none =>
    let keep (bestExtends : Bool) : Outcome :=
      ⟨bestExtends,
        { m with best := some ⟨w.hashSyncCheckpoint, hashPrev, bestExtends⟩ }.memoize hashPrev bestExtends, false⟩
    match readActive (fails .anchor) (activeSnapshotByHeight w s.height) with
    | .found a => keep (decide (a.height = s.height) && a.hash == w.hashSyncCheckpoint)
    | .notFound => keep false
    | _ => ⟨false, m, true⟩

/-- The parent is another block: active, or on a side branch whose ancestry is walked. -/
def checkParent (w : Moment) (fails : Site → Option Fault) (m : Memos) (s : Record) (hashPrev : Hash) : Outcome :=
  match read (fails .parent) (resolveBlockSnapshot w hashPrev) with
  | .authorityFailure | .notFound => ⟨false, m, (fails .parent).isSome⟩
  | .found p =>
    if p.height = s.height then settle w m s hashPrev p
    else
      match readActive (fails .anchor) (activeSnapshotByHeight w s.height) with
      | .found a => settle w m s hashPrev a
      | .authorityFailure => ⟨false, m, true⟩
      | _ => ⟨false, m, false⟩
  | .notActive p =>
    match checkpointAncestorAtHeight w fails s.height p.height.toNat p with
    | .reached a => settle w m s hashPrev a
    | .broken failed => ⟨false, m, failed⟩

/-- The block lies above the checkpoint: only a descendant passes. -/
def checkDescendant (w : Moment) (fails : Site → Option Fault) (m : Memos) (s : Record) (hashPrev : Hash) : Outcome :=
  match m.verdicts.lookup hashPrev with
  | some verdict => ⟨verdict, m, false⟩
  | none => if hashPrev = w.best.hash then checkBestTip w fails m s hashPrev else checkParent w fails m s hashPrev

/-- `IsAuthoritativeIndexedRecord`, as the verdict of a call. -/
def checkKnown (w : Moment) (fails : Site → Option Fault) (m : Memos) (hashBlock : Hash) : Outcome :=
  match read (fails .record) (resolveBlockSnapshot w hashBlock) with
  | .found _ | .notActive _ => ⟨true, m, false⟩
  | .authorityFailure | .notFound => ⟨false, m, (fails .record).isSome⟩

/-- `CheckSyncByValue`. -/
def checkSyncByValue (w : Moment) (fails : Site → Option Fault) (hashBlock : Hash) (pindexPrev : Record) (m : Memos) :
    Outcome :=
  let memo := m.sync.resolve w (fails .checkpoint)
  let failed := m.sync.stale w && (fails .checkpoint).isSome
  let m := { m with sync := memo }
  match memo.snapshot with
  | none => ⟨false, m, failed⟩
  | some s =>
    let m := m.enter w.hashSyncCheckpoint
    let nHeight := pindexPrev.height + 1
    if nHeight < s.height then checkKnown w fails m hashBlock
    else if nHeight = s.height then ⟨hashBlock == w.hashSyncCheckpoint, m, false⟩
    else checkDescendant w fails m s pindexPrev.hash

end Innova.Checkpoints
