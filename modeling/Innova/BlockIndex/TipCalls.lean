import Innova.BlockIndex.Tip
import Innova.Lib.Outcome

/-! The calls that change the tip. A call may be stopped at any of its writes, renames and syncs,
by an error or by the end of the process. -/
namespace Innova.BlockIndex
open Lib Chainstate

/-! ## Steps that may fail -/

inductive Store where
  | records | derived | active
deriving DecidableEq

/-- One of the store files in the directory. -/
structure StoreAt (α : Type) where
  store : Store
  file : Disk → SlotFile α
  put : SlotFile α → Disk → Disk

def recordsAt : StoreAt Record := ⟨.records, Disk.records, fun f d => { d with records := f }⟩

def derivedAt : StoreAt Derived := ⟨.derived, Disk.derived, fun f d => { d with derived := f }⟩

def activeAt : StoreAt Nat := ⟨.active, Disk.active, fun f d => { d with active := f }⟩

/-- Files replaced through a temporary copy and a rename. -/
inductive File where
  | store (s : Store) | backup | invalid | marker | head
deriving DecidableEq

/-- The steps of a call that touch the directory. -/
inductive Point where
  /-- Cutting a store to its committed length. -/
  | trim (s : Store)
  /-- Appending to a store in place. -/
  | append (s : Store)
  /-- Writing and syncing a temporary file. -/
  | write (f : File)
  | rename (f : File)
  /-- Syncing the directory. -/
  | sync (f : File)
  /-- Updating the entry count in a store's header. -/
  | count (s : Store)
  /-- Entering the new record of this number into the side index. -/
  | put (k : Nat)
deriving DecidableEq

inductive Fault where
  /-- The step reports an error; an append has then written some whole entries and perhaps part of one. -/
  | fails (entries : Nat) (torn : Bool)
  /-- The process ends before the step. -/
  | crash
deriving DecidableEq

/-- How a call that does not return OK stops. -/
inductive Stop where
  | failed (status : Status) (error : String)
  | crashed
deriving DecidableEq

abbrev TipM := EStateM Stop Tip

/-- No step meets a fault. -/
def quiet : Point → Option Fault := fun _ => none

section Steps
variable {α : Type} (io : Point → Option Fault)

def fail (status : Status) (error : String) : TipM α := throw (.failed status error)

/-- Undoes what `x` did to the authority when `x` stops. -/
def recovering (x : TipM Unit) (undo : Tip → Tip) : TipM Unit := fun t =>
  match x t with
  | .ok _ t => .ok () t
  | .error e t => .error e (undo t)

def lift (x : Except Stop α) : TipM α := match x with
  | .ok a => pure a
  | .error e => throw e

/-- One step with its effect on the directory, and what an error leaves of it. -/
def perform (p : Point) (error : String) (effect : Disk → Disk) (part : Nat → Bool → Disk → Disk := fun _ _ => id) :
    TipM Unit := do
  match io p with
  | none => modify fun t => { t with disk := effect t.disk }
  | some (.fails entries torn) =>
    modify fun t => { t with disk := part entries torn t.disk }
    fail .ioError error
  | some .crash => throw .crashed

/-- `WriteFileCoW`: a complete temporary file, the rename over the target, the directory sync. -/
def writeFileCoW (f : File) (error : String) (effect : Disk → Disk) : TipM Unit := do
  perform io (.write f) error id
  perform io (.rename f) error effect
  perform io (.sync f) error id

/-- `WriteMeta`: publishes the meta in memory. -/
def writeMeta : TipM Unit := do
  let t ← get
  perform io (.write .head) "write tip.meta tmp failed" id
  perform io (.rename .head) "rename failed" fun d => { d with head := some (some (encodeTipMeta t.tipMeta)) }
  perform io (.sync .head) "directory fsync failed" id

/-- `TruncateStoreToCommitted`. -/
def truncateStoreToCommitted (s : StoreAt α) (n : Nat) (error : String) : TipM Unit := do
  let f := s.file (← get).disk
  if f.short n then fail .ioError error
  perform io (.trim s.store) error (s.put (f.cut n))

/-- `AppendAndUpdateCountDurable`. -/
def appendAndUpdateCountDurable (s : StoreAt α) (new : List α) (error : String) : TipM Unit := do
  if new.isEmpty then return
  let f := s.file (← get).disk
  perform io (.append s.store) error (s.put (f.grown new)) fun entries torn =>
    s.put { f.grown (new.take entries) with torn := torn && entries < new.length }

/-- `TipSideIndex::Put` of new records, from the `k`-th on. -/
def putRecords (error : String) (first k : Nat) : List Record → TipM Unit
  | [] => pure ()
  | r :: rest => do
    let t ← get
    let id := t.tipMeta.idOf (first + k)
    match t.disk.index r.hash with
    | some known => if known ≠ id then fail .ioError error
    | none => perform io (.put k) error fun d => { d with index := Function.update d.index r.hash (some id) }
    putRecords error first (k + 1) rest

end Steps

/-! ## Chains -/

section Calls
variable [Digest] (io : Point → Option Fault)

/-- The entries of the stores a scan up to the windows' counts comes to. -/
def Tip.scanned (t : Tip) : Content :=
  ⟨t.disk.records.visited t.recordsWin.count, t.disk.derived.visited t.derivedWin.count,
    t.disk.active.visited t.activeWin.count⟩

/-- `BuildChainsForStreaming`: whether every entry could be read, and the chains over those that
were read first. -/
def buildChainsForStreaming : TipM Bool := fun t =>
  let c := t.scanned
  .ok (decide (c.records.length = t.recordsWin.count ∧ c.derived.length = t.derivedWin.count ∧
      c.active.length = t.activeWin.count)) { t with chains := some (chainsOf c) }

/-- `EnsureChains`: a failed scan goes unnoticed. -/
def ensureChains : TipM Unit := do
  let t ← get
  if t.chains.isNone then let _ ← buildChainsForStreaming

/-! ## Appends -/

/-- What the first pass over a batch collects. -/
structure Gathered where
  expectedActive : Int
  expectPrev : Hash
  blocks : List Append
  active : List Nat

/-- The block an active append must attach to; zero asks nothing. -/
def Tip.attachTo (t : Tip) : Hash :=
  if t.tipMeta.baseTipHeight < t.tipMeta.tipHeight then t.tipMeta.tipHash else t.baseTipHash

def gatherStep (t : Tip) (g : Gathered) (item : Append × Int) : Except Stop Gathered :=
  let (blk, ah) := item
  -- idempotent replay: any entry of the side index counts
  if (t.disk.index blk.record.hash).isSome then .ok g
  else if 0 ≤ ah then
    if ah ≠ g.expectedActive + 1 then .error (.failed .corrupt "non-dense active append")
    else if g.expectPrev ≠ ByteArr.zero 32 ∧ blk.record.hashPrev ≠ g.expectPrev then
      .error (.failed .corrupt "active append parent mismatch")
    else .ok ⟨ah, blk.record.hash, g.blocks ++ [blk], g.active ++
      [t.tipMeta.idOf (t.tipMeta.tipRecordCount + g.blocks.length)]⟩
  else .ok { g with blocks := g.blocks ++ [blk] }

/-- The blocks of a batch the stores do not have yet. -/
def gather (t : Tip) (batch : List (Append × Int)) : Except Stop Gathered :=
  batch.foldlM (gatherStep t) ⟨t.tipMeta.tipHeight, t.attachTo, [], []⟩

/-- The content a batch adds. -/
def Gathered.content (g : Gathered) : Content := ⟨g.blocks.map (·.record), g.blocks.map (·.derived), g.active⟩

/-- Writes the new entries behind the committed ones of each store. -/
def appendStores (g : Gathered) : TipM Unit := do
  let m := (← get).tipMeta
  truncateStoreToCommitted io recordsAt m.tipRecordCount "append tip truncate failed"
  truncateStoreToCommitted io derivedAt m.tipRecordCount "append tip truncate failed"
  truncateStoreToCommitted io activeAt m.activeCount "append tip truncate failed"
  appendAndUpdateCountDurable io recordsAt g.content.records "append tip records/derived/active + count failed"
  appendAndUpdateCountDurable io derivedAt g.content.derived "append tip records/derived/active + count failed"
  appendAndUpdateCountDurable io activeAt g.content.active "append tip records/derived/active + count failed"

/-- Writes the operator-invalid log unless the file is known to hold it. -/
def completeInvalidFile : TipM Unit := do
  let t ← get
  let digest := computeInvalidDigest t.invalidEntries
  if t.invalidDisk ≠ some digest then
    writeFileCoW io .invalid "append tip-invalid failed" fun d => { d with invalid := some (some t.invalidEntries) }
    modify fun t => { t with invalidDisk := some digest }

/-- `WriteHashIndexMarker`. -/
def writeHashIndexMarker (count : Nat) (error : String) : TipM Unit :=
  writeFileCoW io .marker error fun d => { d with marker := some count }

/-- The meta after a batch, but for its digest. -/
def appendMeta (m : TipMeta) (g : Gathered) : TipMeta :=
  let total := m.activeCount + g.active.length
  { m with
    version := 3
    tipRecordCount := m.tipRecordCount + g.blocks.length
    tipHeight := if total = 0 then m.baseTipHeight else if g.active ≠ [] then m.baseTipHeight + total else m.tipHeight
    tipHash := if total = 0 then ByteArr.zero 32 else if g.active ≠ [] then
        -- the last active block of the batch
        ((g.active.getLast?.bind fun id => g.blocks[id - m.idOf m.tipRecordCount]?).map (·.record.hash)).getD
          (ByteArr.zero 32)
      else m.tipHash }

/-- The authority after a batch, with its meta not yet published. -/
def adoptAppend (g : Gathered) (t : Tip) : Tip :=
  let chains := (t.chains.getD (chainsOf ⟨[], [], []⟩)).extend g.content
  let m := appendMeta t.tipMeta g
  { t with
    recordsWin := t.recordsWin.pushAll ringCap g.content.records
    derivedWin := t.derivedWin.pushAll ringCap g.content.derived
    activeWin := t.activeWin.pushAll ringCap g.content.active
    chains := some chains
    tipMeta := { m with contentDigest := digestV3Finalize chains m.activeFence } }

/-- `AppendBatch` from its first write on. -/
def commitBatch (g : Gathered) : TipM Unit := do
  appendStores io g
  completeInvalidFile io
  let committed := (← get).tipMeta.tipRecordCount
  putRecords io "append tip-hashindex put failed" committed 0 g.content.records
  writeHashIndexMarker io (committed + g.blocks.length) "append tip-hashindex marker failed"
  ensureChains
  let saved ← get
  set (adoptAppend g saved)
  recovering (writeMeta io) fun t =>
    { t with
      recordsWin := t.recordsWin.popTo saved.recordsWin.count
      derivedWin := t.derivedWin.popTo saved.derivedWin.count
      activeWin := t.activeWin.popTo saved.activeWin.count
      tipMeta := saved.tipMeta
      chains := saved.chains }

/-- `AppendBatch`. -/
def appendBatch (blocks : List Append) (activeHeights : List Int) : TipM Unit := do
  if blocks.length ≠ activeHeights.length then fail .corrupt "append batch size mismatch"
  let g ← lift (gather (← get) (blocks.zip activeHeights))
  if g.blocks.isEmpty then return
  if !g.blocks.all fun blk => validateRecord blk.record then fail .ioError "encode tip-records entry failed"
  commitBatch io g

/-- `FlushPendingAppends`: a window that could not be published stays. -/
def flushPendingAppends : TipM Unit := do
  let t ← get
  if t.pend.isEmpty then return
  set { t with pend := [] }
  recovering (appendBatch io (t.pend.map (·.1)) (t.pend.map (·.2))) fun failed => { failed with pend := t.pend }

/-! ## Truncation and reorganisation -/

/-- `RecordsWin.Get` and the like: a read may change what the window caches. -/
def getRecord (slot : Nat) : TipM (Option Record) := fun t =>
  .ok (t.record? slot) { t with recordsWin := t.recordsWin.touch (recentCap 228) t.disk.records slot }

def getActive (rel : Nat) : TipM (Option Nat) := fun t =>
  .ok (t.active? rel) { t with activeWin := t.activeWin.touch (recentCap 8) t.disk.active rel }

/-- Replaces one store file by a stream of entries. -/
def swapStore (s : Store) (error : String) (effect : Disk → Disk) : TipM Unit := do
  writeFileCoW io (.store s) error effect
  perform io (.count s) error id

/-- The windows over replaced files. -/
def setCounts (records active : Nat) (t : Tip) : Tip :=
  { t with recordsWin := .setCount records, derivedWin := .setCount records, activeWin := .setCount active }

/-- The active entries up to a height. -/
def TipMeta.kept (m : TipMeta) (height : Int) : Nat := (height - m.baseTipHeight).toNat

/-- How `ReorgActiveTo` and `ApplyOperatorInvalidAndReorg` differ in building the new active chain. -/
structure ReorgKind where
  word : String
  branchWord : String
  /-- The fork may be the tip itself. -/
  inclusive : Bool
  /-- Promoted records get the branch's money supply and mint. -/
  corrects : Bool

def ReorgKind.reorg : ReorgKind := ⟨"reorg", "reorg", false, true⟩

def ReorgKind.fused : ReorgKind := ⟨"fused", "fused reorg", true, false⟩

/-- The new active chain and the entries it needs. -/
structure Plan where
  /-- The length of the fork prefix. -/
  keep : Nat
  active : List Nat
  append : List Append
  /-- Committed slots to rewrite, with the branch blocks to put there. -/
  fixes : List (Nat × Append)
  /-- The branch hashes so far (`seenBranch`). -/
  seen : List Hash

/-- The ids of the active entries before the fork. -/
def forkPrefix (error : String) (rel : Nat) : Nat → TipM (List Nat)
  | 0 => pure []
  | n + 1 => do
    let some id ← getActive rel | fail .ioError error
    return id :: (← forkPrefix error (rel + 1) n)

/-- The hash the first branch block must attach to, if there is one to ask for. -/
def forkHash (kind : ReorgKind) (m : TipMeta) (forkIds : List Nat) : TipM (Option Hash) := do
  match forkIds.getLast? with
  | some forkId =>
    let some slot := m.slotOf forkId | fail .ioError (kind.word ++ " fork prefix record unreadable")
    let some r ← getRecord slot | fail .ioError (kind.word ++ " fork prefix record unreadable")
    return some r.hash
  | none =>
    let baseTipHash := (← get).baseTipHash
    return if baseTipHash ≠ ByteArr.zero 32 then some baseTipHash else none

/-- One branch block: promoted when the side index knows it, appended otherwise. -/
def planBlock (kind : ReorgKind) (m : TipMeta) (p : Plan) (item : Append × Int) : TipM Plan := do
  let (blk, height) := item
  if height ≠ m.baseTipHeight + p.active.length + 1 then fail .corrupt (kind.branchWord ++ " branch non-dense height")
  if p.seen.contains blk.record.hash then fail .corrupt (kind.branchWord ++ " branch duplicate")
  let p := { p with seen := p.seen ++ [blk.record.hash] }
  match (← get).disk.index blk.record.hash with
  | some id =>
    let some slot := m.slotOf id | fail .corrupt (kind.word ++ " promoted id invalid")
    if m.tipRecordCount ≤ slot then fail .corrupt (kind.word ++ " promoted id out of range")
    let some committed ← getRecord slot | fail .ioError (kind.word ++ " promoted record read failed")
    if committed.hashPrev ≠ blk.record.hashPrev ∨ committed.height ≠ blk.record.height then
      fail .corrupt (kind.word ++ " promoted record mismatch")
    let differs := committed.nMoneySupply ≠ blk.record.nMoneySupply ∨ committed.nMint ≠ blk.record.nMint
    return { p with
      active := p.active ++ [id]
      fixes := if kind.corrects ∧ differs then p.fixes ++ [(slot, blk)] else p.fixes }
  | none =>
    return { p with active := p.active ++ [m.idOf (m.tipRecordCount + p.append.length)], append := p.append ++ [blk] }

/-- The branch blocks in order. The source checks the collected ids once more; they are in range. -/
def planBranch (kind : ReorgKind) (m : TipMeta) : Plan → List (Append × Int) → TipM Plan
  | p, [] => pure p
  | p, item :: rest => do planBranch kind m (← planBlock kind m p item) rest

/-- The fork height lies on the active chain, or is the base. -/
def ReorgKind.inRange (kind : ReorgKind) (m : TipMeta) (fork : Int) : Bool :=
  fork == m.baseTipHeight || (decide (m.baseTipHeight ≤ fork) &&
    (if kind.inclusive then decide (fork ≤ m.baseTipHeight + m.activeCount) else
      decide (fork < m.baseTipHeight + m.activeCount)))

/-- The first part of both reorganisations: nothing is written yet. -/
def planReorg (kind : ReorgKind) (fork : Int) (branch : List Append) (heights : List Int) : TipM Plan := do
  if branch.length ≠ heights.length then fail .corrupt (kind.branchWord ++ " branch size mismatch")
  let m := (← get).tipMeta
  if !kind.inRange m fork then fail .corrupt (kind.branchWord ++ " fork height out of range")
  let keep := (fork - m.baseTipHeight).toNat
  let forkIds ← forkPrefix (kind.word ++ " fork prefix read failed") 0 keep
  match branch with
  | [] => pure ()
  | first :: _ =>
    let attach ← forkHash kind m forkIds
    if attach.any fun hash => first.record.hashPrev != hash then
      fail .corrupt (kind.branchWord ++
        (if 0 < keep then " branch not attached to the fork block" else " branch not attached to the base tip"))
  planBranch kind m ⟨keep, forkIds, [], [], []⟩ (branch.zip heights)

/-- The entries a rewrite puts into a file: at a corrected slot the given entry, at any other
the next entry of the source. The source does not advance at a corrected slot. -/
def streamCopy {α : Type} (fix : Nat → Option α) : (remaining slot : Nat) → List (Option α) → Option (List (Option α))
  | 0, _, _ => some []
  | n + 1, slot, src =>
    match fix slot, src with
    | some x, src => (streamCopy fix n (slot + 1) src).map (some x :: ·)
    | none, [] => none
    | none, entry :: rest => (streamCopy fix n (slot + 1) rest).map (entry :: ·)

/-- The correction of a slot. -/
def Plan.fixAt (p : Plan) (slot : Nat) : Option Append := (p.fixes.find? (·.1 = slot)).map (·.2)

/-- `RewriteStoresForReorg`. -/
def rewriteStoresForReorg (p : Plan) (error : String) : TipM Unit := do
  let committed := (← get).tipMeta.tipRecordCount
  if !(p.fixes.map (·.1)).all (· < committed) || !decide (p.fixes.map (·.1)).Nodup then fail .ioError error
  let some records := streamCopy (fun slot => (p.fixAt slot).map (·.record)) committed 0 (← get).disk.records.body
    | fail .ioError error
  if !p.append.all (validateRecord ·.record) || !p.fixes.all (validateRecord ·.2.record) then fail .ioError error
  swapStore io .records error fun d => { d with records := .whole (records ++ p.append.map fun blk => some blk.record) }
  let some derived := streamCopy (fun slot => (p.fixAt slot).map (·.derived)) committed 0 (← get).disk.derived.body
    | fail .ioError error
  swapStore io .derived error fun d =>
    { d with derived := .whole (derived ++ p.append.map fun blk => some blk.derived) }
  let active := (← get).disk.active.body
  if active.length < p.keep then fail .ioError error
  swapStore io .active error fun d =>
    { d with active := .whole (active.take p.keep ++ (p.active.drop p.keep).map some) }

/-- The tip hash after a reorganisation. A promoted tip is read through the window as it still is. -/
def reorgTipHash (kind : ReorgKind) (m : TipMeta) (p : Plan) : TipM Hash := do
  match p.active.getLast? with
  | none => return ByteArr.zero 32
  | some id =>
    let some slot := m.slotOf id | fail .corrupt (kind.word ++ " tip id invalid")
    if m.tipRecordCount ≤ slot then
      match p.append[slot - m.tipRecordCount]? with
      | some blk => return blk.record.hash
      | none => fail .corrupt (kind.word ++ " tip id out of range")
    else
      let some r ← getRecord slot | fail .ioError (kind.word ++ " tip hash resolve failed")
      return r.hash

/-- What the authority takes over from the rewritten stores before it publishes the meta `m` became. -/
def adoptReorg (kind : ReorgKind) (m : TipMeta) (p : Plan) (entries : Option (List InvalidEntry)) : TipM Unit := do
  let tipHash ← reorgTipHash kind m p
  modify (setCounts (m.tipRecordCount + p.append.length) p.active.length)
  if !(← buildChainsForStreaming) then fail .ioError (kind.word ++ " digest rebuild failed")
  let fence := (m.activeFence + 1) % 256
  modify fun t =>
    { t with
      invalidEntries := entries.getD t.invalidEntries
      tipMeta :=
        { m with
          version := 3, activeFence := fence, tipHash
          tipRecordCount := m.tipRecordCount + p.append.length
          tipHeight := m.baseTipHeight + p.active.length
          contentDigest := digestV3Finalize (t.chains.getD (chainsOf ⟨[], [], []⟩)) fence
          invalidLogCount := (entries.map (·.length)).getD m.invalidLogCount
          invalidDigest := (entries.map computeInvalidDigest).getD m.invalidDigest } }

/-- The last part of both reorganisations: side index, marker, windows and `tip.meta`. -/
def publishReorg (kind : ReorgKind) (p : Plan) (entries : Option (List InvalidEntry)) : TipM Unit := do
  let saved ← get
  let m := saved.tipMeta
  putRecords io (kind.word ++ " tip-hashindex put failed") m.tipRecordCount 0 (p.append.map (·.record))
  writeHashIndexMarker io (m.tipRecordCount + p.append.length) (kind.word ++ " tip-hashindex marker failed")
  adoptReorg kind m p entries
  recovering (writeMeta io) fun t =>
    { setCounts m.tipRecordCount m.activeCount t with
      tipMeta := m, invalidEntries := saved.invalidEntries, chains := none }

/-- `ReorgActiveTo` past the flush. -/
def reorgActive (fork : Int) (branch : List Append) (heights : List Int) : TipM Unit := do
  let p ← planReorg .reorg fork branch heights
  writeFileCoW io .backup "reorg active undo backup failed" fun d => { d with backup := some d.active }
  rewriteStoresForReorg io p "reorg store stream failed"
  publishReorg io .reorg p none

/-- `ReorgActiveTo`. -/
def reorgActiveTo (flush : Point → Option Fault) (fork : Int) (branch : List Append) (heights : List Int) :
    TipM Unit := do
  flushPendingAppends flush
  reorgActive io fork branch heights

/-- The log with an intent that changes the set. -/
def Tip.withIntent (t : Tip) (hash : Hash) (invalidate : Bool) : List InvalidEntry :=
  if t.isOperatorInvalid hash = invalidate then t.invalidEntries else t.invalidEntries ++ [⟨hash, invalidate⟩]

/-- `WriteInvalidFile` of a log that is not committed yet. -/
def writeInvalidFile (entries : List InvalidEntry) (error : String) : TipM Unit := do
  writeFileCoW io .invalid error fun d => { d with invalid := some (some entries) }
  modify fun t => { t with invalidDisk := some (computeInvalidDigest entries) }

/-- `ApplyOperatorInvalidAndReorg` past the flush. No copy of the active store is kept. -/
def applyOperatorInvalid (hash : Hash) (invalidate : Bool) (fork : Int) (branch : List Append) (heights : List Int) :
    TipM Unit := do
  let p ← planReorg .fused fork branch heights
  rewriteStoresForReorg io p "fused store stream failed"
  let entries := (← get).withIntent hash invalidate
  writeInvalidFile io entries "fused tip-invalid failed"
  publishReorg io .fused p (some entries)

/-- `ApplyOperatorInvalidAndReorg`. -/
def applyOperatorInvalidAndReorg (flush : Point → Option Fault) (hash : Hash) (invalidate : Bool) (fork : Int)
    (branch : List Append) (heights : List Int) : TipM Unit := do
  flushPendingAppends flush
  applyOperatorInvalid io hash invalidate fork branch heights

/-- `Create`, when every file could be written. -/
def createTip (baseGeneration baseRecordCount : Nat) (baseTipHeight : Int) : Tip :=
  let m : TipMeta :=
    { version := 2, baseGeneration, baseRecordCount, baseTipHeight, tipHeight := baseTipHeight
      tipHash := ByteArr.zero 32, tipRecordCount := 0, activeFence := 0
      contentDigest := computeContentDigest ⟨[], [], []⟩ 0
      invalidLogCount := 0, invalidDigest := computeInvalidDigest [] }
  { disk :=
      { head := some (some (encodeTipMeta m)), records := .whole [], derived := .whole [], active := .whole []
        backup := none, invalid := some (some []), index := fun _ => none, marker := some 0 }
    tipMeta := m
    recordsWin := .setCount 0, derivedWin := .setCount 0, activeWin := .setCount 0
    invalidEntries := [], invalidDisk := some (computeInvalidDigest []), chains := none
    baseTipHash := ByteArr.zero 32, pend := [] }

end Calls

/-! ## Blocks for runs on fixed inputs -/

/-- A hash that is zero but for its first byte. -/
def shortHash (n : Nat) : Hash := ⟨UInt8.ofNat n :: List.replicate 31 0, by simp⟩

def plainBlock (n parent : Nat) (height : Int) : Append :=
  ⟨{ hash := shortHash n, hashPrev := shortHash parent, height }, {}⟩

/-- A fresh tip over a base of height 10 and hash 1. -/
def freshTip : Tip := { @createTip sha256Digest 1 0 10 with baseTipHash := shortHash 1 }

end Innova.BlockIndex
