import Innova.Lib.Durable
import Innova.Store3A.Overlay
import Innova.Store3A.UndoIndex

/-! The durable commit protocol of `incstore.cpp`. A store is the tree, its in-memory
bookkeeping and the files of the data directory; each system call draws its outcome
from a script: it works, it fails, or the process ends there. -/
namespace Innova.Store3A
open Lib Lib.PagedTree Chainstate

/-- Where a record of the undo log is, and of which block. -/
structure UndoMeta where
  blockHash : Hash
  height : Int32
  offset : UInt64
  len : UInt32
deriving DecidableEq

/-- A closed run of records of the undo log. -/
structure CommittedSegment where
  startOffset : UInt64
  endOffset : UInt64
deriving DecidableEq

/-- Creation policy for the first undo write after a fresh open. -/
inductive UndoCreate where
  | any | requireAbsent | requireExisting
deriving DecidableEq

/-- What a system call does. A write of `undo.dat` that does not complete leaves `junk` behind. -/
inductive Outcome where
  | done
  | fails (junk : Bytes)
  | crash (junk : Bytes)

/-- How a call can end early. -/
inductive Stop where
  | failed (e : ChainError)
  | crashed

/-- The data directory; `none` is an absent file. `tree.dat` itself is in the tree,
here is what its last fsync made durable. -/
structure Files where
  manifest : Durable (Option Bytes)
  bak : Durable (Option Bytes)
  ack : Durable (Option Bytes)
  index : Durable (Option Bytes)
  undo : Durable (Option Bytes)
  syncedPages : PageId → Bytes
  syncedNext : PageId
  /-- How many of the page writes were made before it. -/
  syncedWrites : Nat

/-- `CommitStore3A`: the tree, the bookkeeping in memory and the files. -/
structure Store where
  dir : String
  opened : Bool
  needsReopen : Bool
  reopenWhy : String
  tree : BTree
  generation : UInt64
  undoCommittedBytes : UInt64
  ackGen : UInt64
  ackPresent : Bool
  blockHash : Hash
  tipHeight : Int32
  renamePassed : Bool
  undoSegments : List CommittedSegment
  undoRecent : List UndoMeta
  undoRecordCount : UInt64
  ixSegmentSize : UInt32
  batchOpen : Bool
  batchOldRoot : PageRef
  freshUndoCreate : UndoCreate
  freshOneShotTaken : Bool
  files : Files
  /-- Outcomes of the coming system calls; past its end they all work. -/
  script : List Outcome

abbrev StoreM := EStateM Stop Store

namespace Store

def p (s : Store) (name : String) : String := s.dir ++ "/" ++ name

/-- Records per closed segment. -/
def segmentSize (s : Store) : Nat := if s.ixSegmentSize = 0 then 4096 else s.ixSegmentSize.toNat

/-! ## Programs -/

def fail {α : Type} (e : ChainError) : StoreM α := throw (.failed e)

def orStop {α : Type} : Except ChainError α → StoreM α
  | .ok a => pure a
  | .error e => fail e

def update (f : Store → Store) : StoreM Unit := fun s => .ok () (f s)

def onTree {α : Type} (x : TreeM α) : StoreM α := fun s =>
  match x s.tree with
  | .ok a t => .ok a { s with tree := t }
  | .error e t => .error (.failed e) { s with tree := t }

/-- Runs the clean-up of a failure branch, and fails as before. -/
def onFailure {α : Type} (x : StoreM α) (cleanup : Store → Store) : StoreM α := fun s =>
  match x s with
  | .error (.failed e) t => .error (.failed e) (cleanup t)
  | r => r

/-- The outcome of the next system call. -/
def outcome : StoreM Outcome := fun s => .ok (s.script.headD .done) { s with script := s.script.tail }

/-- A system call that changes nothing here, with its error. -/
def syscall (e : ChainError) : StoreM Unit := do
  match ← outcome with
  | .done => return
  | .fails _ => fail e
  | .crash _ => throw .crashed

/-! ## Files -/

def Files.fsyncDir (f : Files) : Files :=
  { f with
    manifest := f.manifest.sync, bak := f.bak.sync, ack := f.ack.sync, index := f.index.sync
    -- the directory names `undo.dat` durably from here on; its content is synced on its own
    undo := f.undo.narrow (fun u => u = none → f.undo.cur = none) }

/-- Makes the names in the directory durable. -/
def csFsyncDir : StoreM Unit := do
  let s ← EStateM.get
  syscall ⟨.io, "open dir " ++ s.dir⟩
  syscall ⟨.fs, "fsync dir " ++ s.dir⟩
  update fun s => { s with files := Files.fsyncDir s.files }

/-- Writes and syncs a temporary file. What it holds matters only once it is renamed. -/
def csWriteFile (name : String) : StoreM Unit := do
  let s ← EStateM.get
  syscall ⟨.io, "open " ++ s.p name⟩
  syscall ⟨.io, "write " ++ s.p name⟩
  syscall ⟨.fs, "fsync " ++ s.p name⟩
  syscall ⟨.fs, "close " ++ s.p name⟩

/-- Makes the pages written so far durable. -/
def fsyncTree : StoreM Unit := do
  syscall ⟨.fs, "fsync tree"⟩
  update fun s => { s with files := { s.files with
    syncedPages := s.tree.pages, syncedNext := s.tree.nextId, syncedWrites := s.tree.writes.length } }

/-- The pages written since the last fsync. -/
def Files.unsynced (f : Files) (t : BTree) : List PageId := t.writes.take (t.writes.length - f.syncedWrites)

/-- Until it is synced, a write at `off` may leave anything from `off` on. -/
def Files.writeUndo (f : Files) (off : Nat) (raw : Bytes) : Files :=
  let old := f.undo.cur.getD []
  { f with
    undo := f.undo.disturb (some (Bytes.writeAt old off raw)) (fun u => ∃ b, u = some b ∧ b.take off = old.take off) }

/-- The content is durable; the name is once the directory is synced. -/
def Files.fsyncUndo (f : Files) : Files :=
  { f with undo := f.undo.narrow (fun u => u = none) }

/-- What the create policy of a fresh open says against the file it finds. -/
def refusedBy (create : UndoCreate) (file : Option Bytes) (path : String) : Option ChainError :=
  if create = .requireAbsent ∧ file.isSome then
    some (corrupt (path ++ " appeared after the fresh-open classification; refusing to " ++
      "overwrite a file this store never created (prior-store evidence)"))
  else if create = .requireExisting ∧ file ≠ some [] then
    some (corrupt
      (path ++ " is no longer empty; refusing to overwrite bytes this store never wrote (identity mismatch)"))
  else none

/-- Opening for writing creates an absent file. -/
def Files.createUndo (f : Files) : Files := if f.undo.cur = none then { f with undo := f.undo.replace (some []) } else f

/-- The write into `undo.dat` itself. -/
def pwriteUndo (off : Nat) (raw : Bytes) : StoreM Unit := do
  let s ← EStateM.get
  match ← outcome with
  | .done => update fun s => { s with files := Files.writeUndo s.files off raw }
  | .fails junk => do
    update fun s => { s with files := Files.writeUndo s.files off junk }
    fail ⟨.io, "write " ++ s.p "undo.dat"⟩
  | .crash junk => do
    update fun s => { s with files := Files.writeUndo s.files off junk }
    throw .crashed

/-- Writes an undo record at the committed offset: never truncates, never past a hole. -/
def csWriteAtFile (create : UndoCreate) (off : Nat) (raw : Bytes) : StoreM Unit := do
  let s ← EStateM.get
  match refusedBy create s.files.undo.cur (s.p "undo.dat") with
  | some e => fail e
  | none => do
    syscall ⟨.io, "open " ++ s.p "undo.dat"⟩
    update fun s => { s with files := Files.createUndo s.files }
    let size := (s.files.undo.cur.getD []).length
    if size < off then
      fail (corrupt (s.p "undo.dat" ++ " is shorter than the committed length (end=" ++ toString size ++ " < off=" ++
        toString off ++ "); refusing to zero-extend over a committed record region"))
    else do
      pwriteUndo off raw
      syscall ⟨.fs, "fsync " ++ s.p "undo.dat"⟩
      update fun s => { s with files := Files.fsyncUndo s.files }

/-- Reads `len` bytes of the undo log. -/
def csReadRange (off len : Nat) : StoreM Bytes := do
  let s ← EStateM.get
  match s.files.undo.cur with
  | none => fail ⟨.io, "open " ++ s.p "undo.dat"⟩
  | some file =>
    syscall ⟨.io, "open " ++ s.p "undo.dat"⟩
    if off + len > file.length then fail (corrupt ("short read " ++ s.p "undo.dat"))
    else return Bytes.slice file off len

/-- Acknowledges a generation. -/
def writeAck (gen : UInt64) : StoreM Unit := do
  csWriteFile "ACK.tmp"
  syscall ⟨.fs, "rename ACK"⟩
  update fun s => { s with files := { s.files with ack := s.files.ack.replace (some (ackBytes gen)) } }
  csFsyncDir

/-! ## Undo bookkeeping -/

/-- Keeps the most recent records only, three segments of them. -/
def recentPush (s : Store) (m : UndoMeta) : Store :=
  let recent := s.undoRecent ++ [m]
  { s with undoRecent := if recent.length > 3 * s.segmentSize then recent.tail else recent }

/-- Drops the segments behind the committed bytes. -/
def trimUncommittedSegments (s : Store) : Store :=
  { s with undoSegments := (s.undoSegments.reverse.dropWhile (s.undoCommittedBytes < ·.endOffset)).reverse }

/-- Decodes a record header whose whole record has to end below `limit`. The full scan
reports a bad length without its offset. -/
def undoHeaderAt (located : Bool) (h : Bytes) (absOff limit : UInt64) : Except ChainError UndoMeta := do
  if h.length < UndoRecord.headerSize then throw (corrupt "undo header truncated")
  if h.take 8 != UndoRecord.magic then throw (corrupt ("undo magic at offset " ++ toString absOff.toNat))
  let len := UInt32.ofNat (Bytes.toNat (Bytes.slice h 8 4))
  let hh := UInt32.ofNat (Bytes.toNat (Bytes.slice h 44 4))
  if len < 56 || limit < absOff + len.toUInt64 then
    throw (corrupt ("undo record length out of range" ++ if located then " at offset " ++
      toString absOff.toNat else ""))
  return ⟨ByteArr.read 32 h 12, hh.toInt32, absOff, len⟩

/-- Walks the record headers of `[off, limit)`, taking each in as it is read; a record is
never empty, so that the walk takes fewer steps than the range has bytes. -/
def walkHeaders (located : Bool) (limit : UInt64) (take : UndoMeta → Store → Store) : (fuel : Nat) →
    (off : UInt64) → StoreM Unit
  | 0, _ => fail ⟨.internal, "recursion without end"⟩
  | fuel + 1, off =>
    if off < limit then
      if limit < off + 52 then fail (corrupt "undo header crosses committed length")
      else do
        let hdr ← csReadRange off.toNat 52
        let m ← orStop (undoHeaderAt located hdr off limit)
        update (take m)
        walkHeaders located limit take fuel (off + m.len.toUInt64)
    else if off = limit then return
    else fail (corrupt "undo.dat committed length mismatch")

/-- Where the segment starts that holds the last committed record. -/
def reloadStart (s : Store) : UInt64 :=
  if s.undoRecordCount = 0 then 0
  else match s.undoSegments[(s.undoRecordCount.toNat - 1) / s.segmentSize]? with
    | some seg => seg.startOffset
    | none => (s.undoSegments.getLast?.map CommittedSegment.endOffset).getD 0

/-- Refills the recent cache from there. -/
def reloadRecentFromStream : StoreM Unit := do
  update fun s => { s with undoRecent := [] }
  let s ← EStateM.get
  if s.undoCommittedBytes = 0 then return
  else walkHeaders true s.undoCommittedBytes (fun m s => s.recentPush m) (s.undoCommittedBytes.toNat + 1) s.reloadStart

/-! ## The undo index -/

/-- The index the committed segment directory stands for. -/
def buildUndoIndexFromSegments (s : Store) : UndoIndex where
  segmentSize := UInt32.ofNat s.segmentSize
  committedBytes := (s.undoSegments.getLast?.map CommittedSegment.endOffset).getD 0
  segments := s.undoSegments.map fun g => ⟨g.startOffset, g.endOffset, UInt32.ofNat s.segmentSize⟩

/-- Replaces `UNDOINDEX` by renaming. -/
def publishUndoIndex (ix : UndoIndex) : StoreM Unit := do
  csWriteFile "UNDOINDEX.tmp"
  syscall ⟨.fs, "rename UNDOINDEX"⟩
  update fun s => { s with files := { s.files with index := s.files.index.replace (some ix.encode) } }

/-- The segments closed by records ending at `recEnds`, numbered from `recNo` on. -/
def crossings (size : Nat) : (recNo : UInt64) → (segStart : UInt64) → (recEnds : List UInt64) → List CommittedSegment
  | _, _, [] => []
  | recNo, segStart, recEnd :: rest =>
    if recNo.toNat % size = 0 then ⟨segStart, recEnd⟩ :: crossings size (recNo + 1) recEnd rest
    else crossings size (recNo + 1) segStart rest

/-- Publishes the index with the given closed segments added, and only then enters them
in the committed directory. -/
def closeSegments (fresh : List CommittedSegment) : StoreM Unit := do
  let s ← EStateM.get
  publishUndoIndex ({ s with undoSegments := s.undoSegments ++ fresh }.buildUndoIndexFromSegments)
  update fun s => { s with undoSegments := s.undoSegments ++ fresh }

/-- The end of the last closed segment. -/
def segmentEnd (s : Store) : UInt64 := (s.undoSegments.getLast?.map CommittedSegment.endOffset).getD 0

/-- A single record that fills a segment closes it. -/
def publishUndoIndexOnSegmentClose (appendEndOffset : UInt64) : StoreM Unit := do
  let s ← EStateM.get
  if s.undoRecordCount + 1 = 0 || (s.undoRecordCount + 1).toNat % s.segmentSize != 0 then return
  else closeSegments [⟨s.segmentEnd, appendEndOffset⟩]

/-- The segments that an append closes. -/
def publishUndoIndexCrossings (appendEnd : UInt64) (recEnds : Option (List UInt64)) : StoreM Unit :=
  match recEnds with
  | none => publishUndoIndexOnSegmentClose appendEnd
  | some recEnds => do
    let s ← EStateM.get
    match crossings s.segmentSize (s.undoRecordCount + 1) s.segmentEnd recEnds with
    | [] => return
    | fresh => closeSegments fresh

/-! ## Commit barriers -/

section
variable [Digest]

/-- Replaces `MANIFEST.bak` by the current manifest, durably, before any undo byte is
written. The copy is read back and checked as the original was. -/
def replaceBackup (undoOffset : UInt64) (undoAppend : Bytes) : StoreM Unit := do
  let s ← EStateM.get
  syscall ⟨.io, "read prior MANIFEST: open " ++ s.p "MANIFEST"⟩
  match s.files.manifest.cur with
  | none => return
  | some cur =>
    match Manifest.decode cur with
    | .error e => fail ⟨e.code, "prior MANIFEST is undecodable; refusing to publish over it: " ++ e.msg⟩
    | .ok bman =>
      match s.tree.readNodeVerified bman.root with
      | .error e => fail ⟨e.code, "prior MANIFEST references an unreadable root; refusing to publish: " ++ e.msg⟩
      | .ok _ =>
        if undoAppend.length > 0 && bman.undoSize != undoOffset then
          fail (corrupt ("prior MANIFEST undoSize=" ++ toString bman.undoSize.toNat ++
            " does not equal the committed write offset " ++ toString undoOffset.toNat ++
            "; refusing to write undo bytes over/at a region the retained backup references"))
        else do
          csWriteFile "MANIFEST.bak.tmp"
          syscall ⟨.fs, "backup not readable after write"⟩
          syscall ⟨.fs, "rename MANIFEST.bak"⟩
          update fun s => { s with files := { s.files with bak := s.files.bak.replace (some cur) } }
          csFsyncDir

/-- The undo write of a commit. The first one after a fresh open spends its create policy. -/
def writeUndo (undoOffset : UInt64) (undoAppend : Bytes) : StoreM Unit := do
  let s ← EStateM.get
  update fun s => { s with
    freshUndoCreate := .any
    freshOneShotTaken := s.freshOneShotTaken || s.freshUndoCreate != .any }
  csWriteAtFile s.freshUndoCreate undoOffset.toNat undoAppend

/-- The undo write and the index publication of a commit that appends records. -/
def appendUndo (undoOffset : UInt64) (undoAppend : Bytes) (recEnds : Option (List UInt64)) : StoreM Unit :=
  if undoAppend.length > 0 then do
    writeUndo undoOffset undoAppend
    publishUndoIndexCrossings (undoOffset + UInt64.ofNat undoAppend.length) recEnds
  else return

/-- The durable steps of a commit up to the renamed manifest. -/
def commitBarriers (m : Manifest) (undoOffset : UInt64) (undoAppend : Bytes)
    (recEnds : Option (List UInt64)) : StoreM Unit := do
  update fun s => { s with renamePassed := false, freshOneShotTaken := false }
  fsyncTree
  replaceBackup undoOffset undoAppend
  appendUndo undoOffset undoAppend recEnds
  csWriteFile "MANIFEST.tmp"
  syscall ⟨.fs, "rename MANIFEST"⟩
  update fun s => { s with
    renamePassed := true
    files := { s.files with manifest := s.files.manifest.replace (some m.encode) } }
  csFsyncDir

/-- From here on the store refuses every call. -/
def requireReopen (why : String) (s : Store) : Store := { s with needsReopen := true, reopenWhy := why }

/-- `setRoot` on a failure path, where its own error is dropped. -/
def restoreRoot (old : PageRef) (s : Store) : Store :=
  match BTree.setRoot old s.tree with
  | .ok _ t => { s with tree := t }
  | .error _ t => { s with tree := t }

/-- The common failure branch of a commit. -/
def rollback (old : PageRef) (s : Store) : Store :=
  if s.renamePassed then s.requireReopen "the new MANIFEST may be visible while its durability barrier failed"
  else
    let s := s.restoreRoot old
    if s.freshOneShotTaken then
      s.requireReopen
        "the fresh-open undo policy was spent by a failed first publication (a retry would write unpinned)"
    else s

/-- The barriers of one generation and its acknowledgment. -/
def sealGeneration (m : Manifest) (undoOffset : UInt64) (undoAppend : Bytes) (recEnds : Option (List UInt64))
    (cleanup : Store → Store) : StoreM Unit := do
  onFailure (commitBarriers m undoOffset undoAppend recEnds) cleanup
  onFailure (writeAck m.generation) (requireReopen "the generation was published but its acknowledgment failed")

/-- The in-memory state of an acknowledged generation. -/
def acknowledge (s : Store) (m : Manifest) : Store :=
  { s with
    generation := m.generation, undoCommittedBytes := m.undoSize, ackGen := m.generation, ackPresent := true
    blockHash := m.blockHash, tipHeight := m.tipHeight, tree := s.tree.retireMovedToFree }

/-- The test every call starts with. -/
def guardOpen : StoreM Unit := do
  let s ← EStateM.get
  if !s.opened then fail ⟨.notOpen, s.dir⟩
  else if s.needsReopen then fail ⟨.notOpen, "store requires reopen before any further mutation: " ++ s.reopenWhy⟩
  else return

/-! ## Calls -/

/-- One operation on the pages. -/
def applyPlain (k : Key) (after : Option Coin) : TreeM Unit :=
  match after with
  | some c => BTree.put k c.encode
  | none => BTree.erase k

def applyPlainAll : List (Key × Option Coin) → TreeM Unit
  | [] => pure ()
  | (k, after) :: rest => do
    applyPlain k after
    applyPlainAll rest

/-- One operation into the overlay; answers `needFinalize`. -/
def applyOverlay (k : Key) (after : Option Coin) : TreeM Bool :=
  match after with
  | some c => BTree.overlayPut k c.encode
  | none => do
    BTree.overlayErase k
    return false

/-- A split, or the overlay's size limit, forces a finalize, after which the operation is
replayed on the pages. -/
def applyOp (k : Key) (after : Option Coin) : TreeM Unit := do
  let t ← EStateM.get
  if !t.overlayOn then applyPlain k after
  else do
    let needFin ← applyOverlay k after
    let t ← EStateM.get
    if needFin || t.overlayOverflow then do
      BTree.finalizeOverlay
      EStateM.modifyGet fun t => ((), t.beginOverlay)
      applyPlain k after
    else return

def applyOps : List (Key × Option Coin) → TreeM Unit
  | [] => pure ()
  | (k, after) :: rest => do
    applyOp k after
    applyOps rest

/-- What the operations of a delta set, in order. -/
def afters (d : Delta) : List (Key × Option Coin) := d.map fun o => (o.op.keyBytes, o.after)

/-- What undoing a delta sets: the before values, last operation first. -/
def befores (d : Delta) : List (Key × Option Coin) := d.reverse.map fun o => (o.op.keyBytes, o.before)

def onTreeState (f : BTree → BTree) (s : Store) : Store := { s with tree := f s.tree }

/-- One block, applied to the pages and committed. -/
def publish (d : Delta) (blockHash : Hash) (height : Int32) : StoreM Unit := do
  guardOpen
  let s ← EStateM.get
  let old := s.tree.root
  update (onTreeState BTree.clearRetired)
  onFailure (onTree (applyPlainAll (afters d))) (restoreRoot old)
  let s ← EStateM.get
  let recBytes := UndoRecord.encode ⟨blockHash, height, d⟩
  let m : Manifest :=
    { generation := s.generation + 1, undoSize := s.undoCommittedBytes + UInt64.ofNat recBytes.length
      rootPageId := s.tree.rootId, rootHash := s.tree.rootHash, blockHash := blockHash, tipHeight := height }
  sealGeneration m s.undoCommittedBytes recBytes none (rollback old)
  update fun s' =>
    let s' := s'.recentPush ⟨blockHash, height, s.undoCommittedBytes, UInt32.ofNat recBytes.length⟩
    { s'.acknowledge m with undoRecordCount := s'.undoRecordCount + 1 }

/-- A block of a batch. -/
structure BatchBlock where
  d : Delta
  blockHash : Hash
  height : Int32

/-- Its undo record, encoded. -/
def BatchBlock.record (b : BatchBlock) : Bytes := UndoRecord.encode ⟨b.blockHash, b.height, b.d⟩

/-- The ends of consecutive records. -/
def recordEnds : (off : UInt64) → List BatchBlock → List UInt64
  | _, [] => []
  | off, b :: rest => (off + UInt64.ofNat b.record.length) :: recordEnds (off + UInt64.ofNat b.record.length) rest

/-- Enters the records of an acknowledged batch in the bookkeeping. -/
def pushBatch : (off : UInt64) → List BatchBlock → Store → Store
  | _, [], s => s
  | off, b :: rest, s =>
    let s := s.recentPush ⟨b.blockHash, b.height, off, UInt32.ofNat b.record.length⟩
    pushBatch (off + UInt64.ofNat b.record.length) rest { s with undoRecordCount := s.undoRecordCount + 1 }

/-- The durable part of a batch whose last block is `last`. -/
def commitBatch (batch : List BatchBlock) (last : BatchBlock) (old : PageRef) : StoreM Unit := do
  let s ← EStateM.get
  let undoBuf := batch.flatMap BatchBlock.record
  let m : Manifest :=
    { generation := s.generation + 1, undoSize := s.undoCommittedBytes + UInt64.ofNat undoBuf.length
      rootPageId := s.tree.rootId, rootHash := s.tree.rootHash, blockHash := last.blockHash, tipHeight := last.height }
  sealGeneration m s.undoCommittedBytes undoBuf (some (recordEnds s.undoCommittedBytes batch))
    fun s => rollback old (onTreeState BTree.abortOverlay s)
  update fun s' => { (pushBatch s.undoCommittedBytes batch s').acknowledge m with batchOpen := false }

/-- Finalizes the overlay if one is active. -/
def finalizeActive (cleanup : Store → Store) : StoreM Unit := do
  let s ← EStateM.get
  if s.tree.overlayOn then onFailure (onTree BTree.finalizeOverlay) cleanup
  else return

/-- Two modes: with a batch open its deltas are applied already and only the durable part
runs; otherwise this call applies everything itself. -/
def publishBatch (batch : List BatchBlock) : StoreM Unit := do
  guardOpen
  match batch.getLast? with
  | none => return
  | some last =>
    let s ← EStateM.get
    if s.batchOpen then do
      -- a failure here leaves the root where the batch moved it
      finalizeActive fun s => { onTreeState BTree.abortOverlay s with batchOpen := false }
      commitBatch batch last s.batchOldRoot
    else do
      update (onTreeState fun t => t.clearRetired.beginOverlay)
      onFailure (onTree (applyOps (batch.flatMap fun b => afters b.d)))
        fun t => restoreRoot s.tree.root (onTreeState BTree.abortOverlay t)
      -- and so does a failure here
      finalizeActive (onTreeState BTree.abortOverlay)
      commitBatch batch last s.tree.root

/-- Applies one more block to the open batch, which it opens if there is none. -/
def applyBatchBlock (d : Delta) : StoreM Unit := do
  guardOpen
  update fun s =>
    if s.batchOpen then s
    else { s with batchOldRoot := s.tree.root, batchOpen := true, tree := s.tree.clearRetired.beginOverlay }
  onFailure (onTree (applyOps (afters d))) fun s =>
    { restoreRoot s.batchOldRoot (onTreeState BTree.abortOverlay s) with batchOpen := false }

/-- The last committed record, from the recent cache or, past it, from the log. -/
def lastRecord : StoreM UndoMeta := do
  let s ← EStateM.get
  match s.undoRecent.getLast? with
  | some m => return m
  | none =>
    reloadRecentFromStream
    let s ← EStateM.get
    match s.undoRecent.getLast? with
    | some m =>
      if m.offset + m.len.toUInt64 = s.undoCommittedBytes then return m
      else fail ⟨.notFound, "no committed undo to disconnect"⟩
    | none => fail ⟨.notFound, "no committed undo to disconnect"⟩

/-- Undoes a record and commits the state before it. -/
def revert (record : UndoRecord) (last : UndoMeta) (parentTipHash : Hash) : StoreM Unit := do
  let s ← EStateM.get
  let old := s.tree.root
  onFailure (onTree (applyPlainAll (befores record.ops))) (restoreRoot old)
  let s ← EStateM.get
  let m : Manifest :=
    { generation := s.generation + 1, undoSize := s.undoCommittedBytes - last.len.toUInt64
      rootPageId := s.tree.rootId, rootHash := s.tree.rootHash, blockHash := parentTipHash, tipHeight :=
        s.tipHeight - 1 }
  sealGeneration m 0 [] none (rollback old)
  update fun s => { s.acknowledge m with
    undoRecent := s.undoRecent.dropLast, undoRecordCount := s.undoRecordCount - 1 }.trimUncommittedSegments

/-- Takes the last block back. -/
def disconnect (blockHash parentTipHash : Hash) : StoreM Unit := do
  guardOpen
  update (onTreeState BTree.clearRetired)
  let last ← lastRecord
  if last.blockHash ≠ blockHash then fail ⟨.notFound, "only the most recent block can be disconnected"⟩
  else do
    let body ← csReadRange last.offset.toNat last.len.toNat
    let (record, _) ← orStop (UndoRecord.decode body body.length 0)
    revert record last parentTipHash

end
end Store
end Innova.Store3A
