import Innova.Store3A.CommitStore

/-! Opening a store (`incstore.cpp`, lines 386 to 1004): loading a manifest with its
root and undo log, choosing between primary and backup by the acknowledged generation,
and normalising the derived undo index. -/
namespace Innova.Store3A
open Lib Lib.PagedTree Chainstate

/-- `tree.dat` on disk: its whole pages, and whether a partial page follows them. -/
structure TreeFile where
  pages : PageId → Bytes
  count : Nat
  ragged : Bool

/-- A data directory nobody has open. -/
structure Dir where
  manifest : Option Bytes
  bak : Option Bytes
  ack : Option Bytes
  index : Option Bytes
  undo : Option Bytes
  tree : Option TreeFile

namespace Store

/-- A store object before `open`. -/
def unopened (path : String) (d : Dir) (ixSegmentSize : UInt32) (fileLimit : Nat) (faults : List (Option Bytes))
    (script : List Outcome) : Store where
  dir := path
  opened := false
  needsReopen := false
  reopenWhy := ""
  tree :=
    { pages := (d.tree.map TreeFile.pages).getD fun _ => [], nextId := 0, rootId := 0, rootHash := ByteArr.zero 32
      rootIsLeaf := true, rootCount := some 0, overlayOn := false, ov := ∅, overlayMax := 8192, commitRetired := []
      freeList := [], fileLimit := fileLimit, faults := faults, writes := [] }
  generation := 0
  undoCommittedBytes := 0
  ackGen := 0
  ackPresent := false
  blockHash := ByteArr.zero 32
  tipHeight := -1
  renamePassed := false
  undoSegments := []
  undoRecent := []
  undoRecordCount := 0
  ixSegmentSize := ixSegmentSize
  batchOpen := false
  batchOldRoot := ⟨0, ByteArr.zero 32⟩
  freshUndoCreate := .any
  freshOneShotTaken := false
  files :=
    { manifest := .settled d.manifest, bak := .settled d.bak, ack := .settled d.ack, index := .settled d.index
      undo := .settled d.undo, syncedPages := (d.tree.map TreeFile.pages).getD fun _ => []
      syncedNext := UInt32.ofNat ((d.tree.map TreeFile.count).getD 0), syncedWrites := 0 }
  script := script

/-- Runs `x` for its answer or its error. -/
def attempt {α : Type} (x : StoreM α) : StoreM (Except ChainError α) := fun s =>
  match x s with
  | .ok a t => .ok (.ok a) t
  | .error (.failed e) t => .ok (.error e) t
  | .error .crashed t => .error .crashed t

def truncateTail (f : TreeFile) : StoreM Unit :=
  if f.ragged then do
    syscall ⟨.fs, "truncate partial tree tail"⟩
    syscall ⟨.fs, "fsync after tail truncate"⟩
  else return

/-- Opens `tree.dat`, dropping a partial trailing page. -/
def openTree (d : Dir) : StoreM Unit := do
  let s ← EStateM.get
  match d.tree with
  | none => fail ⟨.io, "open tree " ++ s.p "tree.dat"⟩
  | some f =>
    syscall ⟨.io, "open tree " ++ s.p "tree.dat"⟩
    truncateTail f
    if f.count = 0 then fail (corrupt "tree file empty/invalid")
    else update (onTreeState fun t => { t with nextId := UInt32.ofNat f.count, freeList := [], commitRetired := [] })

/-! ## Loading the undo log -/

def forgetUndo (s : Store) : Store :=
  { s with undoSegments := [], undoRecent := [], undoRecordCount := 0 }

/-- One record of the authoritative scan. -/
def scanned (m : UndoMeta) (s : Store) : Store :=
  let s := s.recentPush m
  let off := m.offset + m.len.toUInt64
  let count := s.undoRecordCount + 1
  { s with
    undoRecordCount := count
    undoSegments := if count.toNat % s.segmentSize = 0 then s.undoSegments ++
      [⟨s.segmentEnd, off⟩] else s.undoSegments }

/-- Whether the index on disk describes exactly a committed prefix of closed segments. -/
def usableIndex (s : Store) (undoSize : UInt64) (ix : UndoIndex) : Bool :=
  ix.formatVersion = 1 && ix.segmentSize = s.ixSegmentSize && ix.baseOffset = 0 && !ix.segments.isEmpty &&
    ix.committedBytes ≤ undoSize && ix.committedBytes = UndoIndex.reached 0 ix.segments &&
    ix.segments.all (fun g => g.recordCount = ix.segmentSize) && chained 0 ix.segments
where
  chained : UInt64 → List UndoSegment → Bool
    | _, [] => true
    | cur, g :: rest => g.startOffset = cur && g.startOffset < g.endOffset && chained g.endOffset rest

/-- Reads the headers of `[off, limit)` into a list, giving up when `bound` of them are found. -/
def collectHeaders (limit : UInt64) : (bound : Nat) → (off : UInt64) → (found : List UndoMeta) → StoreM (List UndoMeta)
  | 0, _, _ => fail (corrupt "index covers fewer records than committed (stale)")
  | bound + 1, off, found =>
    if off < limit then
      if limit < off + 52 then fail (corrupt "undo header crosses committed length")
      else do
        let hdr ← csReadRange off.toNat 52
        let m ← orStop (undoHeaderAt true hdr off limit)
        collectHeaders limit bound (off + m.len.toUInt64) (found ++ [m])
    else if off = limit then return found
    else fail (corrupt "undo.dat committed length mismatch")

/-- Parses the records wholly contained in `buf`, which starts at `base`. -/
def parseUndoRecords (buf : Bytes) (base : UInt64) : (fuel : Nat) → (off : Nat) → Except ChainError (List UndoMeta)
  | 0, _ => .error ⟨.internal, "recursion without end"⟩
  | fuel + 1, off =>
    if off < buf.length then do
      let m ← undoHeaderAt true (buf.drop off) (base + UInt64.ofNat off) (base + UInt64.ofNat buf.length)
      return m :: (← parseUndoRecords buf base fuel (off + m.len.toNat))
    else return []

/-- Takes in one closed segment of the recent window, which has to hold exactly a segment's records. -/
def loadSegment (size : Nat) (g : CommittedSegment) : StoreM Unit := do
  let span := (g.endOffset - g.startOffset).toNat
  -- longer spans are walked header by header in the source, with the same result
  let buf ← csReadRange g.startOffset.toNat span
  let metas ← orStop (parseUndoRecords buf g.startOffset (span + 1) 0)
  if metas.length != size then fail (corrupt "segment record count mismatch")
  else update fun s => metas.foldl recentPush s

def loadSegments (size : Nat) : List CommittedSegment → StoreM Unit
  | [] => pure ()
  | g :: rest => do
    loadSegment size g
    loadSegments size rest

/-- Startup from the index: parses the uncovered tail and the trailing closed segments
the recent cache has room for. -/
def loadUndoForIndexed (undoSize : UInt64) (ix : UndoIndex) : StoreM Unit := do
  let size := ix.segmentSize.toNat
  let segments := ix.segments.map fun g => (⟨g.startOffset, g.endOffset⟩ : CommittedSegment)
  update fun s => { s with
    undoSegments := segments, undoRecent := [], undoRecordCount := UInt64.ofNat (ix.segments.length * size) }
  -- a current index leaves a tail of fewer records than a segment has
  let tail ← collectHeaders undoSize size ix.committedBytes []
  update fun s => { s with undoRecordCount := s.undoRecordCount + UInt64.ofNat tail.length }
  let want := if 3 * size > tail.length then (3 * size - tail.length + size - 1) / size else 0
  loadSegments size (segments.drop (segments.length - want))
  update fun s => { tail.foldl recentPush s with undoCommittedBytes := undoSize }

/-- Whether the log could be loaded from the index. Declining is not a failure. -/
def loadFast (undoSize : UInt64) : StoreM Bool := do
  let s ← EStateM.get
  match s.files.index.cur.map UndoIndex.decode with
  | some (.ok ix) =>
    if s.usableIndex undoSize ix then
      match ← attempt (loadUndoForIndexed undoSize ix) with
      | .ok _ => return true
      | .error _ => return false
    else return false
  | _ => return false

/-- The authoritative scan of the committed log. -/
def scanUndo (undoSize : UInt64) : StoreM Unit := do
  update fun s => { s.forgetUndo with undoCommittedBytes := 0 }
  walkHeaders false undoSize scanned (undoSize.toNat + 1) 0
  update fun s => { s with undoCommittedBytes := undoSize }

/-- Loads the undo log of a manifest: from the index when it is current, otherwise, and
whenever that declines, by the scan. -/
def loadUndoFor (m : Manifest) : StoreM Unit := do
  update fun s => { s.forgetUndo with undoCommittedBytes := 0 }
  if m.undoSize = 0 then return
  else do
    let s ← EStateM.get
    if s.files.undo.cur.isNone then
      fail (corrupt ("undo.dat missing but undoSize=" ++ toString m.undoSize.toNat))
    else do
      match ← loadFast m.undoSize with
      | true => return
      | false => scanUndo m.undoSize

/-! ## Normalising the undo index -/

/-- A structurally invalid index is refused; one that describes another prefix than the
committed one is rewritten. -/
def classifyAndNormalizeUndoIndex : StoreM Unit := do
  let s ← EStateM.get
  syscall ⟨.io, "open " ++ s.p "UNDOINDEX"⟩
  let expected := s.buildUndoIndexFromSegments
  match s.files.index.cur with
  | none =>
    if expected.segments.isEmpty then return
    else do
      publishUndoIndex expected
      csFsyncDir
  | some raw =>
    let onDisk ← orStop (UndoIndex.decode raw)
    if onDisk.segmentSize = expected.segmentSize && onDisk.committedBytes = expected.committedBytes &&
        onDisk.segments = expected.segments then return
    else do
      publishUndoIndex expected
      csFsyncDir

/-! ## Opening -/

section
variable [Digest]

/-- Loads a manifest with the root and the undo log it names. -/
def tryLoadManifest (d : Dir) (bytes : Bytes) : StoreM Manifest := do
  let m ← orStop (Manifest.decode bytes)
  openTree d
  onTree (BTree.setRoot m.root)
  loadUndoFor m
  update fun s => { s with generation := m.generation, blockHash := m.blockHash, tipHeight := m.tipHeight }
  return m

def publishInitialGeneration : StoreM Unit := do
  fsyncTree
  let s ← EStateM.get
  let m0 : Manifest :=
    { generation := 0, undoSize := 0, rootPageId := s.tree.rootId, rootHash := s.tree.rootHash
      blockHash := ByteArr.zero 32, tipHeight := -1 }
  csWriteFile "MANIFEST.tmp"
  syscall ⟨.fs, "rename initial MANIFEST"⟩
  update fun s => { s with files := { s.files with manifest := s.files.manifest.replace (some m0.encode) } }
  csFsyncDir
  writeAck 0
  update fun s => { s with generation := 0, ackGen := 0, ackPresent := true }

/-- The empty tree of a new store: created, or adopted when `tree.dat` is exactly that. -/
def adoptTree (d : Dir) : StoreM Unit := do
  match d.tree with
  | none =>
    syscall ⟨.io, "create tree"⟩
    update (onTreeState fun t => BTree.create t.fileLimit t.faults)
  | some f =>
    openTree d
    if f.count != 1 then
      fail (corrupt ("existing tree.dat holds " ++ toString f.count ++
        " pages (prior store data) while MANIFEST/ACK are absent; refusing to present it as fresh genesis"))
    else
      match decodeNode (f.pages 0) with
      | .ok (.leaf []) =>
        update (onTreeState fun t =>
          { t with rootId := 0, rootHash := leafHash [], rootIsLeaf := true, rootCount := some 0 })
      | .ok _ => fail (corrupt "existing tree.dat is not an empty store; refusing to present it as fresh genesis")
      | .error e => fail (corrupt ("existing tree.dat page 0 is unusable: " ++ e.msg))

/-- What of an older store a directory without manifest still holds. -/
def evidence (s : Store) (d : Dir) : Option ChainError :=
  if s.ackPresent then
    some (corrupt ("ACK present (generation " ++ toString s.ackGen.toNat ++
      ") but MANIFEST is missing; refusing to infer a fresh store"))
  else if d.bak.isSome then
    some (corrupt ("MANIFEST is missing but MANIFEST.bak exists (prior store evidence); " ++
      "refusing to infer a fresh store"))
  else if d.tree.any fun f => f.count = 0 || f.ragged then
    some (corrupt "existing tree.dat without MANIFEST/ACK is not a whole-page image; refusing to truncate or recreate")
  else
    match d.undo with
    | some (_ :: _) =>
      some (corrupt ("existing undo.dat holds undo log without MANIFEST/ACK (prior-store evidence); " ++
        "refusing to overwrite the orphan log"))
    | _ => none

/-- No manifest: a new store, unless anything is left of an older one. -/
def openFresh (d : Dir) : StoreM Unit := do
  let s ← EStateM.get
  match s.evidence d with
  | some e => fail e
  | none => do
    update fun s => { s with freshUndoCreate := if d.undo.isNone then .requireAbsent else .requireExisting }
    adoptTree d
    update fun s => { s.forgetUndo with
      generation := 0, undoCommittedBytes := 0, blockHash := ByteArr.zero 32, tipHeight := -1 }
    publishInitialGeneration

/-- Whether the generation of the primary manifest is the acknowledged one or the next. -/
def primaryRefused (s : Store) (pg : UInt64) : Option ChainError :=
  if s.ackPresent then
    if pg < s.ackGen then
      some (corrupt ("FAIL-CLOSED: primary generation " ++ toString pg.toNat ++
        " is OLDER than acknowledged generation " ++
        toString s.ackGen.toNat ++ " (rollback of acknowledged state refused)"))
    else if s.ackGen + 1 < pg then
      some (corrupt ("primary generation " ++ toString pg.toNat ++ " ahead of acknowledged generation " ++
        toString s.ackGen.toNat))
    else none
  else if pg != 0 then some (corrupt ("acknowledgment evidence missing for generation " ++ toString pg.toNat))
  else none

/-- The primary manifest loads; its acknowledgment is completed when it is the next generation. -/
def acceptPrimary (pg : UInt64) : StoreM Unit := do
  let s ← EStateM.get
  match s.primaryRefused pg with
  | some e => fail e
  | none =>
    if !s.ackPresent || s.ackGen < pg then do
      writeAck pg
      update fun s => { s with ackGen := pg, ackPresent := true }
    else return

/-- Whether the generation of the backup is the acknowledged one. -/
def backupRefused (s : Store) (bg : UInt64) : Option ChainError :=
  if !s.ackPresent then some (corrupt "cannot classify corrupt primary: no acknowledgment evidence")
  else if bg < s.ackGen then
    some (corrupt ("FAIL-LOUD: acknowledged generation " ++ toString s.ackGen.toNat ++
      " is corrupt/unloadable; refusing silent rollback to generation " ++ toString bg.toNat))
  else if s.ackGen < bg then
    some (corrupt ("inconsistent acknowledgment(" ++ toString s.ackGen.toNat ++ ") vs backup(" ++ toString bg.toNat ++
      ") generations"))
  else none

def loadBackup (d : Dir) : StoreM Manifest :=
  match d.bak with
  | some bytes => tryLoadManifest d bytes
  | none => fail ⟨.ok, ""⟩

/-- The primary does not load: the backup stands in when it is the acknowledged generation. -/
def recoverBackup (d : Dir) (why : ChainError) : StoreM Unit := do
  match ← attempt (loadBackup d) with
  | .error _ =>
    fail ⟨if why.code = .ok then .corrupt else why.code, "primary corrupt and no valid backup: " ++ why.msg⟩
  | .ok bm =>
    let s ← EStateM.get
    match s.backupRefused bm.generation with
    | some e => fail e
    | none => do
      -- the repair rewrites the live file in place
      update fun s => { s with files := { s.files with manifest := s.files.manifest.disturb d.bak (fun _ => True) } }
      csWriteFile "MANIFEST"
      update fun s => { s with files := { s.files with manifest := s.files.manifest.sync } }
      csFsyncDir

def readAck (d : Dir) : StoreM Unit :=
  match d.ack with
  | none => update fun s => { s with ackPresent := false, ackGen := 0 }
  | some b => do
    let gen ← orStop (parseAck b)
    update fun s => { s with ackPresent := true, ackGen := gen }

/-- The primary manifest, or the backup in its place. -/
def standIn (d : Dir) : Except ChainError Manifest → StoreM Unit
  | .ok m => acceptPrimary m.generation
  | .error why => recoverBackup d why

def openExisting (d : Dir) (bytes : Bytes) : StoreM Unit := do
  let primary ← attempt (tryLoadManifest d bytes)
  standIn d primary
  classifyAndNormalizeUndoIndex

def loadDir (d : Dir) : StoreM Unit :=
  match d.manifest with
  | none => openFresh d
  | some bytes => openExisting d bytes

def openStore (d : Dir) : StoreM Unit := do
  let s ← EStateM.get
  if s.opened then fail ⟨.alreadyOpen, s.dir⟩
  else do
    syscall ⟨.io, "open LOCK"⟩
    syscall ⟨.locked, "another writer holds LOCK"⟩
    readAck d
    loadDir d
    update fun s => { s with opened := true, needsReopen := false, reopenWhy := "", freshOneShotTaken := false }

/-! ## Crashes -/

/-- What a crash may leave of the data directory. A page that was not written since the
last fsync is as that fsync left it; any other page may hold anything. -/
structure Survives (s : Store) (d : Dir) : Prop where
  manifest : s.files.manifest.Leaves d.manifest
  bak : s.files.bak.Leaves d.bak
  ack : s.files.ack.Leaves d.ack
  index : s.files.index.Leaves d.index
  undo : s.files.undo.Leaves d.undo
  tree : ∃ f, d.tree = some f ∧ s.files.syncedNext.toNat ≤ f.count ∧ f.count ≤ s.tree.fileLimit ∧
    ∀ id < s.files.syncedNext, id ∉ Files.unsynced s.files s.tree → f.pages id = s.files.syncedPages id

/-! ## Runs of one store object -/

/-- The mutating calls. -/
inductive Call where
  | publish (d : Delta) (blockHash : Hash) (height : Int32)
  | applyBatchBlock (d : Delta)
  | publishBatch (batch : List BatchBlock)
  | disconnect (blockHash parentTipHash : Hash)

def Call.run : Call → StoreM Unit
  | publish d blockHash height => Store.publish d blockHash height
  | applyBatchBlock d => Store.applyBatchBlock d
  | publishBatch batch => Store.publishBatch batch
  | disconnect blockHash parentTipHash => Store.disconnect blockHash parentTipHash

/-- Whether a call that succeeds has acknowledged a generation. -/
def Call.acknowledges : Call → Bool
  | publish .. | disconnect .. => true
  | applyBatchBlock _ => false
  | publishBatch batch => !batch.isEmpty

/-- The root the manifest file names. -/
def manifestRoot (s : Store) : Option PageRef :=
  s.files.manifest.cur.bind fun b => (Manifest.decode b).toOption.map Manifest.root

/-- `open` of `d` returned `s`. -/
def Opened (d : Dir) (limit : Nat) (s : Store) : Prop :=
  ∃ path ixSegmentSize faults script, openStore d (unopened path d ixSegmentSize limit faults script) = .ok () s

/-- The states of one store object and the roots of their last acknowledged manifests.
Every call meets `can`, and calls may follow one that failed. -/
inductive Run (can : Store → Call → Prop) (d : Dir) (limit : Nat) : Store → PageRef → Prop where
  | opened {s : Store} (opened : Opened d limit s) : Run can d limit s s.tree.root
  | acknowledged {s s' : Store} {acked acked' : PageRef} {c : Call} (before : Run can d limit s acked) (may : can s c)
      (ran : c.run s = .ok () s') (acks : c.acknowledges = true) (named : s'.manifestRoot = some acked') :
      Run can d limit s' acked'
  | unacknowledged {s s' : Store} {acked : PageRef} {c : Call} (before : Run can d limit s acked) (may : can s c)
      (ran : c.run s = .ok () s') (acks : c.acknowledges = false) : Run can d limit s' acked
  | failed {s s' : Store} {acked : PageRef} {c : Call} {e : ChainError} (before : Run can d limit s acked)
    (may : can s c)
      (ran : c.run s = .error (.failed e) s') : Run can d limit s' acked

end
end Store
end Innova.Store3A
