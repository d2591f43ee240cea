import Innova.Store3A.FastLoad
import Innova.Store3A.UndoCalls

/-! Opening, on the undo side: the books are those of the log that the loaded manifest
names, as long as a usable index on disk is current. -/
namespace Innova.Store3A
open Lib Chainstate
open scoped List

namespace Store
open UndoLog

variable {s : Store} {m : Manifest} {log : List UndoRecord}

/-! ## Loading a log -/

/-- Everything but the undo bookkeeping and the script. -/
def outline (s : Store) : Store :=
  { s with undoSegments := [], undoRecent := [], undoRecordCount := 0, undoCommittedBytes := 0, script := [] }

private theorem outline_bookkept (c : Store) : Bookkept (fun s => outline s = c) := ⟨fun _ => id, fun _ _ _ _ _ => id⟩

/-- A store with the books of a log is determined by its outline. -/
theorem booked_congr (same : outline t = outline s) (log : List UndoRecord) (committed : UInt64) (rest : List Outcome) :
    { t.booked log with undoCommittedBytes := committed, script := rest } =
      { s.booked log with undoCommittedBytes := committed, script := rest } := by
  show ({ (outline t).booked log with undoCommittedBytes := committed, script := rest } : Store) =
    { (outline s).booked log with undoCommittedBytes := committed, script := rest }
  rw [same]

/-- A usable index lists the closed segments of the log. -/
def Lists (s : Store) (undoSize : UInt64) (log : List UndoRecord) : Prop :=
  ∀ ix, s.files.index.cur.map UndoIndex.decode = some (.ok ix) → s.usableIndex undoSize ix = true →
    listedBy ix = closedSegments s.segmentSize log

section
variable (logs : m.Logs log) (logged : Logged log s.files.undo.cur) (lists : Lists s m.undoSize log)
include logs logged lists

private theorem loadFast_books :
    Ends (loadFast m.undoSize) s (fun fast t => outline t = outline s ∧
        (fast = true → ∃ rest, t = { s.booked log with undoCommittedBytes := m.undoSize, script := rest }))
      (fun _ t => outline t = outline s) := by
  have kept := (outline_bookkept (outline s)).loadFast m.undoSize s rfl
  refine (kept.and (loadFast_spec m.undoSize s)).mono ?_ fun _ _ => And.left
  rintro fast t ⟨same, found⟩
  refine ⟨same, fun yes => ?_⟩
  obtain ⟨ix, decoded, usable, ran⟩ := found yes
  obtain ⟨size, committed⟩ := segmentSize_of_usable usable ran
  have nonempty : log ≠ [] := by
    rintro rfl
    exact undoSize_of_usable usable (UInt64.toNat_inj.mp logs.undoSize)
  obtain ⟨rest, file⟩ := logged.resolve_left nonempty
  exact (loadUndoForIndexed_spec file ⟨[], rest, rfl, rfl⟩ logs.countable.records logs.undoSize.symm size committed
    (lists ix decoded usable)).of_ok ran

private theorem loadUndoFor_books :
    Ends (loadUndoFor m) s
      (fun _ t => ∃ rest, t = { s.booked log with undoCommittedBytes := m.undoSize, script := rest })
      (fun _ t => outline t = outline s) := by
  refine ends_update_then ?_
  split
  · next zero =>
    have empty : log = [] := by
      have size := logs.undoSize
      rw [zero] at size
      exact bytes_eq_nil.mp (List.length_eq_zero_iff.mp size.symm)
    refine ends_pure.mpr ⟨s.script, ?_⟩
    rw [empty, booked_nil, zero]
    rfl
  · refine Ends.get ?_
    split
    · exact rfl
    · next present =>
      refine (loadFast_books (s := { s.forgetUndo with undoCommittedBytes := 0 }) logs logged lists).seqMono ?_
        fun _ _ same => same
      rintro fast t ⟨same, loaded⟩
      split
      · obtain ⟨rest, rfl⟩ := loaded rfl
        exact ends_pure.mpr ⟨rest, booked_congr (s := s) rfl log _ rest⟩
      · have same : outline t = outline s := same
        have files : t.files = s.files := show (outline t).files = (outline s).files by rw [same]
        obtain ⟨file, found⟩ : ∃ file, t.files.undo.cur = some file := by
          rw [files]
          exact Option.ne_none_iff_exists'.mp (by simpa using (show ¬s.files.undo.cur.isNone = true from present))
        have laid : Bytes.Laid file 0 (bytes log) := by
          rw [← files, found] at logged
          rcases logged with rfl | ⟨rest, whole⟩
          · exact ⟨[], file, by simp, rfl⟩
          · exact ⟨[], rest, Option.some.inj whole, rfl⟩
        have kept := (outline_bookkept (outline t)).scanUndo m.undoSize t rfl
        refine ((scanUndo_spec found laid logs.countable.records logs.undoSize.symm).and kept).mono ?_ ?_
        · rintro _ _ ⟨⟨rest, rfl⟩, -⟩
          exact ⟨rest, booked_congr same log _ rest⟩
        · rintro _ _ ⟨-, later⟩
          exact later.trans same

end

/-! ## The rest of the store -/

/-- The files of the undo side, and what is fixed while a store is opened. -/
def undoFiles (s : Store) : (Option Bytes × Option Bytes × Option Bytes × Option Bytes) × UInt32 × Bool × Bool :=
  ((s.files.manifest.cur, s.files.bak.cur, s.files.index.cur, s.files.undo.cur), s.ixSegmentSize, s.opened, s.batchOpen)

/-- With the books: what opening does besides loading the log leaves this alone. -/
def undoView (s : Store) :
    ((Option Bytes × Option Bytes × Option Bytes × Option Bytes) × UInt32 × Bool × Bool) × UInt64 ×
    List CommittedSegment × List UndoMeta × UInt64 :=
  (undoFiles s, s.undoCommittedBytes, s.undoSegments, s.undoRecent, s.undoRecordCount)

/-- A store that is being opened. -/
structure Shut (s : Store) : Prop where
  filed : Filed s.files
  closed : s.opened = false
  idle : s.batchOpen = false

/-- Its books are those of a log. -/
structure Loads (s : Store) (log : List UndoRecord) : Prop extends Exact s log where
  count : s.undoRecordCount = UInt64.ofNat log.length
  recent : s.undoRecent <+ entries 0 log

/-- Whichever manifest is loaded, a usable index is current. -/
def IndexCurrent (s : Store) : Prop :=
  ∀ (m : Manifest) log, (s.files.manifest.cur = some m.encode ∨ s.files.bak.cur = some m.encode) → m.Logs log →
    Logged log s.files.undo.cur → Lists s m.undoSize log

theorem Shut.directory (shut : Shut s) : Directory s :=
  ⟨shut.filed, shut.idle, fun opened => absurd (shut.closed.symm.trans opened) (by decide)⟩

private theorem Shut.congr (shut : Shut s) (same : undoFiles t = undoFiles s) : Shut t := by
  simp only [undoFiles, Prod.mk.injEq] at same
  obtain ⟨⟨manifest, bak, index, undo⟩, -, opened, batch⟩ := same
  exact ⟨shut.filed.congr manifest bak index undo, opened.trans shut.closed, batch.trans shut.idle⟩

private theorem IndexCurrent.congr (current : IndexCurrent s) (same : undoFiles t = undoFiles s) : IndexCurrent t := by
  simp only [undoFiles, Prod.mk.injEq] at same
  obtain ⟨⟨manifest, bak, index, undo⟩, size, -, -⟩ := same
  intro m log named logs logged ix decoded usable
  have usable : s.usableIndex m.undoSize ix = true := by rwa [usableIndex, size] at usable
  rw [manifest, bak] at named
  rw [undo] at logged
  rw [index] at decoded
  rw [segmentSize, size]
  exact current m log named logs logged ix decoded usable

private theorem Loads.congr (loads : Loads s log) (same : undoView t = undoView s) : Loads t log := by
  simp only [undoView, undoFiles, Prod.mk.injEq] at same
  obtain ⟨⟨⟨-, -, -, undo⟩, size, -, -⟩, committed, segments, recent, count⟩ := same
  exact ⟨loads.toExact.congr committed segments size (by rw [undo]; exact loads.logged), count.trans loads.count,
    by rw [recent]; exact loads.recent⟩

private theorem undoFiles_of_view (same : undoView t = undoView s) : undoFiles t = undoFiles s := congrArg Prod.fst same

private theorem undoFiles_of_outline (same : outline t = outline s) : undoFiles t = undoFiles s := by
  show undoFiles (outline t) = undoFiles (outline s)
  rw [same]

private theorem undoView_syscall (e : ChainError) : Keeps undoView (syscall e) := keeps_syscall (fun _ _ => rfl) e

private theorem undoView_csFsyncDir : Keeps undoView csFsyncDir :=
  .bind keeps_get fun _ => .bind (undoView_syscall _) fun _ => .bind (undoView_syscall _) fun _ =>
    keeps_update fun _ => rfl

private theorem undoView_csWriteFile (name : String) : Keeps undoView (csWriteFile name) :=
  .bind keeps_get fun _ => .bind (undoView_syscall _) fun _ => .bind (undoView_syscall _) fun _ =>
    .bind (undoView_syscall _) fun _ => undoView_syscall _

private theorem undoView_writeAck (gen : UInt64) : Keeps undoView (writeAck gen) :=
  .bind (undoView_csWriteFile _) fun _ => .bind (undoView_syscall _) fun _ => .bind (keeps_update fun _ => rfl) fun _ =>
    undoView_csFsyncDir

private theorem undoView_onTree {α : Type} (x : TreeM α) : Keeps undoView (onTree x) := by
  intro s
  unfold Ends onTree
  cases x s.tree <;> rfl

private theorem undoView_openTree (d : Dir) : Keeps undoView (openTree d) := by
  refine .bind keeps_get fun s => ?_
  split
  · exact keeps_fail
  · next f _ =>
    refine .bind (undoView_syscall _) fun _ => .bind ?_ fun _ => ?_
    · unfold truncateTail
      split
      · exact .bind (undoView_syscall _) fun _ => undoView_syscall _
      · exact keeps_pure
    · split
      · exact keeps_fail
      · exact keeps_update fun _ => rfl

private theorem undoView_readAck (d : Dir) : Keeps undoView (readAck d) := by
  unfold readAck
  split
  · exact keeps_update fun _ => rfl
  · exact .bind (keeps_orStop _) fun _ => keeps_update fun _ => rfl

private theorem undoView_acceptPrimary (pg : UInt64) : Keeps undoView (acceptPrimary pg) := by
  refine .bind keeps_get fun s => ?_
  split
  · exact keeps_fail
  · split
    · exact .bind (undoView_writeAck _) fun _ => keeps_update fun _ => rfl
    · exact keeps_pure

/-! ## Opening -/

section Open
variable [Digest]

/-- A manifest that loads leaves the books of its log. -/
theorem tryLoadManifest_books (shut : Shut s) (current : IndexCurrent s)
    (named : s.files.manifest.cur = some raw ∨ s.files.bak.cur = some raw) : Ends (tryLoadManifest d raw) s
      (fun _ t => undoFiles t = undoFiles s ∧ ∃ (m : Manifest) (log : List UndoRecord), raw = m.encode ∧
        m.Logs log ∧ Loads t log)
      (fun _ t => undoFiles t = undoFiles s) := by
  obtain ⟨m, log, rfl, logs, logged⟩ : Described s.files.undo.cur raw :=
    named.elim (shut.filed.manifest raw) (shut.filed.bak raw)
  unfold tryLoadManifest
  rw [m.decode_encode logs.version]
  refine Ends.bind (ends_pure.mpr ((undoView_openTree d s).seqMono ?_ fun _ _ => undoFiles_of_view))
  intro _ s1 first
  refine (undoView_onTree _ s1).seqMono ?_ fun _ _ later => undoFiles_of_view (later.trans first)
  intro _ s2 second
  have same : undoFiles s2 = undoFiles s := undoFiles_of_view (second.trans first)
  have undo : s2.files.undo.cur = s.files.undo.cur := congrArg (fun v => v.1.2.2.2) same
  have lists : Lists s2 m.undoSize log := by
    have manifest : s2.files.manifest.cur = s.files.manifest.cur := congrArg (fun v => v.1.1) same
    have bak : s2.files.bak.cur = s.files.bak.cur := congrArg (fun v => v.1.2.1) same
    exact current.congr same m log (by rw [manifest, bak]; exact named) logs (by rw [undo]; exact logged)
  refine (loadUndoFor_books logs (by rw [undo]; exact logged) lists).seqMono ?_ fun _ _ later =>
    (undoFiles_of_outline later).trans same
  rintro _ _ ⟨rest, rfl⟩
  refine ends_update_then (ends_pure.mpr ⟨same, m, log, rfl, logs, ⟨logs.countable, logs.undoSize, ?_, rfl⟩, rfl, ?_⟩)
  · show Logged log s2.files.undo.cur
    rw [undo]
    exact logged
  · exact List.drop_sublist _ _

/-- Loaded, with the manifest that names the log in place. -/
structure Settled (s : Store) (log : List UndoRecord) : Prop where
  shut : Shut s
  loads : Loads s log
  current : ∃ m : Manifest, s.files.manifest.cur = some m.encode ∧ m.Logs log

omit [Digest] in
private theorem Settled.congr (settled : Settled s log) (same : undoView t = undoView s) : Settled t log := by
  refine ⟨settled.shut.congr (undoFiles_of_view same), settled.loads.congr same, ?_⟩
  have manifest : t.files.manifest.cur = s.files.manifest.cur := congrArg (fun v => v.1.1.1) same
  rw [manifest]
  exact settled.current

omit [Digest] in
/-- A manifest put in place of the one on disk. -/
theorem Shut.renamed (shut : Shut s) (loads : Loads s log) (logs : m.Logs log) (manifest : Durable (Option Bytes))
    (named : manifest.cur = some m.encode) : Settled { s with files := { s.files with manifest := manifest } } log := by
  refine ⟨⟨⟨fun raw same => ?_, shut.filed.bak, shut.filed.index⟩, shut.closed, shut.idle⟩,
    ⟨⟨loads.countable, loads.committed, loads.logged, loads.segments⟩, loads.count, loads.recent⟩, m, named, logs⟩
  rw [named] at same
  exact Option.some.inj same ▸ ⟨m, log, rfl, logs, loads.logged⟩

omit [Digest] in
private theorem publishInitialGeneration_books (shut : Shut s) (loads : Loads s []) :
    Ends publishInitialGeneration s (fun _ t => Settled t []) (fun _ t => Shut t) := by
  have synced : Keeps undoView fsyncTree := .bind (undoView_syscall _) fun _ => keeps_update fun _ => rfl
  refine (synced s).seqMono ?_ fun _ _ same => shut.congr (undoFiles_of_view same)
  intro _ s1 first
  refine Ends.get ((undoView_csWriteFile _ s1).seqMono ?_ fun _ _ same =>
    shut.congr (undoFiles_of_view (same.trans first)))
  intro _ s2 second
  refine (undoView_syscall _ s2).seqMono ?_ fun _ _ same =>
    shut.congr (undoFiles_of_view (same.trans (second.trans first)))
  intro _ s3 third
  have same := third.trans (second.trans first)
  let m0 : Manifest :=
    { generation := 0, undoSize := 0, rootPageId := s1.tree.rootId, rootHash := s1.tree.rootHash
      blockHash := ByteArr.zero 32, tipHeight := -1 }
  have settled := (shut.congr (undoFiles_of_view same)).renamed (loads.congr same)
    (m := m0) ⟨rfl, rfl, by simp, by simp⟩ (s3.files.manifest.replace (some m0.encode)) rfl
  refine ends_update_then ((undoView_csFsyncDir _).seqMono ?_ fun _ _ same =>
    settled.shut.congr (undoFiles_of_view same))
  intro _ s4 fourth
  refine (undoView_writeAck _ s4).seqMono ?_ fun _ _ same =>
    settled.shut.congr (undoFiles_of_view (same.trans fourth))
  intro _ s5 fifth
  exact ends_update.mpr ((settled.congr (fifth.trans fourth)).congr rfl)

private theorem undoView_adoptTree (d : Dir) : Keeps undoView (adoptTree d) := by
  unfold adoptTree
  split
  · exact .bind (undoView_syscall _) fun _ => keeps_update fun _ => rfl
  · refine .bind (undoView_openTree d) fun _ => ?_
    split
    · exact keeps_fail
    · split
      · exact keeps_update fun _ => rfl
      · exact keeps_fail
      · exact keeps_fail

private theorem openFresh_books (shut : Shut s) :
    Ends (openFresh d) s (fun _ t => Settled t []) (fun _ t => Shut t) := by
  refine Ends.get ?_
  split
  · exact shut
  · refine ends_update_then ((undoView_adoptTree d _).seqMono ?_ fun _ _ same =>
      shut.congr (undoFiles_of_view same))
    intro _ s1 same
    have shut1 : Shut s1 := shut.congr (undoFiles_of_view same)
    refine ends_update_then (publishInitialGeneration_books ⟨shut1.filed, shut1.closed, shut1.idle⟩ ?_)
    exact ⟨⟨⟨by simp, by simp⟩, rfl, .inl rfl, (closedSegments_nil _).symm⟩, rfl, List.nil_sublist _⟩

private theorem recoverBackup_books (shut : Shut s) (current : IndexCurrent s)
    (same : d.bak = s.files.bak.cur) (why : ChainError) :
    Ends (recoverBackup d why) s (fun _ t => ∃ log, Settled t log) (fun _ t => Shut t) := by
  have backup : Ends (loadBackup d) s
      (fun _ t => undoFiles t = undoFiles s ∧ ∃ (m : Manifest) (log : List UndoRecord),
        d.bak = some m.encode ∧ m.Logs log ∧ Loads t log)
      (fun _ t => undoFiles t = undoFiles s) := by
    unfold loadBackup
    split
    · next raw named =>
      refine (tryLoadManifest_books shut current (.inr (same.symm.trans named))).imp ?_
      rintro _ t ⟨files, m, log, rfl, logs, loads⟩
      exact ⟨files, m, log, named, logs, loads⟩
    · exact rfl
  refine (ends_attempt backup).seqMono ?_ fun _ _ files => shut.congr files
  intro answer s1 held
  split
  · exact shut.congr held
  · obtain ⟨files, m, log, named, logs, loads⟩ := held
    have shut1 : Shut s1 := shut.congr files
    refine Ends.get ?_
    split
    · exact shut1
    · have settled := shut1.renamed loads logs (s1.files.manifest.disturb d.bak fun _ => True) named
      refine (undoView_csWriteFile _ _).seqMono ?_ fun _ _ later => settled.shut.congr (undoFiles_of_view later)
      intro _ s2 second
      refine ends_update_then ((undoView_csFsyncDir _).mono ?_ fun _ _ later => ?_)
      · intro _ s3 third
        exact ⟨log, (settled.congr second).congr third⟩
      · exact (settled.congr second).shut.congr (undoFiles_of_view later)

omit [Digest] in
/-- The index the books stand for can be read. -/
theorem Loads.readable (loads : Loads s log) : Readable (some s.buildUndoIndexFromSegments.encode) := by
  have same : s.freshIndex [] = s.buildUndoIndexFromSegments := by
    rw [freshIndex, List.append_nil]
  rw [← same]
  refine freshIndex_readable ?_ ?_
  · rw [List.append_nil, loads.segments]
    exact closedSegments_chained _ loads.total
  · rw [List.append_nil, loads.segments, closedSegments_length]
    exact lt_of_le_of_lt (Nat.div_le_self _ _) loads.countable.count

omit [Digest] in
private theorem classifyAndNormalizeUndoIndex_books (settled : Settled s log) :
    Ends classifyAndNormalizeUndoIndex s (fun _ t => Settled t log) (fun _ t => Shut t) := by
  have readable := settled.loads.readable
  have republish (t : Store) (same : undoView t = undoView s) :
      Ends (do publishUndoIndex s.buildUndoIndexFromSegments; csFsyncDir) t (fun _ t => Settled t log)
        (fun _ t => Shut t) := by
    have settled := settled.congr same
    have loads := settled.loads
    refine Ends.bind (ends_rename_counted (x := pure ()) ?_ fun _ _ _ => settled.shut.congr rfl)
    have replaced : Settled { t with
        script := t.script.drop 5, files :=
          { t.files with index := t.files.index.replace (some s.buildUndoIndexFromSegments.encode) } } log :=
      ⟨⟨⟨settled.shut.filed.manifest, settled.shut.filed.bak, readable⟩, settled.shut.closed, settled.shut.idle⟩,
        ⟨⟨loads.countable, loads.committed, loads.logged, loads.segments⟩, loads.count, loads.recent⟩, settled.current⟩
    exact ends_pure.mpr ((undoView_csFsyncDir _).mono (fun _ _ later => replaced.congr later) fun _ _ later =>
      replaced.shut.congr (undoFiles_of_view later))
  refine Ends.get ((undoView_syscall _ s).seqMono ?_ fun _ _ same =>
    settled.shut.congr (undoFiles_of_view same))
  intro _ s1 same
  have kept := settled.congr same
  dsimp only
  split
  · split
    · exact ends_pure.mpr kept
    · exact republish s1 same
  · have read (x : Except ChainError UndoIndex) : Keeps undoView (orStop x) := keeps_orStop x
    refine (read _ s1).seqMono ?_ fun _ _ later => kept.shut.congr (undoFiles_of_view later)
    intro onDisk s2 later
    split
    · exact ends_pure.mpr (kept.congr later)
    · exact republish s2 (later.trans same)

/-- Opening a directory: the books are those of the log its manifest names. -/
theorem openStore_directory (manifest : d.manifest = s.files.manifest.cur) (bak : d.bak = s.files.bak.cur)
    (shut : Shut s)
    (current : IndexCurrent s) : Ends (openStore d) s (fun _ t => Directory t) (fun _ t => Directory t) := by
  refine Ends.get ?_
  split
  · exact shut.directory
  · refine (undoView_syscall _ s).seqMono ?_ fun _ _ same => (shut.congr (undoFiles_of_view same)).directory
    intro _ s1 first
    refine (undoView_syscall _ s1).seqMono ?_ fun _ _ same =>
      (shut.congr (undoFiles_of_view (same.trans first))).directory
    intro _ s2 second
    refine (undoView_readAck d s2).seqMono ?_ fun _ _ same =>
      (shut.congr (undoFiles_of_view (same.trans (second.trans first)))).directory
    intro _ s3 third
    have files : undoFiles s3 = undoFiles s := undoFiles_of_view (third.trans (second.trans first))
    have shut := shut.congr files
    have current := current.congr files
    have manifest : d.manifest = s3.files.manifest.cur := manifest.trans (congrArg (fun v => v.1.1) files).symm
    have bak : d.bak = s3.files.bak.cur := bak.trans (congrArg (fun v => v.1.2.1) files).symm
    have loaded : Ends (loadDir d) s3 (fun _ t => ∃ log, Settled t log) (fun _ t => Shut t) := by
      unfold loadDir
      split
      · exact (openFresh_books shut).imp (fun _ t settled => ⟨[], settled⟩)
      · next raw named =>
        refine (ends_attempt (tryLoadManifest_books shut current (.inl (manifest.symm.trans named)))).seqMono ?_
          fun _ _ same => shut.congr same
        intro primary s4 held
        refine Ends.seqMono (Q := fun _ t => ∃ log, Settled t log) (E := fun _ t => Shut t) ?_ ?_ fun _ _ => id
        · cases primary with
          | ok m' =>
            obtain ⟨same, m, log, rfl, logs, loads⟩ := held
            have still : s4.files.manifest.cur = s3.files.manifest.cur := congrArg (fun v => v.1.1) same
            have settled : Settled s4 log :=
              ⟨shut.congr same, loads, m, still.trans (manifest.symm.trans named), logs⟩
            exact (undoView_acceptPrimary _ s4).mono (fun _ _ later => ⟨log, settled.congr later⟩) fun _ _ later =>
              settled.shut.congr (undoFiles_of_view later)
          | error why =>
            have still : s4.files.bak.cur = s3.files.bak.cur := congrArg (fun v => v.1.2.1) held
            exact recoverBackup_books (shut.congr held) (current.congr held) (bak.trans still.symm) why
        · rintro _ s5 ⟨log, settled⟩
          exact (classifyAndNormalizeUndoIndex_books settled).imp (fun _ _ settled => ⟨log, settled⟩)
    refine loaded.seqMono ?_ fun _ _ => Shut.directory
    rintro _ s4 ⟨log, settled⟩
    obtain ⟨shut, loads, named⟩ := settled
    exact ends_update.mpr
      (Standby.directory ⟨⟨⟨loads.countable, loads.committed, loads.logged, loads.segments⟩, loads.count,
      loads.recent, named⟩, shut.filed, shut.idle⟩)

end Open
end Store
end Innova.Store3A
