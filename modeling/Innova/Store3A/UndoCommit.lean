import Innova.Store3A.Counted
import Innova.Store3A.UndoBooks

/-! The undo side of a commit. Whatever becomes of the tree, each manifest file names a log
that `undo.dat` starts with, the index can be read, and the segments of the directory are
extended only by a commit that closes them. -/
namespace Innova.Store3A
open Lib Chainstate

/-- The lengths of the records and their number fit their fields. -/
structure UndoLog.Countable (log : List UndoRecord) : Prop where
  records : ∀ r ∈ log, r.encode.length < 2 ^ 32
  count : log.length < 2 ^ 32

theorem UndoLog.Countable.of_append (countable : Countable (log ++ more)) : Countable log := by
  refine ⟨fun r member => countable.records r (List.mem_append_left _ member), ?_⟩
  have count := countable.count
  rw [List.length_append] at count
  omega

/-- The manifest of a log. -/
structure Manifest.Logs (m : Manifest) (log : List UndoRecord) : Prop where
  version : m.formatVersion = 2
  undoSize : m.undoSize.toNat = (UndoLog.bytes log).length
  countable : UndoLog.Countable log

/-- A manifest file names a log that `undo.dat` starts with. -/
def Described (undo : Option Bytes) (raw : Bytes) : Prop := ∃ (m : Manifest) (log : List UndoRecord),
  raw = m.encode ∧ m.Logs log ∧ Logged log undo

/-- The files that have to do with the undo log. -/
structure Filed (f : Files) : Prop where
  manifest : ∀ raw, f.manifest.cur = some raw → Described f.undo.cur raw
  bak : ∀ raw, f.bak.cur = some raw → Described f.undo.cur raw
  index : Readable f.index.cur

section
variable {m : Manifest}

/-- Only the contents matter. -/
theorem Filed.congr (filed : Filed f) (manifest : f'.manifest.cur = f.manifest.cur) (bak : f'.bak.cur = f.bak.cur)
    (index : f'.index.cur = f.index.cur) (undo : f'.undo.cur = f.undo.cur) : Filed f' :=
  ⟨by rw [manifest, undo]; exact filed.manifest, by rw [bak, undo]; exact filed.bak, by rw [index]; exact filed.index⟩

private theorem Filed.fsyncDir (filed : Filed f) : Filed (Store.Files.fsyncDir f) := filed.congr rfl rfl rfl rfl

/-- With the backup in place, both manifest files name the current log. -/
theorem filed_of_current (current : f.manifest.cur = some m.encode) (copied : f.bak.cur = some m.encode)
    (logs : m.Logs log) (logged : Logged log f.undo.cur) (index : Readable f.index.cur) : Filed f := by
  have described : Described f.undo.cur m.encode := ⟨m, log, rfl, logs, logged⟩
  refine ⟨fun raw same => ?_, fun raw same => ?_, index⟩
  · rw [current] at same
    exact Option.some.inj same ▸ described
  · rw [copied] at same
    exact Option.some.inj same ▸ described

end

namespace Store

/-- What the undo side of a commit sets out from: the current manifest names the current
log, and the next one either a longer log or an earlier one. -/
structure Appends (s : Store) (m : Manifest) (log : List UndoRecord) (m' : Manifest)
    (log' : List UndoRecord) (off : UInt64) (raw : Bytes) (recEnds : Option (List UInt64)) : Prop where
  filed : Filed s.files
  current : s.files.manifest.cur = some m.encode
  logs : m.Logs log
  logged : Logged log s.files.undo.cur
  logs' : m'.Logs log'
  append : raw ≠ [] → off.toNat = (UndoLog.bytes log).length ∧ log <+: log' ∧
    UndoLog.bytes log' = UndoLog.bytes log ++ raw
  shrink : raw = [] → log' <+: log
  readable : raw ≠ [] → s.freshSegments (off + UInt64.ofNat raw.length) recEnds ≠ [] →
    Readable (some (s.freshIndex (s.freshSegments (off + UInt64.ofNat raw.length) recEnds)).encode)
  /-- Once the index is published, a commit that closes segments meets no failure. -/
  settles : s.closes off raw recEnds ≠ [] → Calm 14 (s.script.drop 18)

section
variable {s : Store} {m : Manifest} {log : List UndoRecord}

/-! ## The undo write -/

private theorem ends_pwriteUndo_counted {off : Nat}
    (ok : Q () { s with script := s.script.drop 1, files := Files.writeUndo s.files off raw })
    (error : ∀ stop rest junk, E stop { s with script := rest, files := Files.writeUndo s.files off junk }) :
    Ends (pwriteUndo off raw) s Q E := by
  show Ends _ { s with script := s.script.tail } Q E
  rw [← List.drop_one]
  cases s.script.headD .done with
  | done => exact ends_update.mpr ok
  | fails junk => exact ends_update_then (error _ _ junk)
  | crash junk => exact ends_update_then (error _ _ junk)

/-- The log stays whatever becomes of the write, and after it `undo.dat` starts with the new one. -/
theorem csWriteAtFile_counted (logged : Logged log s.files.undo.cur)
    (grown : UndoLog.bytes log' = UndoLog.bytes log ++ raw) (create : UndoCreate) :
    Ends (csWriteAtFile create (UndoLog.bytes log).length raw) s
      (fun _ t => ∃ u, t = { s with files := { s.files with undo := u }, script := s.script.drop 3 } ∧
        Logged log' u.cur)
      (fun _ t => ∃ u rest, t = { s with files := { s.files with undo := u }, script := rest } ∧ Logged log u.cur) := by
  refine Ends.get ?_
  split
  · exact ⟨s.files.undo, s.script, rfl, logged⟩
  · refine Ends.bind (ends_syscall_counted ?_ fun _ stop => ⟨s.files.undo, _, rfl, logged⟩)
    refine ends_update_then ?_
    obtain ⟨u, same, kept⟩ : ∃ u, Files.createUndo s.files = { s.files with undo := u } ∧ Logged log u.cur := by
      unfold Files.createUndo
      split
      · next absent =>
        have empty : log = [] := logged.resolve_right (by rintro ⟨rest, found⟩; rw [absent] at found; cases found)
        exact ⟨_, rfl, .inl empty⟩
      · exact ⟨_, rfl, logged⟩
    dsimp only
    rw [same]
    split
    · exact ⟨u, _, rfl, kept⟩
    · have behind (raw : Bytes) : ∃ v, Files.writeUndo { s.files with undo := u } (UndoLog.bytes log).length raw =
          { s.files with undo := v } ∧ ∃ rest, v.cur = some (UndoLog.bytes log ++ (raw ++ rest)) := by
        obtain ⟨rest, written⟩ := kept.writeAt raw
        exact ⟨_, rfl, rest, congrArg some written⟩
      refine Ends.bind (ends_pwriteUndo_counted ?_ ?_)
      · obtain ⟨v, wrote, tail, now⟩ := behind raw
        have whole : Logged log' v.cur := .inr ⟨tail, by rw [now, grown, List.append_assoc]⟩
        have still : Logged log v.cur := .inr ⟨raw ++ tail, now⟩
        refine Ends.bind
          (ends_syscall_counted ?_ fun _ stop => ⟨v, s.script.drop 3, by simp only [wrote, List.drop_drop], still⟩)
        exact ends_update.mpr ⟨v.narrow fun u => u = none, by simp only [wrote, Files.fsyncUndo, List.drop_drop], whole⟩
      · intro stop rest junk
        obtain ⟨v, wrote, tail, now⟩ := behind junk
        exact ⟨v, rest, by simp only [wrote], .inr ⟨junk ++ tail, now⟩⟩

/-! ## The index -/

private theorem closeSegments_counted : Ends (closeSegments fresh) s (fun _ t => t = { s with
        undoSegments := s.undoSegments ++ fresh, script := s.script.drop 5
        files := { s.files with index := s.files.index.replace (some (s.freshIndex fresh).encode) } })
      (fun _ t => ∃ rest, t = { s with script := rest }) := by
  refine Ends.get (Ends.bind (ends_rename_counted (x := pure ()) ?_ fun _ _ rest => ⟨rest, rfl⟩))
  exact ends_pure.mpr (ends_update.mpr rfl)

/-- The closed segments are entered together. -/
theorem publishUndoIndexCrossings_eq : publishUndoIndexCrossings appendEnd recEnds s =
    if s.freshSegments appendEnd recEnds = [] then .ok () s else closeSegments
      (s.freshSegments appendEnd recEnds) s := by
  cases recEnds with
  | none =>
    rw [freshSegments, publishUndoIndexCrossings, publishUndoIndexOnSegmentClose, bind_apply]
    dsimp only [EStateM.get]
    split
    · rfl
    · rfl
  | some recEnds =>
    rw [freshSegments, publishUndoIndexCrossings, bind_apply]
    dsimp only [EStateM.get]
    cases crossings s.segmentSize (s.undoRecordCount + 1) s.segmentEnd recEnds <;> rfl

private theorem publishUndoIndexCrossings_counted (readable : Readable s.files.index.cur)
    (fresh : s.freshSegments appendEnd recEnds ≠ [] →
    Readable (some (s.freshIndex (s.freshSegments appendEnd recEnds)).encode)) :
    Ends (publishUndoIndexCrossings appendEnd recEnds) s (fun _ t => ∃ index rest, t = { s with
          undoSegments := s.undoSegments ++ s.freshSegments appendEnd recEnds, script := rest
          files := { s.files with index := index } } ∧ Readable index.cur ∧
        (s.freshSegments appendEnd recEnds ≠ [] → rest = s.script.drop 5))
      (fun _ t => ∃ rest, t = { s with script := rest }) := by
  unfold Ends
  rw [publishUndoIndexCrossings_eq]
  by_cases empty : s.freshSegments appendEnd recEnds = []
  · rw [if_pos empty]
    exact ⟨s.files.index, s.script, by rw [empty, List.append_nil], readable, fun some => absurd empty some⟩
  · rw [if_neg empty]
    refine closeSegments_counted.imp ?_
    rintro _ _ rfl
    exact ⟨_, _, rfl, fresh empty, fun _ => rfl⟩

/-! ## The barriers -/

section Barriers
variable [Digest]

private theorem replaceBackup_counted (filed : Filed s.files) (current : s.files.manifest.cur = some m.encode)
    (version : m.formatVersion = 2) : Ends (replaceBackup off raw) s
      (fun _ t => ∃ files, t = { s with files := files, script := s.script.drop 9 } ∧
        files.manifest.cur = some m.encode ∧
        files.bak.cur = some m.encode ∧ files.undo.cur = s.files.undo.cur ∧ files.index.cur = s.files.index.cur)
      (fun _ t => ∃ files rest, t = { s with files := files, script := rest } ∧ Filed files ∧
        files.manifest.cur = some m.encode ∧ files.undo.cur = s.files.undo.cur) := by
  have failed (rest : List Outcome) : ∃ files rest', { s with script := rest } =
    { s with files := files, script := rest' } ∧
      Filed files ∧ files.manifest.cur = some m.encode ∧ files.undo.cur = s.files.undo.cur :=
    ⟨s.files, rest, rfl, filed, current, rfl⟩
  refine Ends.get (Ends.bind (ends_syscall_counted ?_ fun _ _ => failed _))
  rw [current]
  simp only [m.decode_encode version]
  split
  · exact failed _
  · split
    · exact failed _
    · refine Ends.bind (ends_csWriteFile_counted ?_ fun _ _ => failed)
      refine Ends.bind (ends_syscall_counted ?_ fun _ _ => failed _)
      refine Ends.bind (ends_syscall_counted ?_ fun _ _ => failed _)
      have copied : Filed { s.files with bak := s.files.bak.replace (some m.encode) } := by
        refine ⟨filed.manifest, fun raw same => ?_, filed.index⟩
        exact filed.manifest raw (current.trans same)
      refine ends_update_then (ends_csFsyncDir_counted ?_ fun _ _ rest => ⟨_, rest, rfl, copied, current, rfl⟩)
      refine ⟨Files.fsyncDir { s.files with bak := s.files.bak.replace (some m.encode) }, ?_, current, rfl, rfl, rfl⟩
      simp only [List.drop_drop]

omit [Digest] in
/-- Behind the backup the log grows, and the segments it closes are entered. -/
theorem appendUndo_counted (current : s.files.manifest.cur = some m.encode) (copied : s.files.bak.cur = some m.encode)
    (logs : m.Logs log) (logged : Logged log s.files.undo.cur) (index : Readable s.files.index.cur)
    (append : raw ≠ [] → off.toNat = (UndoLog.bytes log).length ∧ log <+: log' ∧
    UndoLog.bytes log' = UndoLog.bytes log ++ raw)
    (shrink : raw = [] → log' <+: log)
    (readable : raw ≠ [] → s.freshSegments (off + UInt64.ofNat raw.length) recEnds ≠ [] →
      Readable (some (s.freshIndex (s.freshSegments (off + UInt64.ofNat raw.length) recEnds)).encode)) :
    Ends (appendUndo off raw recEnds) s
      (fun _ t => Filed t.files ∧ t.files.manifest.cur = some m.encode ∧ t.files.bak.cur = some m.encode ∧
        Logged log t.files.undo.cur ∧ Logged log' t.files.undo.cur ∧
        t.undoSegments = s.undoSegments ++ s.closes off raw recEnds ∧ t.renamePassed = s.renamePassed ∧
        (s.closes off raw recEnds ≠ [] → t.script = s.script.drop 8))
      (fun _ t => Filed t.files ∧ t.files.manifest.cur = some m.encode ∧ Logged log t.files.undo.cur ∧
        t.undoSegments = s.undoSegments ∧ t.renamePassed = s.renamePassed) := by
  unfold appendUndo closes
  split
  · next some =>
    have some : raw ≠ [] := by rintro rfl; cases some
    obtain ⟨behind, longer, grown⟩ := append some
    refine Ends.bind (Ends.get (ends_update_then ?_))
    rw [behind, if_neg some]
    refine (csWriteAtFile_counted (s := { s with
      freshUndoCreate := .any, freshOneShotTaken :=
        s.freshOneShotTaken || s.freshUndoCreate != .any }) logged grown _).mono ?_ ?_
    · rintro _ _ ⟨u, rfl, now⟩
      have still : Logged log u.cur := by
        obtain ⟨more, rfl⟩ := longer
        exact now.of_append
      refine (publishUndoIndexCrossings_counted (s := { s with
        freshUndoCreate := .any, freshOneShotTaken := s.freshOneShotTaken || s.freshUndoCreate != .any
        files := { s.files with undo := u }, script := s.script.drop 3 }) index (readable some)).mono ?_ ?_
      · rintro _ _ ⟨index', rest, rfl, readable', spent⟩
        exact ⟨filed_of_current current copied logs still readable', current, copied, still, now, rfl, rfl,
          fun closing => (spent closing).trans List.drop_drop⟩
      · rintro _ _ ⟨rest, rfl⟩
        exact ⟨filed_of_current current copied logs still index, current, still, rfl, rfl⟩
    · rintro _ _ ⟨u, rest, rfl, still⟩
      exact ⟨filed_of_current current copied logs still index, current, still, rfl, rfl⟩
  · next none =>
    have none : raw = [] := by simpa using none
    have shorter : Logged log' s.files.undo.cur := by
      obtain ⟨more, rfl⟩ := shrink none
      exact logged.of_append
    refine ends_pure.mpr ⟨filed_of_current current copied logs logged index, current, copied,
      logged, shorter, ?_, rfl, ?_⟩
    · rw [if_pos none, List.append_nil]
    · rw [if_pos none]
      exact fun some => absurd rfl some

/-- Where a commit may stop: nothing is entered in the directory of segments, and the old
manifest is still in place unless a reopen is due. -/
structure Halted (s : Store) (m : Manifest) (log : List UndoRecord) (t : Store) : Prop where
  filed : Filed t.files
  logged : Logged log t.files.undo.cur
  segments : t.undoSegments = s.undoSegments
  current : t.renamePassed = false → t.files.manifest.cur = some m.encode

private theorem commitBarriers_counted (appends : Appends s m log m' log' off raw recEnds) :
    Ends (commitBarriers m' off raw recEnds) s
      (fun _ t => Filed t.files ∧ t.files.manifest.cur = some m'.encode ∧ Logged log t.files.undo.cur ∧
        Logged log' t.files.undo.cur ∧ t.undoSegments = s.undoSegments ++ s.closes off raw recEnds ∧
        (s.closes off raw recEnds ≠ [] → t.script = s.script.drop 25)) (fun _ t => Halted s m log t) := by
  have start : Halted s m log { s with renamePassed := false, freshOneShotTaken := false } :=
    ⟨appends.filed, appends.logged, rfl, fun _ => appends.current⟩
  refine ends_update_then (Ends.bind (Ends.bind (ends_syscall_counted ?_ fun _ _ =>
    ⟨start.filed, start.logged, rfl, start.current⟩)))
  refine ends_update.mpr (Ends.seqMono (replaceBackup_counted (m := m) ?_ appends.current appends.logs.version) ?_ ?_)
  · exact appends.filed.congr rfl rfl rfl rfl
  · rintro _ _ ⟨files, rfl, current, copied, undo, index⟩
    refine Ends.seqMono (appendUndo_counted (m := m) current copied appends.logs
      (by rw [undo]; exact appends.logged) (by rw [index]; exact appends.filed.index) appends.append appends.shrink
      appends.readable) ?_ ?_
    · rintro _ t ⟨filed, current, copied, still, now, segments, passed, spent⟩
      have spent : s.closes off raw recEnds ≠ [] → t.script = s.script.drop 18 := fun closing => by
        simpa only [List.drop_drop] using spent closing
      have segments : t.undoSegments = s.undoSegments ++ s.closes off raw recEnds := segments
      -- from here on a commit that closes segments cannot stop
      have stopped {k : Nat} (few : k ≤ 14) (fails : ¬Calm k t.script) : t.undoSegments = s.undoSegments := by
        by_cases closing : s.closes off raw recEnds = []
        · rw [segments, closing, List.append_nil]
        · refine absurd ?_ fails
          rw [spent closing]
          exact (appends.settles closing).le few
      refine ends_rename_counted ?_ fun fails _ _ => ⟨filed, still, stopped (by decide) fails, fun _ => current⟩
      have renamed : Filed { t.files with manifest := t.files.manifest.replace (some m'.encode) } := by
        refine ⟨fun raw same => ?_, filed.bak, filed.index⟩
        exact Option.some.inj same ▸ ⟨m', log', rfl, appends.logs', now⟩
      refine ends_csFsyncDir_counted ⟨renamed.fsyncDir, rfl, still, now, segments, fun closing => ?_⟩ fun fails _ _ =>
        ⟨renamed, still, stopped (k := 7) (by decide) fun calm => fails calm.drop, nofun⟩
      rw [spent closing, List.drop_drop, List.drop_drop]
    · rintro _ t ⟨filed, current, still, segments, passed⟩
      exact ⟨filed, still, segments, fun _ => current⟩
  · rintro _ _ ⟨files, rest, rfl, filed, current, undo⟩
    exact ⟨filed, by rw [undo]; exact appends.logged, rfl, fun _ => current⟩

omit [Digest] in
private theorem writeAck_counted (gen : UInt64) (filed : Filed s.files) : Ends (writeAck gen) s
      (fun _ t => Filed t.files ∧ t.files.manifest.cur = s.files.manifest.cur ∧ t.files.undo.cur = s.files.undo.cur ∧
        t.undoSegments = s.undoSegments)
      (fun _ t => ¬Calm 7 s.script ∧ Filed t.files ∧ t.files.undo.cur = s.files.undo.cur ∧
        t.undoSegments = s.undoSegments) := by
  refine ends_rename_counted ?_ fun fails _ _ => ⟨fun calm => fails (calm.le (by decide)), filed, rfl, rfl⟩
  have noted : Filed { s.files with ack := s.files.ack.replace (some (ackBytes gen)) } := filed.congr rfl rfl rfl rfl
  exact ends_csFsyncDir_counted ⟨noted.fsyncDir, rfl, rfl, rfl⟩ fun fails _ _ =>
    ⟨fun calm => fails ((calm.le le_rfl).drop (m := 5)), noted, rfl, rfl⟩

/-- A generation is sealed and its segments are entered, or none are. -/
theorem Appends.sealGeneration (appends : Appends s m log m' log' off raw recEnds)
    (ok : ∀ t, heart t = heart s → Filed t.files → t.files.manifest.cur = some m'.encode →
    Logged log' t.files.undo.cur →
      t.undoSegments = s.undoSegments ++ s.closes off raw recEnds → Q () t)
    (halted : ∀ e t, heart t = heart s → Halted s m log t → E (.failed e) (cleanup t))
    (unacknowledged : ∀ e t why, heart t = heart s → Filed t.files → Logged log t.files.undo.cur →
      t.undoSegments = s.undoSegments → E (.failed e) (requireReopen why t)) (crashed : ∀ t, E .crashed t) :
    Ends (sealGeneration m' off raw recEnds cleanup) s Q E := by
  refine Ends.bind (ends_onFailure
    (((commitBarriers_keeps m' off raw recEnds s).and (commitBarriers_counted appends)).imp ?_)
    (fun e t held => halted e t held.1 held.2) fun t _ => crashed t)
  rintro _ t ⟨same, filed, current, still, now, segments, spent⟩
  refine ends_onFailure (((heart_blind.writeAck m'.generation t).and (writeAck_counted m'.generation filed)).mono ?_
    fun _ _ => id) ?_ fun t' _ => crashed t'
  · rintro _ t' ⟨same', filed', manifest, undo, segments'⟩
    exact ok t' (same'.trans same) filed' (manifest.trans current) (by rw [undo]; exact now) (segments'.trans segments)
  · rintro e t' ⟨same', fails, filed', undo, segments'⟩
    refine unacknowledged e t' _ (same'.trans same) filed' (by rw [undo]; exact still) (segments'.trans ?_)
    by_cases closing : s.closes off raw recEnds = []
    · rw [segments, closing, List.append_nil]
    · refine absurd ?_ fails
      rw [spent closing, show s.script.drop 25 = (s.script.drop 18).drop 7 by rw [List.drop_drop]]
      exact ((appends.settles closing).le le_rfl).drop (m := 7)

end Barriers
end
end Store
end Innova.Store3A
