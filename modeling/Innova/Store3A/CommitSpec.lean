import Innova.Store3A.BatchSpec

/-! What a commit leaves alone. The barriers touch files and their own bookkeeping; the
tree and the rest of the store (`heart`) change only in the calls themselves. -/
namespace Innova.Store3A
open Lib Lib.PagedTree Chainstate

namespace Store

/-! ## Rules for store programs -/

section Rules
variable {α : Type}

theorem ends_update {Q : Unit → Store → Prop} : Ends (update f) s Q E ↔ Q () (f s) := Iff.rfl

theorem ends_update_then {g : Unit → StoreM α} (rest : Ends (g ()) (f s) Q E) : Ends (update f >>= g) s Q E :=
  Ends.bind (ends_update.mpr rest)

/-- A tree program inside a store program. -/
theorem ends_onTree (ends : Ends x s.tree P F) (ok : ∀ a t, P a t → Q a { s with tree := t })
    (error : ∀ e t, F e t → E (.failed e) { s with tree := t }) :
    Ends (onTree x) s Q E := by
  unfold Ends onTree
  cases ran : x s.tree with
  | ok a t => exact ok a t (ends.of_ok ran)
  | error e t => exact error e t (ends.of_error ran)

/-- A failure branch runs its clean-up before the call reports the failure. -/
theorem ends_onFailure (ends : Ends x s Q F) (failed : ∀ e s', F (.failed e) s' → E (.failed e) (cleanup s'))
    (crashed : ∀ s', F .crashed s' → E .crashed s') : Ends (onFailure x cleanup) s Q E := by
  unfold Ends onFailure
  cases ran : x s with
  | ok a t => exact ends.of_ok ran
  | error stop t =>
    cases stop with
    | failed e => exact failed e t (ends.of_error ran)
    | crashed => exact crashed t (ends.of_error ran)

/-- A tree program with a clean-up for its failure. -/
theorem ends_onTree_onFailure (ends : Ends x s.tree P F) (ok : ∀ a t, P a t → Q a { s with tree := t })
    (error : ∀ e t, F e t → E (.failed e) (cleanup { s with tree := t })) :
    Ends (onFailure (onTree x) cleanup) s Q E :=
  ends_onFailure (F := fun stop t => stop ≠ .crashed ∧ E stop (cleanup t))
    (ends_onTree ends ok fun e t failed => ⟨nofun, error e t failed⟩) (fun _ _ => And.right) fun _ crashed =>
      absurd rfl crashed.1

private theorem guardOpen_spec (s : Store) :
    Ends guardOpen s (fun _ t => s = t) (fun _ t => s = t ∧ (s.opened = true → s.needsReopen = true)) := by
  refine Ends.get ?_
  split
  · next shut => exact ⟨rfl, fun opened => absurd opened (by simpa using shut)⟩
  · split
    · next reopen => exact ⟨rfl, fun _ => reopen⟩
    · exact ends_pure.mpr rfl

theorem ends_guardOpen {Q : Unit → Store → Prop} (ok : Q () s) (refused : ∀ stop, E stop s) : Ends guardOpen s Q E :=
  (guardOpen_spec s).mono (fun _ _ same => same ▸ ok) fun stop _ same => same.1 ▸ refused stop

/-- A system call uses up its outcome. Past the end of the script it works. -/
theorem ends_syscall {Q : Unit → Store → Prop} (ok : ∀ rest, (s.script = [] → rest = []) →
    Q () { s with script := rest })
    (error : s.script ≠ [] → ∀ stop rest, E stop { s with script := rest }) : Ends (syscall e) s Q E := by
  refine Ends.bind (show Ends outcome s _ _ from ?_)
  cases next : s.script with
  | nil =>
    show Ends _ _ Q E
    rw [next]
    exact ok [] fun _ => rfl
  | cons o rest =>
    have stuck : s.script ≠ [] := by rw [next]; exact nofun
    show Ends _ _ Q E
    rw [next]
    cases o with
    | done => exact ok rest fun empty => absurd empty stuck
    | fails junk => exact error stuck _ rest
    | crash junk => exact error stuck _ rest

variable {γ : Type}

theorem keeps_update (same : ∀ s, view (f s) = view s) : Keeps view (update f) := same

theorem keeps_fail : Keeps view (fail e : StoreM α) := fun _ => rfl

theorem keeps_orStop (x : Except ChainError α) : Keeps view (orStop x) := fun s => by
  cases x <;> rfl

end Rules

/-! ## What the barriers keep -/

/-- A view of the store that does not see the files, the script and what an undo write notes. -/
def FileBlind {γ : Type} (view : Store → γ) : Prop := ∀ s files script create taken segments, view { s with
  files := files, script := script, freshUndoCreate := create, freshOneShotTaken := taken, undoSegments :=
    segments } = view s

/-- A system call only uses up its outcome. -/
theorem keeps_syscall {γ : Type} {view : Store → γ} (blind : ∀ s rest, view { s with script := rest } = view s)
    (e : ChainError) : Keeps view (syscall e) :=
  .bind (fun s => blind s _) fun o => by
    cases o with
    | done => exact keeps_pure
    | fails junk => exact keeps_fail
    | crash junk => exact keeps_throw

section Blind
variable {γ : Type} {view : Store → γ} (blind : FileBlind view)
include blind

private theorem FileBlind.script (s : Store) (rest : List Outcome) : view { s with script := rest } = view s :=
  blind s s.files rest s.freshUndoCreate s.freshOneShotTaken s.undoSegments

private theorem FileBlind.files (s : Store) (files : Files) : view { s with files := files } = view s :=
  blind s files s.script s.freshUndoCreate s.freshOneShotTaken s.undoSegments

theorem FileBlind.syscall (e : ChainError) : Keeps view (syscall e) := keeps_syscall blind.script e

theorem FileBlind.csFsyncDir : Keeps view csFsyncDir :=
  .bind keeps_get fun _ => .bind (blind.syscall _) fun _ => .bind (blind.syscall _) fun _ =>
    keeps_update fun s => blind.files s _

theorem FileBlind.csWriteFile (name : String) : Keeps view (csWriteFile name) :=
  .bind keeps_get fun _ => .bind (blind.syscall _) fun _ => .bind (blind.syscall _) fun _ =>
    .bind (blind.syscall _) fun _ => blind.syscall _

theorem FileBlind.fsyncTree : Keeps view fsyncTree :=
  .bind (blind.syscall _) fun _ => keeps_update fun s => blind.files s _

theorem FileBlind.csReadRange (off len : Nat) : Keeps view (csReadRange off len) := by
  refine .bind keeps_get fun s => ?_
  split
  · exact keeps_fail
  · refine .bind (blind.syscall _) fun _ => ?_
    split
    · exact keeps_fail
    · exact keeps_pure

private theorem FileBlind.pwriteUndo (off : Nat) (raw : Bytes) : Keeps view (pwriteUndo off raw) :=
  .bind keeps_get fun _ => .bind (fun s => blind.script s _) fun o => by
    cases o with
    | done => exact keeps_update fun s => blind.files s _
    | fails junk => exact .bind (keeps_update fun s => blind.files s _) fun _ => keeps_fail
    | crash junk => exact .bind (keeps_update fun s => blind.files s _) fun _ => keeps_throw

private theorem FileBlind.csWriteAtFile (create : UndoCreate) (off : Nat) (raw : Bytes) :
    Keeps view (csWriteAtFile create off raw) := by
  refine .bind keeps_get fun s => ?_
  split
  · exact keeps_fail
  · refine .bind (blind.syscall _) fun _ => .bind (keeps_update fun s => blind.files s _) fun _ => ?_
    dsimp only
    split
    · exact keeps_fail
    · exact .bind (blind.pwriteUndo _ _) fun _ => .bind (blind.syscall _) fun _ => keeps_update fun s => blind.files s _

theorem FileBlind.writeAck (gen : UInt64) : Keeps view (writeAck gen) :=
  .bind (blind.csWriteFile _) fun _ => .bind (blind.syscall _) fun _ =>
    .bind (keeps_update fun s => blind.files s _) fun _ =>
    blind.csFsyncDir

theorem FileBlind.publishUndoIndex (ix : UndoIndex) : Keeps view (publishUndoIndex ix) :=
  .bind (blind.csWriteFile _) fun _ => .bind (blind.syscall _) fun _ => keeps_update fun s => blind.files s _

private theorem FileBlind.closeSegments (fresh : List CommittedSegment) : Keeps view (closeSegments fresh) :=
  .bind keeps_get fun _ => .bind (blind.publishUndoIndex _) fun _ =>
    keeps_update fun s => blind s s.files s.script s.freshUndoCreate s.freshOneShotTaken _

private theorem FileBlind.publishUndoIndexCrossings (appendEnd : UInt64) (recEnds : Option (List UInt64)) :
    Keeps view (publishUndoIndexCrossings appendEnd recEnds) := by
  cases recEnds with
  | none =>
    refine .bind keeps_get fun s => ?_
    split
    · exact keeps_pure
    · exact blind.closeSegments _
  | some recEnds =>
    refine .bind keeps_get fun s => ?_
    split
    · exact keeps_pure
    · exact blind.closeSegments _

private theorem FileBlind.writeUndo (off : UInt64) (raw : Bytes) : Keeps view (writeUndo off raw) :=
  .bind keeps_get fun _ => .bind (keeps_update fun s => blind s s.files s.script _ _ s.undoSegments) fun _ =>
    blind.csWriteAtFile _ _ _

private theorem FileBlind.appendUndo (off : UInt64) (raw : Bytes) (recEnds : Option (List UInt64)) :
    Keeps view (appendUndo off raw recEnds) := by
  unfold Store.appendUndo
  split
  · exact .bind (blind.writeUndo _ _) fun _ => blind.publishUndoIndexCrossings _ _
  · exact keeps_pure

variable [Digest]

private theorem FileBlind.replaceBackup (off : UInt64) (raw : Bytes) : Keeps view (replaceBackup off raw) := by
  refine .bind keeps_get fun s => .bind (blind.syscall _) fun _ => ?_
  split
  · exact keeps_pure
  · split
    · exact keeps_fail
    · split
      · exact keeps_fail
      · split
        · exact keeps_fail
        · exact .bind (blind.csWriteFile _) fun _ => .bind (blind.syscall _) fun _ => .bind (blind.syscall _) fun _ =>
            .bind (keeps_update fun s => blind.files s _) fun _ => blind.csFsyncDir

end Blind

/-- Everything but the files and the bookkeeping of a commit in progress. -/
def heart (s : Store) : Store :=
  { s with
    files := ⟨.settled none, .settled none, .settled none, .settled none, .settled none, fun _ => [], 0, 0⟩
    script := [], renamePassed := false, freshOneShotTaken := false, freshUndoCreate := .any, undoSegments := [] }

theorem heart_blind : FileBlind heart := fun _ _ _ _ _ _ => rfl

section Barriers
variable [Digest]

theorem commitBarriers_keeps (m : Manifest) (off : UInt64) (raw : Bytes) (recEnds : Option (List UInt64)) :
    Keeps heart (commitBarriers m off raw recEnds) :=
  .bind (keeps_update fun _ => rfl) fun _ => .bind heart_blind.fsyncTree fun _ =>
    .bind (heart_blind.replaceBackup _ _) fun _ =>
    .bind (heart_blind.appendUndo _ _ _) fun _ => .bind (heart_blind.csWriteFile _) fun _ =>
      .bind (heart_blind.syscall _) fun _ => .bind (keeps_update fun _ => rfl) fun _ => heart_blind.csFsyncDir

/-- The manifest a reader finds now. -/
def manifestNow (s : Store) : Option Bytes := s.files.manifest.cur

omit [Digest] in
private theorem csFsyncDir_keeps_manifest : Keeps manifestNow csFsyncDir :=
  .bind keeps_get fun _ => .bind (keeps_syscall (fun _ _ => rfl) _) fun _ =>
    .bind (keeps_syscall (fun _ _ => rfl) _) fun _ => keeps_update fun _ => rfl

omit [Digest] in
private theorem writeAck_keeps_manifest (gen : UInt64) : Keeps manifestNow (writeAck gen) := by
  have call (e : ChainError) : Keeps manifestNow (syscall e) := keeps_syscall (fun _ _ => rfl) e
  have write (name : String) : Keeps manifestNow (csWriteFile name) :=
    .bind keeps_get fun _ => .bind (call _) fun _ => .bind (call _) fun _ => .bind (call _) fun _ => call _
  exact .bind (write _) fun _ => .bind (call _) fun _ => .bind (keeps_update fun _ => rfl) fun _ =>
    csFsyncDir_keeps_manifest

private theorem commitBarriers_manifest (m : Manifest) (off : UInt64) (raw : Bytes)
    (recEnds : Option (List UInt64)) (s : Store) :
    Ends (commitBarriers m off raw recEnds) s (fun _ t => manifestNow t = some m.encode) fun _ _ => True := by
  refine ends_update_then (ends_true.seq ?_)
  intro _ _ _
  refine ends_true.seq (fun _ _ _ => ends_true.seq (fun _ _ _ => ?_))
  refine ends_true.seq (fun _ _ _ => ends_true.seq (fun _ t _ => ?_))
  exact ends_update_then ((csFsyncDir_keeps_manifest _).mono (fun _ _ same => same) fun _ _ _ => trivial)

/-- A generation is sealed: the barriers and the acknowledgment went through and touched
nothing else, or a failure branch ran. -/
theorem ends_sealGeneration (ok : ∀ t, heart t = heart s → manifestNow t = some m.encode → Q () t)
    (barrier : ∀ e t, heart t = heart s → E (.failed e) (cleanup t))
    (unacknowledged : ∀ e t why, heart t = heart s → E (.failed e) (requireReopen why t))
    (crashed : ∀ t, heart t = heart s → E .crashed t) : Ends (sealGeneration m off raw recEnds cleanup) s Q E := by
  refine Ends.bind (ends_onFailure
    ((((commitBarriers_keeps m off raw recEnds) s).and (commitBarriers_manifest m off raw recEnds s)).mono
      ?_ fun _ _ => And.left)
    (fun e t => barrier e t) fun t => crashed t)
  rintro _ t ⟨same, named⟩
  refine ends_onFailure (((heart_blind.writeAck m.generation t).and (writeAck_keeps_manifest m.generation t)).mono
    ?_ fun _ _ => And.left) ?_ ?_
  · rintro _ t' ⟨same', named'⟩
    exact ok t' (same'.trans same) (named'.trans named)
  · intro e t' same'
    exact unacknowledged e t' _ (same'.trans same)
  · intro t' same'
    exact crashed t' (same'.trans same)

end Barriers

/-! ## What reading the log keeps -/

/-- The part of a store that decides which pages are in use. -/
def core (s : Store) : BTree × Bool × PageRef := (s.tree, s.batchOpen, s.batchOldRoot)

theorem core_congr (same : heart t = heart s) : core t = core s := by
  show core (heart t) = core (heart s)
  rw [same]

theorem core_blind : FileBlind core := fun _ _ _ _ _ _ => rfl

/-- An invariant that the undo bookkeeping and the use of the script do not touch. -/
structure Bookkept (I : Store → Prop) : Prop where
  script : ∀ s, I s → I { s with script := s.script.tail }
  books : ∀ s segments recent count bytes, I s → I { s with
    undoSegments := segments, undoRecent := recent, undoRecordCount := count, undoCommittedBytes := bytes }

theorem core_bookkept (c : BTree × Bool × PageRef) : Bookkept (fun s => core s = c) :=
  ⟨fun _ => id, fun _ _ _ _ _ => id⟩

section Bookkept
variable {I : Store → Prop} (blind : Bookkept I)
include blind

omit blind in
theorem preserves_fail {α : Type} : Preserves I (fail e : StoreM α) := fun _ held => held

omit blind in
theorem preserves_orStop {α : Type} (x : Except ChainError α) : Preserves I (orStop x) := fun _ held => by
  cases x <;> exact held

omit blind in
theorem preserves_update (kept : ∀ s, I s → I (f s)) : Preserves I (update f) := kept

theorem Bookkept.recentPush (held : I s) (m : UndoMeta) : I (s.recentPush m) :=
  blind.books s s.undoSegments _ s.undoRecordCount s.undoCommittedBytes held

private theorem Bookkept.syscall (e : ChainError) : Preserves I (syscall e) :=
  .bind (fun s held => blind.script s held) fun o => by
    cases o with
    | done => exact preserves_pure
    | fails junk => exact preserves_fail
    | crash junk => exact preserves_throw

theorem Bookkept.csReadRange (off len : Nat) : Preserves I (csReadRange off len) := by
  refine .bind preserves_get fun s => ?_
  split
  · exact preserves_fail
  · refine .bind (blind.syscall _) fun _ => ?_
    split
    · exact preserves_fail
    · exact preserves_pure

theorem Bookkept.walkHeaders (kept : ∀ m s, I s → I (take m s)) (located : Bool) (limit : UInt64) (fuel : Nat)
    (off : UInt64) : Preserves I (walkHeaders located limit take fuel off) := by
  induction fuel generalizing off with
  | zero => exact preserves_fail
  | succ fuel ih =>
    unfold Store.walkHeaders
    split
    · split
      · exact preserves_fail
      · exact .bind (blind.csReadRange _ _) fun _ => .bind (preserves_orStop _) fun _ =>
          .bind (preserves_update (kept _)) fun _ => ih _
    · split
      · exact preserves_pure
      · exact preserves_fail

private theorem Bookkept.reloadRecentFromStream : Preserves I reloadRecentFromStream := by
  refine .bind
    (preserves_update fun s => blind.books s s.undoSegments [] s.undoRecordCount s.undoCommittedBytes) fun _ =>
    .bind preserves_get fun s => ?_
  split
  · exact preserves_pure
  · exact blind.walkHeaders (fun m s held => blind.recentPush held m) _ _ _ _

private theorem Bookkept.lastRecord : Preserves I lastRecord := by
  refine .bind preserves_get fun s => ?_
  split
  · exact preserves_pure
  · refine .bind blind.reloadRecentFromStream fun _ => .bind preserves_get fun s => ?_
    split
    · split
      · exact preserves_pure
      · exact preserves_fail
    · exact preserves_fail

end Bookkept

theorem lastRecord_keeps_core : Keeps core lastRecord := keeps_of_preserves fun c => (core_bookkept c).lastRecord

end Store
end Innova.Store3A
