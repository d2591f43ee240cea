import Innova.Store3A.UndoOpen

/-! The directory of undo segments over whole runs: store objects on one directory, one
after the other, with calls that succeed or fail. -/
namespace Innova.Store3A
open Lib Chainstate

namespace Store
open UndoLog
/-- The call came back, with or without an error. -/
def CameBack (x : StoreM Unit) (s t : Store) : Prop := x s = .ok () t ∨ ∃ e, x s = .error (.failed e) t

private theorem CameBack.post (back : CameBack x s t)
    (ends : Ends x s (fun _ => P) fun stop t => stop ≠ .crashed → P t) : P t := by
  rcases back with ran | ⟨e, ran⟩
  · exact ends.of_ok ran
  · exact ends.of_error ran nofun

section Digest
variable [Digest]

/-- The states of the store objects of one directory, which starts empty. `Run` follows a
single object. An object is opened on the files as the one before it left them, whatever is
made of the tree file, and possibly with another segment size. Every object that is opened
meets `may` and every call meets `can`; calls may follow one that failed. -/
inductive Reached (may : Store → Prop) (can : Store → Call → Prop) : Store → Prop where
  | created (path : String) (ixSegmentSize : UInt32) (limit : Nat) (faults : List (Option Bytes))
    (script : List Outcome) :
    Reached may can (unopened path emptyDir ixSegmentSize limit faults script)
  | opened {s t : Store} (before : Reached may can s) (tree : Option TreeFile) {path : String}
    {ixSegmentSize : UInt32} {limit : Nat}
    {faults : List (Option Bytes)} {script : List Outcome} {u : Store}
    (new : unopened path { s.left with tree := tree } ixSegmentSize limit faults script = u) (meets : may u)
    (back : CameBack (openStore { s.left with tree := tree }) u t) : Reached may can t
  | called {s t : Store} {c : Call} (before : Reached may can s) (meets : can s c) (back : CameBack c.run s t) :
    Reached may can t

variable {s : Store}

private theorem Reached.directory (reached : Reached IndexCurrent (fun s c => c.Orderly s) s) : Directory s := by
  induction reached with
  | created path ixSegmentSize limit faults script =>
    exact Shut.directory ⟨⟨nofun, nofun, nofun⟩, rfl, rfl⟩
  | @opened s t before tree path ixSegmentSize limit faults script u new meets back dir =>
    have shut : Shut u := by
      subst new
      exact ⟨dir.filed.congr rfl rfl rfl rfl, rfl, rfl⟩
    refine back.post ((openStore_directory ?_ ?_ shut meets).mono (fun _ _ => id) fun _ _ dir _ => dir)
    · subst new
      rfl
    · subst new
      rfl
  | called before meets back dir => exact back.post (Call.directory dir meets)

/-- In a run whose publications do not fail between the index and the end of a call that
closes a segment, whose disconnects find the recent cache ending with the committed log, and
whose store objects find no stale index, the directory always lists exactly the closed
segments of the committed log, and the index on disk can be decoded. -/
theorem segments_exact (reached : Reached IndexCurrent (fun s c => c.Orderly s) s) : Readable s.files.index.cur ∧
    (s.opened = true → Chained 0 s.undoSegments ∧ ∃ log, s.undoCommittedBytes.toNat = (bytes log).length ∧
      Logged log s.files.undo.cur ∧ s.undoSegments = closedSegments s.segmentSize log) := by
  have dir := reached.directory
  refine ⟨dir.filed.index, fun opened => ?_⟩
  obtain ⟨log, exact, -⟩ := dir.exact opened
  refine ⟨?_, log, exact.committed, exact.logged, exact.segments⟩
  rw [exact.segments]
  exact closedSegments_chained _ exact.total

end Digest

/-- A first object over an empty directory. -/
theorem reached_first [Digest] {ixSegmentSize : UInt32} {script : List Outcome}
    (meets : may (unopened "store" emptyDir ixSegmentSize 16 [] script))
    (ran : openStore emptyDir (unopened "store" emptyDir ixSegmentSize 16 [] script) = .ok () t) : Reached may can t :=
  .opened (.created "store" ixSegmentSize 16 [] script) none rfl meets (.inl ran)

/-- Eight records in segments of two. -/
theorem segments_exact_batch : segmentedStore.opened = true ∧ segmentedStore.undoSegments.length = 4 ∧
    Readable segmentedStore.files.index.cur ∧ Chained 0 segmentedStore.undoSegments ∧
    ∃ log, segmentedStore.undoCommittedBytes.toNat = (bytes log).length ∧ Logged log segmentedStore.files.undo.cur ∧
      segmentedStore.undoSegments = closedSegments segmentedStore.segmentSize log := by
  let := sha256Digest
  have opened : Reached IndexCurrent (fun s c => c.Orderly s) pairedStore :=
    reached_first (fun _ _ _ _ _ _ decoded => nomatch decoded) (run_of_succeeds (by decide +kernel))
  have orderly : pairedStore.Orderly fourSegments := by
    refine ⟨by decide +kernel, by decide +kernel, by decide +kernel, fun _ k _ => ?_⟩
    rfl
  have ran : publishBatch fourSegments pairedStore = .ok () segmentedStore := run_of_succeeds (by decide +kernel)
  have reached := opened.called (c := .publishBatch fourSegments) orderly (.inl ran)
  obtain ⟨readable, exact⟩ := segments_exact reached
  have opened : segmentedStore.opened = true := by decide +kernel
  exact ⟨opened, by decide +kernel, readable, exact opened⟩

/-! ## A publication that fails behind the index -/

/-- The calls that publish or disconnect whole blocks. -/
def Call.Whole : Call → Prop
  | applyBatchBlock _ => False
  | publish .. | publishBatch _ | disconnect .. => True

/-- Every record is a segment. `open` makes 18 system calls and a publication 32; in the
second one the first write of the manifest fails, after the index was published. It is tried again. -/
def singleStore : Store :=
  endState (@openStore sha256Digest emptyDir)
    (unopened "store" emptyDir 1 16 [] (List.replicate 68 .done ++ [.fails []]))
def firstRecord : Store := endState (@publish sha256Digest [] (ByteArr.zero 32) 0) singleStore
def interruptedRecord : Store := endState (@publish sha256Digest [] (ByteArr.zero 32) 1) firstRecord
def retriedRecord : Store := endState (@publish sha256Digest [] (ByteArr.zero 32) 1) interruptedRecord

/-- The retry succeeds and closes a third segment without records: neither the directory
nor the index it is written to is well formed. -/
theorem retried_segment_empty : @Reached sha256Digest (fun _ => True) (fun _ c => c.Whole) retriedRecord ∧
    retriedRecord.opened = true ∧ ¬Readable retriedRecord.files.index.cur ∧ ¬Chained 0 retriedRecord.undoSegments := by
  let := sha256Digest
  have reached : Reached (fun _ => True) (fun _ c => c.Whole) singleStore :=
    reached_first trivial (run_of_succeeds (by decide +kernel))
  have first : publish [] (ByteArr.zero 32) 0 singleStore = .ok () firstRecord := run_of_succeeds (by decide +kernel)
  have failed : ∃ e, publish [] (ByteArr.zero 32) 1 firstRecord = .error (.failed e) interruptedRecord :=
    run_of_fails (by decide +kernel)
  have retried : publish [] (ByteArr.zero 32) 1 interruptedRecord = .ok () retriedRecord :=
    run_of_succeeds (by decide +kernel)
  have reached := reached.called (c := .publish [] (ByteArr.zero 32) 0) trivial (.inl first)
  have reached := reached.called (c := .publish [] (ByteArr.zero 32) 1) trivial (.inr failed)
  have reached := reached.called (c := .publish [] (ByteArr.zero 32) 1) trivial (.inl retried)
  have undecodable : (retriedRecord.files.index.cur.any fun raw => (UndoIndex.decode raw).toOption.isNone) = true := by
    decide +kernel
  have listed : retriedRecord.undoSegments = [⟨0, 56⟩, ⟨56, 112⟩, ⟨112, 112⟩] := by decide +kernel
  refine ⟨reached, by decide +kernel, fun readable => ?_, ?_⟩
  · obtain ⟨raw, found, fails⟩ := (Option.any_eq_true _ _).mp undecodable
    obtain ⟨ix, decoded⟩ := readable raw found
    rw [decoded] at fails
    cases fails
  · rw [listed]
    rintro ⟨-, -, -, -, -, empty, -⟩
    exact absurd empty (by decide)

end Store
end Innova.Store3A
