import Innova.Store3A.Committed

/-! The undo bookkeeping against the log it describes: where records start and end, the chain
of closed segments, and the segments an append closes. -/
namespace Innova.Store3A
open Lib Chainstate

namespace UndoLog
variable {log : List UndoRecord} {off : Nat}

/-- A record of the log starts or ends at `off`. -/
def Boundary (log : List UndoRecord) (off : Nat) : Prop := ∃ done more, log = done ++ more ∧ off = (bytes done).length

theorem boundary_zero (log : List UndoRecord) : Boundary log 0 := ⟨[], log, rfl, rfl⟩

/-- The records cut off by a boundary lie one after the other from it on. -/
theorem Boundary.laid (boundary : Boundary log off) (rest : Bytes) :
    ∃ done more, log = done ++ more ∧ off = (bytes done).length ∧
    Bytes.Laid (bytes log ++ rest) off (bytes more) := by
  obtain ⟨done, more, rfl, rfl⟩ := boundary
  exact ⟨done, more, rfl, rfl, bytes done, rest, by simp, rfl⟩

theorem length_le_bytes (recs : List UndoRecord) : recs.length ≤ (bytes recs).length := by
  induction recs with
  | nil => simp
  | cons r recs ih =>
    have long := r.encode_long
    rw [List.length_cons, bytes_cons, List.length_append]
    omega

end UndoLog

/-! ## Segments -/

/-- Segments that follow each other from `start` on, none of them empty. -/
def Chained : (start : UInt64) → List CommittedSegment → Prop
  | _, [] => True
  | start, g :: rest => g.startOffset = start ∧ g.startOffset < g.endOffset ∧ Chained g.endOffset rest

/-- Where the next segment starts. -/
def chainEnd (start : UInt64) (segments : List CommittedSegment) : UInt64 :=
  (segments.getLast?.map CommittedSegment.endOffset).getD start

private theorem chainEnd_cons (start : UInt64) (g : CommittedSegment) (segments : List CommittedSegment) :
    chainEnd start (g :: segments) = chainEnd g.endOffset segments := by
  unfold chainEnd
  cases segments with
  | nil => rfl
  | cons h segments => rw [List.getLast?_cons_cons]; cases last : (h :: segments).getLast? <;> simp_all

theorem Chained.append (chained : Chained start segments) (onward : Chained (chainEnd start segments) fresh) :
    Chained start (segments ++ fresh) := by
  induction segments generalizing start with
  | nil => exact onward
  | cons g segments ih =>
    rw [chainEnd_cons] at onward
    exact ⟨chained.1, chained.2.1, ih chained.2.2 onward⟩

private theorem Chained.contiguous (chained : Chained start segments) (positive : size ≠ 0) :
    UndoIndex.Contiguous size start (segments.map fun g => ⟨g.startOffset, g.endOffset, size⟩) := by
  induction segments generalizing start with
  | nil => trivial
  | cons g segments ih => exact ⟨chained.1, chained.2.1, positive, UInt32.le_refl _, ih chained.2.2⟩

namespace Store

/-- The segments an append closes. -/
def freshSegments (s : Store) (appendEnd : UInt64) : Option (List UInt64) → List CommittedSegment
  | none =>
    if s.undoRecordCount + 1 = 0 || (s.undoRecordCount + 1).toNat % s.segmentSize != 0 then []
    else [⟨s.segmentEnd, appendEnd⟩]
  | some recEnds => crossings s.segmentSize (s.undoRecordCount + 1) s.segmentEnd recEnds

/-- The index as it is published with them. -/
def freshIndex (s : Store) (fresh : List CommittedSegment) : UndoIndex :=
  { s with undoSegments := s.undoSegments ++ fresh }.buildUndoIndexFromSegments

/-- The segments it closes. -/
def closes (s : Store) (off : UInt64) (raw : Bytes) (recEnds : Option (List UInt64)) : List CommittedSegment :=
  if raw = [] then [] else s.freshSegments (off + UInt64.ofNat raw.length) recEnds

private theorem segmentSize_positive (s : Store) : UInt32.ofNat s.segmentSize ≠ 0 := by
  unfold segmentSize
  split
  · decide
  · next given => simpa using given

/-- An index of chained segments is read back. -/
theorem freshIndex_readable {s : Store} (chained : Chained 0 (s.undoSegments ++ fresh))
    (few : (s.undoSegments ++ fresh).length < 2 ^ 32) : Readable (some (s.freshIndex fresh).encode) := by
  intro raw same
  obtain rfl := Option.some.inj same
  refine ⟨s.freshIndex fresh, UndoIndex.decode_encode
    ⟨rfl, s.segmentSize_positive, ?_, chained.contiguous s.segmentSize_positive, ?_⟩⟩
  · simpa [freshIndex, buildUndoIndexFromSegments] using few
  · show ((s.undoSegments ++ fresh).getLast?.map CommittedSegment.endOffset).getD 0 =
      (((s.undoSegments ++ fresh).map _).getLast?.map UndoSegment.endOffset).getD 0
    rw [List.getLast?_map]
    cases (s.undoSegments ++ fresh).getLast? <;> rfl

/-- How the records of an append are announced: a single one by its end, a batch record by record. -/
def Announces (recEnds : Option (List UInt64)) (log : List UndoRecord) (batch : List BatchBlock) : Prop :=
  recEnds = none ∧ batch.length = 1 ∨ recEnds = some (recordEnds (UInt64.ofNat (UndoLog.bytes log).length) batch)

theorem extended_length (log : List UndoRecord) (batch : List BatchBlock) :
    (UndoLog.bytes (extended log batch)).length =
    (UndoLog.bytes log).length + (UndoLog.bytes (batch.map BatchBlock.undo)).length := by
  rw [extended, UndoLog.bytes_append, List.length_append]

end Store
end Innova.Store3A
