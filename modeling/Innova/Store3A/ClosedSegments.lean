import Innova.Store3A.UndoBooks
import Mathlib.Data.List.DropRight

/-! The undo bookkeeping as a function of the log: its closed segments are the ranges of
every `segmentSize` consecutive records, and a scan of the log books exactly those. -/
namespace Innova.Store3A
open Lib Chainstate

namespace UndoLog
variable {log : List UndoRecord} {size i : Nat}

/-- Where the records behind the first `i` start. -/
def offsetOf (log : List UndoRecord) (i : Nat) : Nat := (bytes (log.take i)).length

private theorem offsetOf_length (log : List UndoRecord) : offsetOf log log.length = (bytes log).length := by
  rw [offsetOf, List.take_length]

private theorem offsetOf_append (more : List UndoRecord) (inside : i ≤ log.length) :
    offsetOf (log ++ more) i = offsetOf log i := by
  rw [offsetOf, offsetOf, List.take_append_of_le_length inside]

theorem offsetOf_le (log : List UndoRecord) (i : Nat) : offsetOf log i ≤ (bytes log).length := by
  have whole := congrArg (fun recs => (bytes recs).length) (List.take_append_drop i log)
  simp only [bytes_append, List.length_append] at whole
  rw [offsetOf]
  omega

private theorem bytes_length_mono (shorter : init <+: log) : (bytes init).length ≤ (bytes log).length := by
  obtain ⟨more, rfl⟩ := shorter
  rw [bytes_append, List.length_append]
  exact Nat.le_add_right _ _

/-- The segment of the records numbered from `i * size` on. -/
def segmentOf (size : Nat) (log : List UndoRecord) (i : Nat) : CommittedSegment :=
  ⟨UInt64.ofNat (offsetOf log (i * size)), UInt64.ofNat (offsetOf log ((i + 1) * size))⟩

/-- The ranges of every `size` consecutive records. The records behind the last of them
are in no closed segment. -/
def closedSegments (size : Nat) (log : List UndoRecord) : List CommittedSegment :=
  (List.range (log.length / size)).map (segmentOf size log)

theorem closedSegments_length (size : Nat) (log : List UndoRecord) :
    (closedSegments size log).length = log.length / size := by
  rw [closedSegments, List.length_map, List.length_range]

theorem closedSegments_nil (size : Nat) : closedSegments size [] = [] := by
  rw [closedSegments, List.length_nil, Nat.zero_div]
  rfl

private theorem segmentOf_append (more : List UndoRecord) (inside : (i + 1) * size ≤ log.length) :
    segmentOf size (log ++ more) i = segmentOf size log i := by
  have start : i * size ≤ log.length := (Nat.mul_le_mul_right _ (Nat.le_succ i)).trans inside
  rw [segmentOf, segmentOf, offsetOf_append more inside, offsetOf_append more start]

private theorem inside_of_lt (closed : i < log.length / size) : (i + 1) * size ≤ log.length :=
  (Nat.mul_le_mul_right size closed).trans (Nat.div_mul_le_self _ _)

/-- The end of the last closed segment. -/
theorem chainEnd_closedSegments (size : Nat) (log : List UndoRecord) :
    chainEnd 0 (closedSegments size log) = UInt64.ofNat (offsetOf log (log.length / size * size)) := by
  rw [chainEnd, closedSegments]
  cases log.length / size with
  | zero => simp [offsetOf, bytes]
  | succ n => rw [List.range_succ, List.map_append, List.map_singleton, List.getLast?_concat]; rfl

/-- One more record closes a segment exactly when it completes a multiple of their size. -/
theorem closedSegments_concat (size : Nat) (log : List UndoRecord) (r : UndoRecord) :
    closedSegments size (log ++ [r]) = closedSegments size log ++
      if (log.length + 1) % size = 0 then
        [⟨chainEnd 0 (closedSegments size log), UInt64.ofNat (bytes (log ++ [r])).length⟩]
      else [] := by
  have kept : (List.range (log.length / size)).map (segmentOf size (log ++ [r])) = closedSegments size log :=
    List.map_congr_left fun i member => segmentOf_append _ (inside_of_lt (List.mem_range.mp member))
  rw [closedSegments, List.length_append, List.length_singleton, Nat.succ_div, ← kept]
  simp only [Nat.dvd_iff_mod_eq_zero]
  split
  · next closes =>
    have whole : (log.length / size + 1) * size = (log ++ [r]).length := by
      have divides := Nat.div_mul_cancel (Nat.dvd_of_mod_eq_zero closes)
      rw [Nat.succ_div, if_pos (Nat.dvd_of_mod_eq_zero closes)] at divides
      simpa using divides
    rw [List.range_succ, List.map_append, List.map_singleton, kept, chainEnd_closedSegments]
    rw [segmentOf, whole, offsetOf_length, offsetOf_append _ (Nat.div_mul_le_self _ _)]
  · simp

private theorem chainEnd_concat (start : UInt64) (segments : List CommittedSegment) (g : CommittedSegment) :
    chainEnd start (segments ++ [g]) = g.endOffset := by
  simp [chainEnd]

theorem length_concat (log : List UndoRecord) (r : UndoRecord) :
    (bytes (log ++ [r])).length = (bytes log).length + r.encode.length := by simp

theorem bytes_length_lt (log : List UndoRecord) (r : UndoRecord) :
    (bytes log).length < (bytes (log ++ [r])).length := by
  have long := r.encode_long
  rw [length_concat]
  omega

/-- Closed segments end within the log. -/
theorem chainEnd_closedSegments_le (size : Nat) (total : (bytes log).length < 2 ^ 64) :
    (chainEnd 0 (closedSegments size log)).toNat ≤ (bytes log).length := by
  have inside := offsetOf_le log (log.length / size * size)
  rw [chainEnd_closedSegments, UInt64.toNat_ofNat_of_lt' (lt_of_le_of_lt inside total)]
  exact inside

/-- They follow each other from offset 0. -/
theorem closedSegments_chained (size : Nat) (total : (bytes log).length < 2 ^ 64) :
    Chained 0 (closedSegments size log) := by
  induction log using List.reverseRecOn with
  | nil => rw [closedSegments_nil]; trivial
  | append_singleton log r ih =>
    have longer := bytes_length_lt log r
    rw [closedSegments_concat]
    refine (ih (longer.trans total)).append ?_
    split
    · refine ⟨rfl, UInt64.lt_iff_toNat_lt.mpr ?_, trivial⟩
      rw [UInt64.toNat_ofNat_of_lt' total]
      exact lt_of_le_of_lt (chainEnd_closedSegments_le size (longer.trans total)) longer
    · trivial

/-- A segment starts and ends where records do. -/
theorem boundary_offsetOf (log : List UndoRecord) (i : Nat) : Boundary log (offsetOf log i) :=
  ⟨log.take i, log.drop i, (List.take_append_drop i log).symm, rfl⟩

theorem closedSegments_boundary (total : (bytes log).length < 2 ^ 64) (member : g ∈ closedSegments size log) :
    Boundary log g.startOffset.toNat ∧ Boundary log g.endOffset.toNat := by
  obtain ⟨i, -, rfl⟩ := List.mem_map.mp member
  have at' (k : Nat) : (UInt64.ofNat (offsetOf log k)).toNat = offsetOf log k :=
    UInt64.toNat_ofNat_of_lt' (lt_of_le_of_lt (offsetOf_le log k) total)
  rw [segmentOf, at', at']
  exact ⟨boundary_offsetOf log _, boundary_offsetOf log _⟩

/-! ## Windows -/

/-- A window of the last `cap` items moves on by one item: it is full and loses its first,
or still has room. -/
theorem rtake_concat {α : Type} {cap : Nat} (xs : List α) (x : α) (positive : 0 < cap) :
    (if (xs.rtake cap ++ [x]).length > cap then (xs.rtake cap ++ [x]).tail else xs.rtake cap ++ [x]) =
    (xs ++ [x]).rtake cap := by
  obtain ⟨n, rfl⟩ : ∃ n, cap = n + 1 := ⟨cap - 1, by omega⟩
  rw [List.rtake_concat_succ]
  by_cases full : n + 1 ≤ xs.length
  · have split : xs.rtake (n + 1) = xs[xs.length - (n + 1)] :: xs.rtake n := by
      rw [List.rtake, List.drop_eq_getElem_cons (by omega)]
      congr 2
      omega
    have length : (xs.rtake n).length = n := by rw [List.rtake, List.length_drop]; omega
    rw [split, List.cons_append, if_pos (by simp [length]), List.tail_cons]
  · have all (k : Nat) (room : n ≤ k) : xs.rtake k = xs := by
      rw [List.rtake, Nat.sub_eq_zero_of_le (by omega), List.drop_zero]
    rw [all n le_rfl, all (n + 1) (by omega), if_neg (by simp; omega)]

end UndoLog

namespace Store
open UndoLog
variable {s : Store} {log : List UndoRecord}

theorem segmentSize_pos (s : Store) : 0 < s.segmentSize := by
  unfold segmentSize
  split
  · decide
  · next given =>
    refine Nat.pos_of_ne_zero fun zero => given ?_
    exact UInt32.toNat_inj.mp zero

/-- Pushing keeps the window of the most recent records. -/
theorem recentPush_window (xs : List UndoMeta) (m : UndoMeta) (window : s.undoRecent = xs.rtake (3 * s.segmentSize)) :
    s.recentPush m = { s with undoRecent := (xs ++ [m]).rtake (3 * s.segmentSize) } := by
  have positive := s.segmentSize_pos
  have moved := rtake_concat xs m (show 0 < 3 * s.segmentSize by omega)
  rw [← window] at moved
  unfold recentPush
  dsimp only
  rw [moved]

theorem foldl_recentPush (xs ms : List UndoMeta) (window : s.undoRecent = xs.rtake (3 * s.segmentSize)) :
    ms.foldl recentPush s = { s with undoRecent := (xs ++ ms).rtake (3 * s.segmentSize) } := by
  induction ms generalizing s xs with
  | nil => rw [List.append_nil, ← window]; rfl
  | cons m ms ih =>
    rw [List.foldl_cons, recentPush_window xs m window]
    rw [ih (s := { s with undoRecent := (xs ++ [m]).rtake (3 * s.segmentSize) }) (xs ++ [m]) rfl, List.append_assoc]
    rfl

/-! ## The scan -/

/-- The books of a log: its closed segments, its records counted, the last of them cached. -/
def booked (s : Store) (log : List UndoRecord) : Store :=
  { s with
    undoSegments := closedSegments s.segmentSize log
    undoRecordCount := UInt64.ofNat log.length
    undoRecent := (entries 0 log).rtake (3 * s.segmentSize) }

theorem booked_nil (s : Store) : s.booked [] = s.forgetUndo := by
  unfold booked forgetUndo
  rw [closedSegments_nil, entries_nil, List.rtake_nil]
  rfl

theorem entries_snoc (log : List UndoRecord) (r : UndoRecord) :
    entries 0 (log ++ [r]) = entries 0 log ++ [entry (bytes log).length r] := by
  rw [entries_append, Nat.zero_add]
  rfl

/-- The count of a log with one more record. -/
theorem count_snoc (total : (bytes (log ++ [r])).length < 2 ^ 64) :
    UInt64.ofNat (log ++ [r]).length = UInt64.ofNat log.length + 1 ∧
      (UInt64.ofNat log.length + 1).toNat = log.length + 1 := by
  have next : UInt64.ofNat (log ++ [r]).length = UInt64.ofNat log.length + 1 := by
    rw [List.length_append, UInt64.ofNat_add]
    rfl
  refine ⟨next, ?_⟩
  rw [← next, UInt64.toNat_ofNat_of_lt' (lt_of_le_of_lt (length_le_bytes _) total), List.length_append,
    List.length_singleton]

/-- Scanning one more record. -/
theorem scanned_booked (small : r.encode.length < 2 ^ 32) (total : (bytes (log ++ [r])).length < 2 ^ 64) :
    scanned (entry (bytes log).length r) (s.booked log) = s.booked (log ++ [r]) := by
  obtain ⟨next, count⟩ := count_snoc total
  have stop : (entry (bytes log).length r).offset + (entry (bytes log).length r).len.toUInt64 =
      UInt64.ofNat (bytes (log ++ [r])).length := by
    rw [show (entry (bytes log).length r).offset = UInt64.ofNat (bytes log).length from rfl, entry_end small]
    simp
  have closed : (if (UInt64.ofNat log.length + 1).toNat % s.segmentSize = 0 then
      closedSegments s.segmentSize log ++
        [⟨chainEnd 0 (closedSegments s.segmentSize log), UInt64.ofNat (bytes (log ++ [r])).length⟩]
      else closedSegments s.segmentSize log) = closedSegments s.segmentSize (log ++ [r]) := by
    rw [count, closedSegments_concat]
    split <;> simp
  have pushed := recentPush_window (s := s.booked log) (entries 0 log) (entry (bytes log).length r) rfl
  unfold scanned
  rw [pushed, stop, ← entries_snoc]
  unfold booked
  rw [← closed, next]
  rfl

theorem foldl_scanned (small : ∀ r ∈ log, r.encode.length < 2 ^ 32) (total : (bytes log).length < 2 ^ 64) :
    (entries 0 log).foldl (fun s m => scanned m s) s.forgetUndo = s.booked log := by
  induction log using List.reverseRecOn with
  | nil => exact (booked_nil s).symm
  | append_singleton log r ih =>
    rw [entries_snoc, List.foldl_append, List.foldl_cons, List.foldl_nil,
      ih (fun r member => small r (by simp [member]))
        (lt_of_le_of_lt (bytes_length_mono (List.prefix_append _ _)) total),
      scanned_booked (small r (by simp)) total]

/-! ## What an append closes -/

theorem record_end (log : List UndoRecord) (b : BatchBlock) :
    UInt64.ofNat (bytes log).length + UInt64.ofNat b.record.length = UInt64.ofNat (bytes (log ++ [b.undo])).length := by
  rw [length_concat, UInt64.ofNat_add]
  rfl

/-- The records of a batch close the segments the longer log has more. -/
theorem crossings_closed (size : Nat) (log : List UndoRecord) (batch : List BatchBlock)
    (total : (bytes (extended log batch)).length < 2 ^ 64) :
    closedSegments size (extended log batch) = closedSegments size log ++
      crossings size (UInt64.ofNat log.length + 1) (chainEnd 0 (closedSegments size log))
        (recordEnds (UInt64.ofNat (bytes log).length) batch) := by
  induction batch generalizing log with
  | nil => simp [extended, recordEnds, crossings]
  | cons b batch ih =>
    have split : extended log (b :: batch) = extended (log ++ [b.undo]) batch := by simp [extended]
    have shorter : (bytes (log ++ [b.undo])).length < 2 ^ 64 :=
      lt_of_le_of_lt (bytes_length_mono (by rw [split]; exact List.prefix_append _ _)) total
    obtain ⟨next, count⟩ := count_snoc shorter
    rw [split, ih _ (by rw [← split]; exact total), next, recordEnds, record_end, crossings,
      count, closedSegments_concat]
    split
    · rw [chainEnd_concat, List.append_assoc]
      rfl
    · rw [List.append_nil]

/-- Whatever way an append is announced, it closes the segments the longer log has more. -/
theorem freshSegments_closed (segments : s.undoSegments = closedSegments s.segmentSize log)
    (count : s.undoRecordCount = UInt64.ofNat log.length) (announces : Announces recEnds log batch)
    (total : (bytes (extended log batch)).length < 2 ^ 64) :
    closedSegments s.segmentSize (extended log batch) = s.undoSegments ++
      s.freshSegments (UInt64.ofNat (bytes (extended log batch)).length) recEnds := by
  have crossed := crossings_closed s.segmentSize log batch total
  have stop : s.segmentEnd = chainEnd 0 (closedSegments s.segmentSize log) := by rw [← segments]; rfl
  rcases announces with ⟨rfl, single⟩ | rfl
  · obtain ⟨b, rfl⟩ := List.length_eq_one_iff.mp single
    have next : s.undoRecordCount + 1 = UInt64.ofNat (log ++ [b.undo]).length := by
      rw [count, List.length_append, UInt64.ofNat_add]
      rfl
    have few : (log ++ [b.undo]).length < 2 ^ 64 := lt_of_le_of_lt (length_le_bytes _) total
    have number : (s.undoRecordCount + 1).toNat = log.length + 1 := by
      rw [next, UInt64.toNat_ofNat_of_lt' few, List.length_append, List.length_singleton]
    have positive : s.undoRecordCount + 1 ≠ 0 := fun zero => by
      rw [zero] at number
      cases number
    show closedSegments s.segmentSize (log ++ [b.undo]) = _
    rw [closedSegments_concat, freshSegments, number, segments, stop]
    by_cases closes : (log.length + 1) % s.segmentSize = 0
    · simp [closes, positive, extended]
    · simp [closes]
  · rw [crossed, freshSegments, segments, count, stop]

/-- Taking back the last record trims the segment it closed, and no other. -/
theorem trim_closedSegments (size : Nat) (total : (bytes (log ++ [r])).length < 2 ^ 64)
    (segments : s.undoSegments = closedSegments size (log ++ [r]))
    (committed : s.undoCommittedBytes.toNat = (bytes log).length) :
    s.trimUncommittedSegments.undoSegments = closedSegments size log := by
  have longer := bytes_length_lt log r
  have kept : ((closedSegments size log).reverse.dropWhile (s.undoCommittedBytes < ·.endOffset)).reverse =
      closedSegments size log := by
    have within := chainEnd_closedSegments_le size (longer.trans total)
    rcases List.eq_nil_or_concat (closedSegments size log) with none | ⟨init, g, some⟩
    · rw [none]; rfl
    · rw [some, List.concat_eq_append, chainEnd_concat] at within
      have stays : ¬s.undoCommittedBytes < g.endOffset := by
        rw [UInt64.lt_iff_toNat_lt, committed]
        exact Nat.not_lt.mpr within
      rw [some, List.concat_eq_append, List.reverse_append, List.reverse_singleton, List.singleton_append,
        List.dropWhile_cons_of_neg (by simpa using stays)]
      simp
  show (s.undoSegments.reverse.dropWhile (s.undoCommittedBytes < ·.endOffset)).reverse = _
  rw [segments, closedSegments_concat]
  split
  · have past : s.undoCommittedBytes < UInt64.ofNat (bytes (log ++ [r])).length := by
      rw [UInt64.lt_iff_toNat_lt, committed, UInt64.toNat_ofNat_of_lt' total]
      exact longer
    rw [List.reverse_append, List.reverse_singleton, List.singleton_append, List.dropWhile_cons_of_pos
      (by simpa using past)]
    exact kept
  · rw [List.append_nil]
    exact kept

end Store
end Innova.Store3A
