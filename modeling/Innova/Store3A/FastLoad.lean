import Innova.Store3A.ClosedSegments

/-! Startup from the undo index (`loadUndoForIndexed`) against the authoritative scan of
the committed log. -/
namespace Innova.Store3A
open Lib Chainstate

namespace UndoLog
/-- Parsing a buffer of whole records finds each of them. -/
theorem parseUndoRecords_laid (laid : Bytes.Laid buf off (bytes recs)) (whole : off + (bytes recs).length = buf.length)
    (small : ∀ r ∈ recs, r.encode.length < 2 ^ 32) (total : base + buf.length < 2 ^ 64) (enough : recs.length < fuel) :
    Store.parseUndoRecords buf (UInt64.ofNat base) fuel off = .ok (entries (base + off) recs) := by
  induction recs generalizing off fuel with
  | nil =>
    obtain ⟨fuel, rfl⟩ := Nat.exists_eq_add_of_lt enough
    rw [Store.parseUndoRecords, if_neg (by simpa using whole.ge)]
    rfl
  | cons r recs ih =>
    obtain ⟨fuel, rfl⟩ := Nat.exists_eq_add_of_lt enough
    have long := r.encode_long
    have short := small r (by simp)
    rw [bytes_cons] at laid whole
    rw [List.length_append] at whole
    obtain ⟨here, later⟩ := Bytes.laid_append.mp laid
    have stop : (UInt64.ofNat base + UInt64.ofNat buf.length).toNat = base + buf.length := by
      rw [← UInt64.ofNat_add, UInt64.toNat_ofNat_of_lt' total]
    have parsed : Store.undoHeaderAt true (buf.drop off) (UInt64.ofNat base + UInt64.ofNat off)
        (UInt64.ofNat base + UInt64.ofNat buf.length) = .ok (entry (base + off) r) := by
      rw [← UInt64.ofNat_add base off]
      exact undoHeaderAt_header (laid_header here).1 short (by omega) true
    have rest : Store.parseUndoRecords buf (UInt64.ofNat base) ((r :: recs).length + fuel) (off + r.encode.length) =
        .ok (entries (base + (off + r.encode.length)) recs) :=
      ih later (by omega) (fun r member => small r (by simp [member])) (by simp; omega)
    rw [Store.parseUndoRecords, if_pos (by omega), parsed]
    simp only [bind, Except.bind, pure, Except.pure, entry_len short, rest, entries, Nat.add_assoc]

/-- The records of a range of the log. -/
theorem laid_range (laid : Bytes.Laid file 0 (bytes log)) (k : Nat) :
    Bytes.Laid file (offsetOf log i) (bytes ((log.drop i).take k)) := by
  have split : log = log.take i ++ ((log.drop i).take k ++ (log.drop i).drop k) := by
    rw [List.take_append_drop, List.take_append_drop]
  rw [split, bytes_append, bytes_append] at laid
  have rest := (Bytes.laid_append.mp (Bytes.laid_append.mp laid).2).1
  rwa [Nat.zero_add] at rest

private theorem offsetOf_add (log : List UndoRecord) (i k : Nat) :
    offsetOf log (i + k) = offsetOf log i + (bytes ((log.drop i).take k)).length := by
  rw [offsetOf, List.take_add, bytes_append, List.length_append, ← offsetOf]

/-- Entries of consecutive ranges. -/
theorem entries_range (log : List UndoRecord) (i j k : Nat) : entries (offsetOf log i) ((log.drop i).take (j + k)) =
      entries (offsetOf log i) ((log.drop i).take j) ++ entries (offsetOf log (i + j)) ((log.drop (i + j)).take k) := by
  rw [List.take_add, entries_append, List.drop_drop, offsetOf_add]

private theorem entries_behind (log : List UndoRecord) (i j : Nat) :
    entries (offsetOf log i) ((log.drop i).take j) ++ entries (offsetOf log (i + j)) (log.drop (i + j)) =
      entries (offsetOf log i) (log.drop i) := by
  rw [offsetOf_add, ← entries_append, ← List.drop_drop, List.take_append_drop]

private theorem entries_count (off : Nat) (recs : List UndoRecord) : (entries off recs).length = recs.length := by
  induction recs generalizing off with
  | nil => rfl
  | cons r recs ih => rw [entries, List.length_cons, ih, List.length_cons]

/-- A window of the last entries is one of the entries from `i` on, unless these are too few. -/
theorem rtake_entries (log : List UndoRecord) (enough : i = 0 ∨ i + cap ≤ log.length) :
    (entries (offsetOf log i) (log.drop i)).rtake cap = (entries 0 log).rtake cap := by
  rcases enough with rfl | enough
  · rfl
  · have split : entries 0 log = entries 0 (log.take i) ++ entries (offsetOf log i) (log.drop i) := by
      nth_rewrite 1 [← List.take_append_drop i log]
      rw [entries_append, Nat.zero_add]
      rfl
    have early : (entries 0 (log.take i)).length = i := by rw [entries_count, List.length_take]; omega
    have later : (entries (offsetOf log i) (log.drop i)).length =
      log.length - i := by rw [entries_count, List.length_drop]
    have past : (entries 0 (log.take i)).drop (i + (log.length - i) - cap) = [] :=
      List.drop_eq_nil_of_le (by rw [early]; omega)
    rw [split, List.rtake, List.rtake, List.length_append, early, later, List.drop_append, past]
    congr 1
    omega

/-- The cache is filled by the last three of `n` segments and the records behind them. -/
theorem rtake_segments (closed : n * size ≤ log.length) :
    (entries (offsetOf log ((n - 3) * size)) ((log.drop ((n - 3) * size)).take ((n - (n - 3)) * size)) ++
      entries (offsetOf log (n * size)) (log.drop (n * size))).rtake (3 * size) = (entries 0 log).rtake (3 * size) := by
  have join : n * size = (n - 3) * size + (n - (n - 3)) * size := by
    rw [← Nat.add_mul]
    congr 1
    omega
  have enough : (n - 3) * size = 0 ∨ (n - 3) * size + 3 * size ≤ log.length := by
    by_cases few : n ≤ 3
    · left
      rw [Nat.sub_eq_zero_of_le few, Nat.zero_mul]
    · right
      rw [← Nat.add_mul, Nat.sub_add_cancel (by omega)]
      exact closed
  rw [join, entries_behind, rtake_entries log enough]

private theorem drop_closedSegments (size : Nat) (log : List UndoRecord) (j : Nat) :
    (closedSegments size log).drop j = (List.range' j (log.length / size - j)).map (segmentOf size log) := by
  rw [closedSegments, ← List.map_drop, List.range_eq_range']
  simp

end UndoLog

namespace Store
open UndoLog

section
variable {s : Store}

/-- The scan books the committed log. -/
theorem scanUndo_spec (found : s.files.undo.cur = some file) (laid : Bytes.Laid file 0 (bytes log))
    (small : ∀ r ∈ log, r.encode.length < 2 ^ 32) (whole : (bytes log).length = undoSize.toNat) :
    Ends (scanUndo undoSize) s
      (fun _ t => ∃ rest, t = { s.booked log with undoCommittedBytes := undoSize, script := rest })
      (fun _ _ => s.script ≠ []) := by
  have total : (bytes log).length < 2 ^ 64 := whole ▸ undoSize.toNat_lt
  refine ends_update_then (Ends.bind ?_)
  have few := length_le_bytes log
  have walked : Ends (walkHeaders false undoSize scanned (undoSize.toNat + 1) (UInt64.ofNat 0))
      { s.forgetUndo with undoCommittedBytes := 0 } _ _ :=
    walkHeaders_spec scanned false (fun _ _ _ => rfl) (fun _ _ => rfl) found laid small (by omega) (by omega)
  refine walked.mono ?_ fun _ _ stuck => stuck.1
  rintro _ _ ⟨rest, rfl, -⟩
  have books := foldl_scanned (s := { s with undoCommittedBytes := 0 }) small total
  refine ends_update.mpr ⟨rest, ?_⟩
  rw [show ({ s.forgetUndo with undoCommittedBytes := 0 } : Store) =
    ({ s with undoCommittedBytes := 0 } : Store).forgetUndo from rfl,
    books]
  rfl

/-- Headers collected behind the closed segments. -/
theorem collectHeaders_spec (file' : s.files.undo.cur = some file) (laid : Bytes.Laid file off (bytes recs))
    (small : ∀ r ∈ recs, r.encode.length < 2 ^ 32) (whole : off + (bytes recs).length = undoSize.toNat) :
    Ends (collectHeaders undoSize bound (UInt64.ofNat off) found) s
      (fun metas t => metas = found ++ entries off recs ∧ ∃ rest, t = { s with script := rest }) (fun _ _ => True) := by
  induction recs generalizing off bound found s with
  | nil =>
    cases bound with
    | zero => trivial
    | succ bound =>
      have reached := range_ended whole
      rw [collectHeaders, if_neg (by rw [reached]; exact UInt64.lt_irrefl _), if_pos reached]
      exact ends_pure.mpr ⟨by simp, s.script, rfl⟩
  | cons r recs ih =>
    cases bound with
    | zero => trivial
    | succ bound =>
      obtain ⟨started, room, later, whole, read⟩ := header_ahead file' laid (small r (by simp)) whole true
      rw [collectHeaders, if_pos started, if_neg room]
      refine read.seqMono ?_ fun _ _ _ => trivial
      rintro hdr _ ⟨parsed, rest, rfl, -⟩
      rw [parsed]
      refine Ends.bind (ends_pure.mpr ?_)
      rw [entry_end (small r (by simp))]
      have further : Ends (collectHeaders undoSize bound (UInt64.ofNat (off + r.encode.length))
        (found ++ [entry off r]))
          { s with script := rest } _ _ :=
        ih file' later (fun r member => small r (by simp [member])) whole
      refine further.imp ?_
      rintro _ _ ⟨rfl, last, rfl⟩
      exact ⟨by simp [entries], last, rfl⟩

/-- A closed segment of the log is taken in whole. -/
theorem loadSegment_spec (found : s.files.undo.cur = some file) (laid : Bytes.Laid file 0 (bytes log))
    (small : ∀ r ∈ log, r.encode.length < 2 ^ 32) (total : (bytes log).length < 2 ^ 64)
    (window : s.undoRecent = xs.rtake (3 * s.segmentSize)) : Ends (loadSegment size (segmentOf size log i)) s
      (fun _ t => ∃ rest, t = { s with
        undoRecent :=
          (xs ++ entries (offsetOf log (i * size)) ((log.drop (i * size)).take size)).rtake (3 * s.segmentSize)
        script := rest })
      (fun _ _ => True) := by
  have step := offsetOf_add log (i * size) size
  have inside := offsetOf_le log (i * size + size)
  have start : (UInt64.ofNat (offsetOf log (i * size))).toNat = offsetOf log (i * size) :=
    UInt64.toNat_ofNat_of_lt' (show _ < 2 ^ 64 by omega)
  have span : ((segmentOf size log i).endOffset - (segmentOf size log i).startOffset).toNat =
      (bytes ((log.drop (i * size)).take size)).length := by
    rw [segmentOf, Nat.succ_mul, UInt64.toNat_sub_of_le, start, UInt64.toNat_ofNat_of_lt' (show _ < 2 ^ 64 by omega)]
    · omega
    · rw [UInt64.le_iff_toNat_le, start, UInt64.toNat_ofNat_of_lt' (show _ < 2 ^ 64 by omega)]
      omega
  have here := laid_range laid (i := i * size) size
  have reach : offsetOf log (i * size) + (bytes ((log.drop (i * size)).take size)).length ≤ file.length := by
    obtain ⟨pre, post, rfl, same⟩ := here
    rw [← same]
    simp
  unfold loadSegment
  rw [span, show (segmentOf size log i).startOffset = UInt64.ofNat (offsetOf log (i * size)) from rfl, start]
  refine (csReadRange_spec found reach).seqMono ?_ fun _ _ _ => trivial
  rintro _ _ ⟨rfl, rest, rfl, -⟩
  have parsed : parseUndoRecords (bytes ((log.drop (i * size)).take size)) (UInt64.ofNat (offsetOf log (i * size)))
      ((bytes ((log.drop (i * size)).take size)).length + 1) 0 =
      .ok (entries (offsetOf log (i * size) + 0) ((log.drop (i * size)).take size)) := by
    refine parseUndoRecords_laid ⟨[], [], by simp, rfl⟩ (by omega) ?_ (by omega) ?_
    · intro r member
      exact small r (List.mem_of_mem_drop (List.mem_of_mem_take member))
    · exact Nat.lt_succ_of_le (length_le_bytes _)
  rw [here.slice, parsed]
  refine Ends.bind (ends_pure.mpr ?_)
  split
  · trivial
  · refine ends_update.mpr ⟨rest, ?_⟩
    rw [foldl_recentPush (s := { s with script := rest }) xs _ window]
    rfl

/-- And so are consecutive ones. -/
theorem loadSegments_spec (xs : List UndoMeta) (found : s.files.undo.cur = some file)
    (laid : Bytes.Laid file 0 (bytes log)) (small : ∀ r ∈ log, r.encode.length < 2 ^ 32)
    (total : (bytes log).length < 2 ^ 64) (window : s.undoRecent = xs.rtake (3 * s.segmentSize)) :
    Ends (loadSegments size ((List.range' i k).map (segmentOf size log))) s (fun _ t => ∃ rest, t = { s with
        undoRecent :=
          (xs ++ entries (offsetOf log (i * size)) ((log.drop (i * size)).take (k * size))).rtake (3 * s.segmentSize)
        script := rest })
      (fun _ _ => True) := by
  induction k generalizing i xs s with
  | zero =>
    refine ends_pure.mpr ⟨s.script, ?_⟩
    simp only [Nat.zero_mul, List.take_zero, entries_nil, List.append_nil, ← window]
  | succ k ih =>
    refine (loadSegment_spec found laid small total window).seq ?_
    rintro _ _ ⟨rest, rfl⟩
    refine (ih (s := { s with undoRecent := _, script := rest }) (i := i + 1)
      (xs ++ entries (offsetOf log (i * size)) ((log.drop (i * size)).take size)) found rfl).imp ?_
    rintro _ _ ⟨last, rfl⟩
    refine ⟨last, ?_⟩
    rw [show (k + 1) * size = size + k * size by ring, entries_range, show (i + 1) * size = i * size + size by ring,
      List.append_assoc]
    rfl

/-! ## The two loads -/

/-- What loading the undo log decides: the closed segments, the count, the recent cache and
the committed length. -/
def undoBooks (s : Store) : List CommittedSegment × UInt64 × List UndoMeta × UInt64 :=
  (s.undoSegments, s.undoRecordCount, s.undoRecent, s.undoCommittedBytes)

/-- The segments an index lists. -/
def listedBy (ix : UndoIndex) : List CommittedSegment := ix.segments.map fun g => ⟨g.startOffset, g.endOffset⟩

/-- The segments the index on disk lists; none when there is no readable one. -/
def listed (s : Store) : List CommittedSegment :=
  match s.files.index.cur.map UndoIndex.decode with
  | some (.ok ix) => listedBy ix
  | _ => []

private theorem chainEnd_listedBy (ix : UndoIndex) : chainEnd 0 (listedBy ix) = UndoIndex.reached 0 ix.segments := by
  rw [chainEnd, listedBy, List.getLast?_map, UndoIndex.reached]
  cases ix.segments.getLast? <;> rfl

/-- A tail shorter than a segment leaves room for three segments in the cache. -/
theorem three_wanted (short : tail < size) :
    (if 3 * size > tail then (3 * size - tail + size - 1) / size else 0) = 3 := by
  rw [if_pos (by omega)]
  exact Nat.div_eq_of_lt_le (by omega) (by omega)

/-- From an index of the closed segments the fast load books the committed log. -/
theorem loadUndoForIndexed_spec (found : s.files.undo.cur = some file) (laid : Bytes.Laid file 0 (bytes log))
    (small : ∀ r ∈ log, r.encode.length < 2 ^ 32) (whole : (bytes log).length = undoSize.toNat)
    (size : ix.segmentSize.toNat = s.segmentSize) (committed : ix.committedBytes = UndoIndex.reached 0 ix.segments)
    (current : listedBy ix = closedSegments s.segmentSize log) : Ends (loadUndoForIndexed undoSize ix) s
      (fun _ t => ∃ rest, t = { s.booked log with undoCommittedBytes := undoSize, script := rest })
        (fun _ _ => True) := by
  have total : (bytes log).length < 2 ^ 64 := whole ▸ undoSize.toNat_lt
  have positive := s.segmentSize_pos
  have closed : ix.segments.length = log.length / s.segmentSize := by
    rw [← closedSegments_length, ← current, listedBy, List.length_map]
  have behind : ix.committedBytes = UInt64.ofNat (offsetOf log (log.length / s.segmentSize * s.segmentSize)) := by
    rw [committed, ← chainEnd_listedBy, current, chainEnd_closedSegments]
  have tailLength : (log.drop (log.length / s.segmentSize * s.segmentSize)).length = log.length % s.segmentSize := by
    have := Nat.div_add_mod' log.length s.segmentSize
    rw [List.length_drop]
    omega
  have short := Nat.mod_lt log.length positive
  unfold loadUndoForIndexed
  rw [size, behind, closed, show ix.segments.map _ = closedSegments s.segmentSize log from current]
  -- the tail behind the closed segments
  refine ends_update_then (Ends.bind ?_)
  have tailLaid := laid_range laid (i := log.length / s.segmentSize * s.segmentSize) log.length
  rw [List.take_of_length_le (by rw [List.length_drop]; omega)] at tailLaid
  have rest : offsetOf log (log.length / s.segmentSize * s.segmentSize) +
      (bytes (log.drop (log.length / s.segmentSize * s.segmentSize))).length = undoSize.toNat := by
    rw [offsetOf, ← List.length_append, ← bytes_append, List.take_append_drop, whole]
  refine (collectHeaders_spec (s := { s with
    undoSegments := closedSegments s.segmentSize log, undoRecent := []
    undoRecordCount := UInt64.ofNat (log.length / s.segmentSize * s.segmentSize) }) found tailLaid
    (fun r member => small r (List.mem_of_mem_drop member)) rest).imp ?_
  rintro tail _ ⟨rfl, script, rfl⟩
  rw [List.nil_append, entries_count, tailLength, three_wanted short]
  refine ends_update_then (Ends.bind ?_)
  -- the trailing segments, then the tail
  rw [closedSegments_length, drop_closedSegments]
  refine (loadSegments_spec (s := { s with
    undoSegments := closedSegments s.segmentSize log, undoRecent := []
    undoRecordCount := _, script := script }) [] found laid small total (List.rtake_nil _).symm).imp ?_
  rintro _ _ ⟨script, rfl⟩
  refine ends_update.mpr ⟨script, ?_⟩
  rw [List.nil_append, foldl_recentPush (s := { s with
    undoSegments := closedSegments s.segmentSize log, undoRecent := _
    undoRecordCount := _, script := script }) _ _ rfl]
  have cached := rtake_segments (Nat.div_mul_le_self log.length s.segmentSize)
  have count : UInt64.ofNat (log.length / s.segmentSize * s.segmentSize) + UInt64.ofNat (log.length % s.segmentSize) =
      UInt64.ofNat log.length := by rw [← UInt64.ofNat_add, Nat.div_add_mod']
  unfold booked
  rw [← cached, ← count]
  rfl

/-! ## What the fast load takes from the index -/

private theorem csReadRange_keeps_segments (off len : Nat) : Keeps undoSegments (csReadRange off len) := by
  refine .bind keeps_get fun s => ?_
  split
  · exact keeps_fail
  · refine .bind (keeps_syscall (fun _ _ => rfl) _) fun _ => ?_
    split
    · exact keeps_fail
    · exact keeps_pure

private theorem collectHeaders_keeps_segments (limit : UInt64) (bound : Nat) (off : UInt64) (found : List UndoMeta) :
    Keeps undoSegments (collectHeaders limit bound off found) := by
  induction bound generalizing off found with
  | zero => exact keeps_fail
  | succ bound ih =>
    rw [collectHeaders]
    split
    · split
      · exact keeps_fail
      · exact .bind (csReadRange_keeps_segments _ _) fun _ => .bind (keeps_orStop _) fun _ => ih _ _
    · split
      · exact keeps_pure
      · exact keeps_fail

private theorem foldl_recentPush_segments (ms : List UndoMeta) (s : Store) :
    (ms.foldl recentPush s).undoSegments = s.undoSegments := by
  induction ms generalizing s with
  | nil => rfl
  | cons m ms ih => rw [List.foldl_cons, ih]; rfl

private theorem loadSegments_keeps_segments (size : Nat) (segments : List CommittedSegment) :
    Keeps undoSegments (loadSegments size segments) := by
  induction segments with
  | nil => exact keeps_pure
  | cons g segments ih =>
    refine .bind (.bind (csReadRange_keeps_segments _ _) fun _ => .bind (keeps_orStop _) fun _ => ?_) fun _ => ih
    split
    · exact keeps_fail
    · exact keeps_update (foldl_recentPush_segments _)

private theorem loadUndoForIndexed_segments (undoSize : UInt64) (ix : UndoIndex) (s : Store) :
    Ends (loadUndoForIndexed undoSize ix) s (fun _ t => t.undoSegments = listedBy ix) (fun _ _ => True) := by
  refine ends_update_then ((collectHeaders_keeps_segments _ _ _ _ _).seqMono ?_ fun _ _ _ => trivial)
  intro tail t1 same1
  refine ends_update_then ((loadSegments_keeps_segments _ _ _).seqMono ?_ fun _ _ _ => trivial)
  intro _ t2 same2
  exact ends_update.mpr ((foldl_recentPush_segments _ _).trans (same2.trans same1))

/-- Without an end of a segment below it, an index of no positive size loads nothing. -/
theorem segmentSize_of_usable (usable : s.usableIndex undoSize ix = true)
    (ran : loadUndoForIndexed undoSize ix s = .ok () t) :
    ix.segmentSize.toNat = s.segmentSize ∧ ix.committedBytes = UndoIndex.reached 0 ix.segments := by
  simp only [usableIndex, Bool.and_eq_true, decide_eq_true_eq] at usable
  have size : ix.segmentSize = s.ixSegmentSize := usable.1.1.1.1.1.1.2
  refine ⟨?_, usable.1.1.2⟩
  unfold segmentSize
  split
  · next zero =>
    have none : ix.segmentSize.toNat = 0 := by rw [size, zero]; rfl
    -- the tail is given up at once
    obtain ⟨⟨⟩, t1, -, ran⟩ := bind_ok ran
    obtain ⟨tail, t2, collected, -⟩ := bind_ok ran
    rw [none] at collected
    cases collected
  · rw [size]

private theorem lt_of_chained (chained : usableIndex.chained cur segments = true) :
    ∀ g ∈ segments, g.startOffset < g.endOffset := by
  induction segments generalizing cur with
  | nil => simp
  | cons g segments ih =>
    simp only [usableIndex.chained, Bool.and_eq_true, decide_eq_true_eq] at chained
    intro h member
    rcases List.mem_cons.mp member with rfl | later
    · exact chained.1.2
    · exact ih chained.2 h later

/-- A usable index describes committed bytes. -/
theorem undoSize_of_usable (usable : s.usableIndex undoSize ix = true) : undoSize ≠ 0 := by
  rintro rfl
  simp only [usableIndex, Bool.and_eq_true, decide_eq_true_eq, Bool.not_eq_eq_eq_not, Bool.not_true] at usable
  obtain ⟨⟨⟨⟨⟨-, nonempty⟩, within⟩, committed⟩, -⟩, chained⟩ := usable
  obtain ⟨g, last⟩ : ∃ g, ix.segments.getLast? = some g := by
    cases found : ix.segments.getLast? with
    | none => rw [List.getLast?_eq_none_iff.mp found] at nonempty; cases nonempty
    | some g => exact ⟨g, rfl⟩
  have above := lt_of_chained chained g (List.mem_of_getLast? last)
  rw [committed, UndoIndex.reached, last] at within
  have above := UInt64.lt_iff_toNat_lt.mp above
  have within : g.endOffset.toNat ≤ 0 := UInt64.le_iff_toNat_le.mp within
  omega

theorem loadFast_spec (undoSize : UInt64) (s : Store) : Ends (loadFast undoSize) s
    (fun fast t => fast = true → ∃ ix, s.files.index.cur.map UndoIndex.decode = some (.ok ix) ∧
      s.usableIndex undoSize ix = true ∧ loadUndoForIndexed undoSize ix s = .ok () t) (fun _ _ => True) := by
  refine Ends.get ?_
  split
  · next ix decoded =>
    split
    · next usable =>
      refine (ends_attempt ends_true.ran).seqMono ?_ fun _ _ _ => trivial
      rintro (e | _) t
      · intro _
        exact ends_pure.mpr nofun
      · rintro ⟨ran, -⟩
        exact ends_pure.mpr fun _ => ⟨ix, decoded, usable, ran⟩
    · exact ends_pure.mpr nofun
  · exact ends_pure.mpr nofun

end

/-- The fast load of a committed log agrees with the authoritative scan exactly when the
index on disk lists the closed segments of that log. -/
theorem fast_load_agrees_iff {s t : Store} {m : Manifest} {c : Committed} (names : m.Names c)
    (logged : Logged c.log s.files.undo.cur) (fast : loadFast m.undoSize s = .ok true t) :
    (∃ u, scanUndo m.undoSize { s with script := [] } = .ok () u ∧ undoBooks u = undoBooks t) ↔
      s.listed = closedSegments s.segmentSize c.log := by
  obtain ⟨ix, decoded, usable, ran⟩ := (loadFast_spec _ _).of_ok fast rfl
  have listed : s.listed = listedBy ix := by rw [Store.listed, decoded]
  obtain ⟨size, committed⟩ := segmentSize_of_usable usable ran
  have some : c.log ≠ [] := by
    intro empty
    have zero := names.undoSize
    rw [empty] at zero
    exact undoSize_of_usable usable (UInt64.toNat_inj.mp zero)
  obtain ⟨rest, found⟩ := logged.resolve_left some
  have laid : Bytes.Laid (bytes c.log ++ rest) 0 (bytes c.log) := ⟨[], rest, rfl, rfl⟩
  have scan := scanUndo_spec (s := { s with script := [] }) found laid names.records names.undoSize.symm
  obtain ⟨_, u, scanned, script, rfl⟩ := (scan.mono (fun _ _ => id) fun _ _ stuck => stuck rfl).returns
  rw [listed]
  constructor
  · rintro ⟨u, scanned', same⟩
    rw [scanned] at scanned'
    cases scanned'
    rw [← (loadUndoForIndexed_segments _ _ _).of_ok ran]
    exact (congrArg Prod.fst same).symm
  · intro current
    obtain ⟨script', rfl⟩ :=
      (loadUndoForIndexed_spec found laid names.records names.undoSize.symm size committed current).of_ok ran
    exact ⟨_, scanned, rfl⟩

/-! ## Runs without failures -/

/-- The directory as a process that ends at rest leaves it. -/
def left (s : Store) : Dir where
  manifest := s.files.manifest.cur
  bak := s.files.bak.cur
  ack := s.files.ack.cur
  index := s.files.index.cur
  undo := s.files.undo.cur
  tree := some ⟨s.files.syncedPages, s.files.syncedNext.toNat, false⟩

private theorem survives_left (within : s.files.syncedNext.toNat ≤ s.tree.fileLimit) : Survives s s.left :=
  ⟨.inl rfl, .inl rfl, .inl rfl, .inl rfl, .inl rfl, _, rfl, le_rfl, within, fun _ _ _ => rfl⟩

section
variable [Digest]

/-- Calls that all succeed and are acknowledged, none of them with a batch open. -/
def steps : List Call → Store → Option Store
  | [], s => some s
  | c :: rest, s =>
    if s.batchOpen || !c.acknowledges then none
    else match c.run s with
      | .ok _ t => if t.manifestRoot.isSome then steps rest t else none
      | .error .. => none

private theorem Run.steps (before : Run Admits d limit s acked) (ran : Store.steps calls s = some t) :
    ∃ acked, Run Admits d limit t acked := by
  induction calls generalizing s acked with
  | nil => cases ran; exact ⟨acked, before⟩
  | cons c rest ih =>
    rw [Store.steps] at ran
    split at ran
    · cases ran
    · next ready =>
      simp only [Bool.or_eq_true, not_or, Bool.not_eq_true, Bool.not_eq_false'] at ready
      split at ran
      · next t' called =>
        split at ran
        · next named =>
          obtain ⟨acked', named⟩ := Option.isSome_iff_exists.mp named
          have may : Admits s c := by
            cases c with
            | publish | disconnect => exact ready.1
            | applyBatchBlock | publishBatch => exact fun on => absurd (ready.1.symm.trans on) (by decide)
          exact ih (before.acknowledged may called (by simpa using ready.2) named) ran
        · cases ran
      · cases ran

end

/-! ## A stale index over a rewritten log -/

/-- A block that changes nothing. -/
def idleBlock (height : Int32) : BatchBlock := ⟨[], ByteArr.zero 32, height⟩

/-- Four segments of two records each. -/
def fourSegments : List BatchBlock := [0, 1, 2, 3, 4, 5, 6, 7].map idleBlock

/-- A new store that closes a segment every two records. -/
def pairedStore : Store := endState (@openStore sha256Digest emptyDir) (unopened "store" emptyDir 2 16 [] [])

def segmentedStore : Store := endState (@publishBatch sha256Digest fourSegments) pairedStore

/-- What the index of four segments stands for. -/
def fourCommitted : Committed := ⟨fun _ => none, fourSegments.map BatchBlock.undo, 1, ByteArr.zero 32, 7⟩

/-- The store that opens what they left. -/
def reopened (s : Store) : Store := unopened s.dir s.left s.ixSegmentSize s.tree.fileLimit [] []

private theorem reopened_quiet (s : Store) : { s.reopened with script := [] } = s.reopened := rfl

def fourManifest : Manifest :=
  { generation := 1, undoSize := 448, rootPageId := 0, rootHash := ByteArr.zero 32
    blockHash := ByteArr.zero 32, tipHeight := 7 }

/-- Whether the fast load succeeds. -/
def loadsFast (undoSize : UInt64) (s : Store) : Bool :=
  match loadFast undoSize s with
  | .ok fast _ => fast
  | .error .. => false

private theorem loadsFast_iff : loadsFast undoSize s = true ↔ ∃ t, loadFast undoSize s = .ok true t := by
  unfold loadsFast
  cases loadFast undoSize s <;> simp

/-- After a batch the index lists the closed segments, and the loads agree. -/
theorem fast_load_agrees_iff_batch : ∃ t, loadFast fourManifest.undoSize segmentedStore.reopened = .ok true t ∧
    ∃ u, scanUndo fourManifest.undoSize segmentedStore.reopened = .ok () u ∧ undoBooks u = undoBooks t := by
  have names : fourManifest.Names fourCommitted :=
    ⟨rfl, rfl, by decide +kernel, rfl, rfl, by decide +kernel⟩
  have file : segmentedStore.reopened.files.undo.cur = some (bytes fourCommitted.log ++ []) := by decide +kernel
  have logged : Logged fourCommitted.log segmentedStore.reopened.files.undo.cur := by
    rw [file]
    exact .inr ⟨[], rfl⟩
  obtain ⟨t, fast⟩ :=
    loadsFast_iff.mp (show loadsFast fourManifest.undoSize segmentedStore.reopened = true by decide +kernel)
  have current : segmentedStore.reopened.listed = closedSegments segmentedStore.reopened.segmentSize
    fourCommitted.log := by
    decide +kernel
  have agree := (fast_load_agrees_iff names logged fast).mpr current
  rw [reopened_quiet] at agree
  exact ⟨t, fast, agree⟩

/-- A coin whose script repeats the records behind the first segment. -/
def decoyOp : Op :=
  ⟨⟨ByteArr.zero 32, 0⟩, none,
    some ⟨1, 0 :: ((fourSegments.drop 2).flatMap BatchBlock.record).take 332, 0, 0, false, false⟩⟩

/-- Four segments are published and disconnected; then one record is published in their place. -/
def overwriting : List Call :=
  .publishBatch fourSegments :: List.replicate 8 (.disconnect (ByteArr.zero 32) (ByteArr.zero 32)) ++
    [.publish [decoyOp] (ByteArr.zero 32) 0]

/-- Whether the fast load of what `s` leaves behind succeeds and counts other records than the scan. -/
def miscounts (s : Store) : Bool :=
  match s.left.manifest.map Manifest.decode with
  | some (.ok m) =>
    match loadFast m.undoSize s.reopened, scanUndo m.undoSize s.reopened with
    | .ok true t, .ok _ u => t.undoRecordCount != u.undoRecordCount
    | _, _ => false
  | _ => false

private theorem books_of_miscounts {s : Store} (miscounts : s.miscounts = true) : ∃ m t u,
    s.left.manifest.map Manifest.decode = some (.ok m) ∧ loadFast m.undoSize s.reopened = .ok true t ∧
      scanUndo m.undoSize s.reopened = .ok () u ∧ undoBooks t ≠ undoBooks u := by
  unfold Store.miscounts at miscounts
  split at miscounts
  · next m decoded =>
    split at miscounts
    · next t _ u fast scan =>
      refine ⟨m, t, u, decoded, fast, scan, fun same => ?_⟩
      rw [show t.undoRecordCount = u.undoRecordCount from congrArg (·.2.1) same] at miscounts
      simp at miscounts
    · cases miscounts
  · cases miscounts

/-- The record published last has the length of the four segments, and its coin looks like
the records of three of them: the index that still lists them is taken for current. -/
theorem overwritten_log_miscounted : ∃ acked s m t u, @Run sha256Digest Admits emptyDir 16 s acked ∧ Survives s s.left ∧
    s.left.manifest.map Manifest.decode = some (.ok m) ∧ loadFast m.undoSize s.reopened = .ok true t ∧
    scanUndo m.undoSize s.reopened = .ok () u ∧ undoBooks t ≠ undoBooks u := by
  let := sha256Digest
  have opened : Opened emptyDir 16 pairedStore := ⟨"store", 2, _, _, run_of_succeeds (by decide +kernel)⟩
  have run : ((steps overwriting pairedStore).any fun s =>
      s.miscounts && s.files.syncedNext.toNat ≤ s.tree.fileLimit) = true := by decide +kernel
  obtain ⟨s, stepped, facts⟩ := (Option.any_eq_true _ _).mp run
  simp only [Bool.and_eq_true, decide_eq_true_eq] at facts
  obtain ⟨m, t, u, loads⟩ := books_of_miscounts facts.1
  obtain ⟨acked, ran⟩ := (Run.opened opened).steps stepped
  exact ⟨acked, s, m, t, u, ran, survives_left facts.2, loads⟩

end Store
end Innova.Store3A
