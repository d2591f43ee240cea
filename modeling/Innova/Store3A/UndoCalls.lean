import Innova.Store3A.ClosedSegments
import Innova.Store3A.UndoCommit

/-! What the calls do to the undo bookkeeping, whatever becomes of the tree: the directory
of segments stays that of the committed log. -/
namespace Innova.Store3A
open Lib Chainstate
open scoped List

namespace Store
open UndoLog

/-- The directory of segments is that of the committed log. -/
structure Exact (s : Store) (log : List UndoRecord) : Prop where
  countable : Countable log
  committed : s.undoCommittedBytes.toNat = (bytes log).length
  logged : Logged log s.files.undo.cur
  segments : s.undoSegments = closedSegments s.segmentSize log

/-- And the store can go on from it. The recent cache may have gaps after a refill that failed. -/
structure Working (s : Store) (log : List UndoRecord) : Prop extends Exact s log where
  count : s.undoRecordCount = UInt64.ofNat log.length
  recent : s.undoRecent <+ entries 0 log
  current : ∃ m : Manifest, s.files.manifest.cur = some m.encode ∧ m.Logs log

/-- Its files are in order and no batch is open. -/
structure Standby (s : Store) (log : List UndoRecord) : Prop extends Working s log where
  filed : Filed s.files
  idle : s.batchOpen = false

/-- After a call that failed: unless it asks for a reopen, the store can go on from the log. -/
structure Rests (s : Store) (log : List UndoRecord) : Prop extends Exact s log where
  filed : Filed s.files
  idle : s.batchOpen = false
  working : s.needsReopen = false → Working s log

/-- What every call keeps of a store without open batch. -/
structure Directory (s : Store) : Prop where
  filed : Filed s.files
  idle : s.batchOpen = false
  exact : s.opened = true → ∃ log, Exact s log ∧ (s.needsReopen = false → Working s log)

/-- A call moves the log on, or, unless the machine stops in it, leaves it. -/
abbrev Settles {α : Type} (x : StoreM α) (s : Store) (log log' : List UndoRecord) : Prop :=
  Ends x s (fun _ t => Standby t log') fun stop t => stop ≠ .crashed → Rests t log

section
variable {s t : Store} {batch : List BatchBlock}

theorem Exact.total (exact : Exact s log) : (bytes log).length < 2 ^ 64 :=
  exact.committed ▸ s.undoCommittedBytes.toNat_lt

private theorem Exact.committedBytes (exact : Exact s log) :
    s.undoCommittedBytes = UInt64.ofNat (bytes log).length := by
  rw [← exact.committed, UInt64.ofNat_toNat]

private theorem Working.countToNat (working : Working s log) : s.undoRecordCount.toNat = log.length := by
  rw [working.count, UInt64.toNat_ofNat_of_lt' (working.countable.count.trans (by decide))]

theorem Exact.congr (exact : Exact s log) (committed : t.undoCommittedBytes = s.undoCommittedBytes)
    (segments : t.undoSegments = s.undoSegments) (size : t.ixSegmentSize = s.ixSegmentSize)
    (logged : Logged log t.files.undo.cur) : Exact t log := by
  refine ⟨exact.countable, by rw [committed]; exact exact.committed, logged, ?_⟩
  rw [segments, exact.segments, segmentSize, segmentSize, size]

/-! ## The recent cache -/

private theorem mem_entries {log : List UndoRecord} {off : Nat} {m : UndoMeta} (member : m ∈ entries off log) :
    ∃ done r more, log = done ++ r :: more ∧ m = entry (off + (bytes done).length) r := by
  induction log generalizing off with
  | nil => cases member
  | cons r log ih =>
    rcases List.mem_cons.mp member with rfl | later
    · exact ⟨[], r, log, rfl, rfl⟩
    · obtain ⟨done, r', more, rfl, rfl⟩ := ih later
      exact ⟨r :: done, r', more, rfl, by simp [Nat.add_assoc]⟩

/-- A cached record that ends the log is its last. -/
theorem last_of_end (small : ∀ r ∈ log, r.encode.length < 2 ^ 32) (total : (bytes log).length < 2 ^ 64)
    {last : UndoMeta}
    (member : last ∈ entries 0 log) (ends : last.offset + last.len.toUInt64 = UInt64.ofNat (bytes log).length) :
    ∃ init r, log = init ++ [r] ∧ last = entry (bytes init).length r := by
  obtain ⟨done, r, more, rfl, rfl⟩ := mem_entries member
  rw [Nat.zero_add] at ends ⊢
  rw [show (entry (bytes done).length r).offset = UInt64.ofNat (bytes done).length from rfl,
    entry_end (small r (by simp))] at ends
  have same := congrArg UInt64.toNat ends
  have long : (bytes (done ++ r :: more)).length = (bytes done).length + r.encode.length + (bytes more).length := by
    simp only [bytes_append, bytes_cons, List.length_append]
    omega
  rw [UInt64.toNat_ofNat_of_lt' total, UInt64.toNat_ofNat_of_lt' (show _ < 2 ^ 64 by omega)] at same
  have none : more = [] := bytes_eq_nil.mp (List.length_eq_zero_iff.mp (by omega))
  exact ⟨done, r, by rw [none], rfl⟩

private theorem recentPush_sublist {m : UndoMeta} {ms : List UndoMeta} (recent : s.undoRecent <+ ms) :
    (s.recentPush m).undoRecent <+ ms ++ [m] := by
  have pushed : s.undoRecent ++ [m] <+ ms ++ [m] := recent.append_right _
  unfold recentPush
  dsimp only
  split
  · exact (List.tail_sublist _).trans pushed
  · exact pushed

private theorem foldl_recentPush_sublist (metas : List UndoMeta) {ms : List UndoMeta} (recent : s.undoRecent <+ ms) :
    ∃ recent', metas.foldl recentPush s = { s with undoRecent := recent' } ∧ recent' <+ ms ++ metas := by
  induction metas generalizing s ms with
  | nil => exact ⟨s.undoRecent, rfl, by simpa using recent⟩
  | cons m metas ih =>
    obtain ⟨recent', folded, kept⟩ := ih (s := s.recentPush m) (recentPush_sublist recent)
    exact ⟨recent', folded, by simpa using kept⟩

/-- Entering a batch: its records are counted and cached. -/
theorem pushBatch_spec (batch : List BatchBlock) (recent : s.undoRecent <+ entries 0 log) :
    ∃ recent', pushBatch (UInt64.ofNat (bytes log).length) batch s =
      { s with undoRecent := recent', undoRecordCount := s.undoRecordCount + UInt64.ofNat batch.length } ∧
      recent' <+ entries 0 (extended log batch) := by
  induction batch generalizing log s with
  | nil => exact ⟨s.undoRecent, by simp [pushBatch], by simpa [extended] using recent⟩
  | cons b batch ih =>
    have pushed := recentPush_sublist (m := entry (bytes log).length b.undo) recent
    rw [← entries_snoc] at pushed
    obtain ⟨recent', same, kept⟩ := ih (s := { s.recentPush (entry (bytes log).length b.undo) with
      undoRecordCount := s.undoRecordCount + 1 }) pushed
    refine ⟨recent', ?_, by simpa [extended] using kept⟩
    rw [pushBatch, record_end]
    refine same.trans ?_
    rw [List.length_cons, Nat.add_comm, UInt64.ofNat_add, ← UInt64.add_assoc]
    rfl

/-! ## Frames -/

private theorem guardOpen_passes (s : Store) :
    Ends guardOpen s (fun _ t => s = t ∧ s.opened = true ∧ s.needsReopen = false) (fun _ t => s = t) := by
  refine Ends.get ?_
  split
  · exact rfl
  · next opened =>
    split
    · exact rfl
    · next fine => exact ends_pure.mpr ⟨rfl, by simpa using opened, by simpa using fine⟩

/-- The barriers leave the counters alone. -/
structure SameCounters (s t : Store) : Prop where
  committed : t.undoCommittedBytes = s.undoCommittedBytes
  recent : t.undoRecent = s.undoRecent
  count : t.undoRecordCount = s.undoRecordCount
  size : t.ixSegmentSize = s.ixSegmentSize
  opened : t.opened = s.opened
  reopen : t.needsReopen = s.needsReopen
  batch : t.batchOpen = s.batchOpen

private theorem sameCounters_of_heart (same : heart t = heart s) : SameCounters s t := by
  have all {γ : Type} (f : Store → γ) : f (heart t) = f (heart s) := congrArg f same
  exact ⟨all undoCommittedBytes, all undoRecent, all undoRecordCount, all ixSegmentSize, all opened, all needsReopen,
    all batchOpen⟩

theorem Standby.withTree (ready : Standby s log) (tr : BTree) : Standby { s with tree := tr } log :=
  ⟨⟨⟨ready.countable, ready.committed, ready.logged, ready.segments⟩, ready.count, ready.recent,
    ready.current⟩, ready.filed,
    ready.idle⟩

theorem Standby.rests (ready : Standby s log) : Rests s log :=
  ⟨ready.toExact, ready.filed, ready.idle, fun _ => ready.toWorking⟩

private theorem Rests.directory (rests : Rests s log) : Directory s :=
  ⟨rests.filed, rests.idle, fun _ => ⟨log, rests.toExact, rests.working⟩⟩

theorem Standby.directory (ready : Standby s log) : Directory s := ready.rests.directory

section Digest
variable [Digest]

private theorem restoreRoot_frame (old : PageRef) (s : Store) : ∃ tr, restoreRoot old s = { s with tree := tr } := by
  unfold restoreRoot
  split <;> exact ⟨_, rfl⟩

/-- A rollback is in memory only, and asks for a reopen once the manifest was renamed. -/
theorem rollback_frame (old : PageRef) (s : Store) : ∃ tr reopen why,
    rollback old s = { s with tree := tr, needsReopen := reopen, reopenWhy := why } ∧
      (s.renamePassed = true → reopen = true) := by
  unfold rollback
  split
  · exact ⟨s.tree, true, _, rfl, fun _ => rfl⟩
  · next early =>
    obtain ⟨tr, restored⟩ := restoreRoot_frame old s
    rw [restored]
    dsimp only
    split
    · exact ⟨tr, true, _, rfl, fun _ => rfl⟩
    · exact ⟨tr, s.needsReopen, s.reopenWhy, rfl, fun passed => absurd passed early⟩

omit [Digest] in
/-- Operations on the tree leave everything else. -/
theorem ends_onlyTree {α : Type} {x : TreeM α} {cleanup : Store → Store}
    (cleans : ∀ s, ∃ tr, cleanup s = { s with tree := tr })
    (s : Store) : Ends (onFailure (onTree x) cleanup) s (fun _ t => ∃ tr, t = { s with tree := tr })
      (fun _ t => ∃ tr, t = { s with tree := tr }) := by
  refine ends_onTree_onFailure ends_true (fun _ tr _ => ⟨tr, rfl⟩) fun e tr _ => ?_
  obtain ⟨tr', cleaned⟩ := cleans { s with tree := tr }
  exact ⟨tr', cleaned⟩

end Digest

/-! ## Sealing -/

/-- How a commit that set out from `log` may stop. -/
private theorem rests_of_halted {m : Manifest} {stopped : Store} (ready : Standby s log)
    (logs : m.Logs log) (same : SameCounters s t) (halted : Halted s m log t)
    {tr : BTree} {reopen : Bool} {why : String}
    (cleaned : stopped = { t with tree := tr, needsReopen := reopen, reopenWhy := why })
    (asked : t.renamePassed = true → reopen = true) : Rests stopped log := by
  have exact' : Exact stopped log := by
    rw [cleaned]
    exact ready.toExact.congr same.committed halted.segments same.size halted.logged
  refine ⟨exact', by rw [cleaned]; exact halted.filed, by rw [cleaned]; exact same.batch.trans ready.idle, ?_⟩
  intro fine
  have early : t.renamePassed = false := by
    cases passed : t.renamePassed with
    | false => rfl
    | true =>
      rw [cleaned, asked passed] at fine
      cases fine
  refine ⟨exact', ?_, ?_, m, ?_, logs⟩
  · rw [cleaned]; exact same.count.trans ready.count
  · rw [cleaned]
    rw [same.recent]
    exact ready.recent
  · rw [cleaned]; exact halted.current early

/-- A generation that was published and not acknowledged asks for a reopen. -/
private theorem rests_of_unacknowledged {why : String} (ready : Standby s log)
    (same : SameCounters s t) (filed : Filed t.files) (logged : Logged log t.files.undo.cur)
    (segments : t.undoSegments = s.undoSegments) : Rests (requireReopen why t) log :=
  ⟨ready.toExact.congr same.committed segments same.size logged, filed, same.batch.trans ready.idle, nofun⟩

/-! ## Appending -/

/-- Appending `n` records completes a segment. -/
def Closing (s : Store) (n : Nat) : Prop :=
  s.undoRecordCount.toNat / s.segmentSize < (s.undoRecordCount.toNat + n) / s.segmentSize

/-- A publication whose records fit their fields, and which meets no failure behind the
index where it closes a segment: the first 18 system calls are those up to the rename of
the index, and 14 more publish the manifest and the acknowledgment. -/
structure Orderly (s : Store) (batch : List BatchBlock) : Prop where
  records : ∀ b ∈ batch, b.record.length < 2 ^ 32
  total : s.undoCommittedBytes.toNat + (batch.flatMap BatchBlock.record).length < 2 ^ 64
  count : s.undoRecordCount.toNat + batch.length < 2 ^ 32
  settles : s.Closing batch.length → Calm 14 (s.script.drop 18)

private theorem flatMap_record (batch : List BatchBlock) :
    batch.flatMap BatchBlock.record = bytes (batch.map BatchBlock.undo) := by
  rw [bytes, List.flatMap_map]
  rfl

private theorem Orderly.countable (orderly : s.Orderly batch) (working : Working s log) :
    Countable (extended log batch) := by
  refine ⟨fun r member => ?_, ?_⟩
  · rcases List.mem_append.mp member with old | new
    · exact working.countable.records r old
    · obtain ⟨b, inside, rfl⟩ := List.mem_map.mp new
      exact orderly.records b inside
  · have count := orderly.count
    rw [working.countToNat] at count
    simpa [extended] using count

private theorem Orderly.length_lt (orderly : s.Orderly batch) (working : Working s log) :
    (bytes (extended log batch)).length < 2 ^ 64 := by
  have total := orderly.total
  rwa [working.committed, flatMap_record, ← extended_length] at total

private theorem flatMap_record_ne_nil (nonempty : batch ≠ []) : batch.flatMap BatchBlock.record ≠ [] := by
  rwa [flatMap_record, Ne, bytes_eq_nil, List.map_eq_nil_iff]

/-- The segments an append closes are those the longer log has more. -/
theorem Working.closes {recEnds : Option (List UInt64)} (working : Working s log)
    (orderly : s.Orderly batch) (nonempty : batch ≠ []) (announces : Announces recEnds log batch) :
    closedSegments s.segmentSize (extended log batch) = s.undoSegments ++
      s.closes s.undoCommittedBytes (batch.flatMap BatchBlock.record) recEnds := by
  have stop : s.undoCommittedBytes + UInt64.ofNat (batch.flatMap BatchBlock.record).length =
      UInt64.ofNat (bytes (extended log batch)).length := by
    rw [working.committedBytes, flatMap_record, extended_length, UInt64.ofNat_add]
  have written := flatMap_record_ne_nil nonempty
  rw [Store.closes, if_neg written, stop]
  exact freshSegments_closed working.segments working.count announces (orderly.length_lt working)

private theorem Standby.appends {recEnds : Option (List UInt64)} {m m' : Manifest}
    (ready : Standby s log) (current : s.files.manifest.cur = some m.encode) (logs : m.Logs log)
    (orderly : s.Orderly batch)
    (nonempty : batch ≠ []) (announces : Announces recEnds log batch) (version : m'.formatVersion = 2)
    (size : m'.undoSize = s.undoCommittedBytes + UInt64.ofNat (batch.flatMap BatchBlock.record).length) :
    Appends s m log m' (extended log batch) s.undoCommittedBytes (batch.flatMap BatchBlock.record) recEnds := by
  have total := orderly.length_lt ready.toWorking
  have closed := ready.toWorking.closes orderly nonempty announces
  have written := flatMap_record_ne_nil nonempty
  have same : s.closes s.undoCommittedBytes (batch.flatMap BatchBlock.record) recEnds =
      s.freshSegments (s.undoCommittedBytes + UInt64.ofNat (batch.flatMap BatchBlock.record).length) recEnds :=
        if_neg written
  refine ⟨ready.filed, current, logs, ready.logged, ⟨version, ?_, orderly.countable ready.toWorking⟩, ?_, ?_, ?_, ?_⟩
  · rw [size, ready.committedBytes, flatMap_record, ← UInt64.ofNat_add, ← extended_length,
      UInt64.toNat_ofNat_of_lt' total]
  · intro _
    exact ⟨ready.committed, List.prefix_append _ _, by rw [extended, bytes_append, flatMap_record]⟩
  · exact fun none => absurd none written
  · intro _ _
    rw [same] at closed
    have chained := closedSegments_chained s.segmentSize total
    refine freshIndex_readable ?_ ?_
    · rw [← closed]
      exact chained
    · rw [← closed, closedSegments_length]
      exact lt_of_le_of_lt (Nat.div_le_self _ _) (orderly.countable ready.toWorking).count
  · intro some
    refine orderly.settles ?_
    have longer := congrArg List.length closed
    rw [closedSegments_length, List.length_append, ready.segments, closedSegments_length, extended, List.length_append,
      List.length_map] at longer
    have positive := List.length_pos_of_ne_nil some
    rw [Closing, ready.countToNat]
    omega

section Digest
variable [Digest]

/-- A commit that appends a batch: what its finish has to establish, and what it leaves otherwise. -/
theorem Standby.append {recEnds : Option (List UInt64)} {m' : Manifest} {cleanup finish : Store → Store}
    (ready : Standby s log) (orderly : s.Orderly batch)
    (nonempty : batch ≠ []) (announces : Announces recEnds log batch) (version : m'.formatVersion = 2)
    (size : m'.undoSize = s.undoCommittedBytes + UInt64.ofNat (batch.flatMap BatchBlock.record).length)
    (cleans : ∀ t, ∃ tr reopen why, cleanup t = { t with tree := tr, needsReopen := reopen, reopenWhy := why } ∧
      (t.renamePassed = true → reopen = true))
    (finished : ∀ t, t.undoRecent <+ entries 0 log → t.undoRecordCount = UInt64.ofNat log.length →
      t.batchOpen = false → ∃ recent, finish t = { t.acknowledge m' with
        undoRecent := recent, undoRecordCount := UInt64.ofNat (extended log batch).length } ∧
        recent <+ entries 0 (extended log batch)) :
    Settles (do
        Store.sealGeneration m' s.undoCommittedBytes (batch.flatMap BatchBlock.record) recEnds cleanup
        update finish) s log (extended log batch) := by
  obtain ⟨m, current, logs⟩ := ready.current
  have appends := ready.appends current logs orderly nonempty announces version size
  refine Ends.bind (appends.sealGeneration ?_ ?_ ?_ fun _ crashed => absurd rfl crashed)
  · intro t same filed' named logged segments
    have same := sameCounters_of_heart same
    obtain ⟨recent, done, kept⟩ :=
      finished t (by rw [same.recent]; exact ready.recent) (same.count.trans ready.count) (same.batch.trans ready.idle)
    refine ends_update.mpr ?_
    rw [done]
    refine ⟨⟨⟨orderly.countable ready.toWorking, appends.logs'.undoSize, logged, ?_⟩, rfl, kept, m', named,
      appends.logs'⟩, filed', same.batch.trans ready.idle⟩
    show t.undoSegments = closedSegments t.segmentSize _
    rw [segments, show t.segmentSize = s.segmentSize by rw [segmentSize, segmentSize, same.size]]
    exact (ready.toWorking.closes orderly nonempty announces).symm
  · intro e t same halted _
    obtain ⟨tr, reopen, why, cleaned, asked⟩ := cleans t
    exact rests_of_halted ready logs (sameCounters_of_heart same) halted cleaned asked
  · intro e t why same filed' logged segments _
    exact rests_of_unacknowledged ready (sameCounters_of_heart same) filed' logged segments

/-! ## Publications -/

omit [Digest] in
/-- A call that the guard refuses leaves the store as it is. -/
theorem Standby.guarded (ready : Standby s log) (rest : Settles x s log log') :
    Settles (do guardOpen; x) s log log' := by
  refine (guardOpen_passes s).seqMono ?_ fun _ _ same _ => same ▸ ready.rests
  rintro _ _ ⟨rfl, -, -⟩
  exact rest

omit [Digest] in
private theorem Orderly.withTree (orderly : s.Orderly batch) (tr : BTree) :
    Orderly { s with tree := tr } batch := ⟨orderly.records, orderly.total, orderly.count, orderly.settles⟩

private theorem publish_settles (ready : Standby s log) {d : Delta}
    {blockHash : Hash} {height : Int32} (orderly : s.Orderly [⟨d, blockHash, height⟩]) :
    Settles (publish d blockHash height) s log (extended log [⟨d, blockHash, height⟩]) := by
  refine ready.guarded ?_
  refine (ends_onlyTree (restoreRoot_frame _) (onTreeState BTree.clearRetired s)).seqMono ?_ ?_
  · rintro _ _ ⟨tr, rfl⟩
    have ready := ready.withTree tr
    have orderly := orderly.withTree tr
    show Ends _ { s with tree := tr } _ _
    refine Ends.get ?_
    have single : UndoRecord.encode ⟨blockHash, height, d⟩ =
        [(⟨d, blockHash, height⟩ : BatchBlock)].flatMap BatchBlock.record := by simp [BatchBlock.record]
    rw [single]
    refine Standby.append (s := { s with tree := tr }) ready orderly (by simp) (.inl ⟨rfl, rfl⟩)
      rfl rfl (rollback_frame _) ?_
    intro t recent count _
    have pushed := recentPush_sublist (m := entry (bytes log).length ⟨blockHash, height, d⟩) recent
    rw [← entries_snoc] at pushed
    refine ⟨(t.recentPush (entry (bytes log).length ⟨blockHash, height, d⟩)).undoRecent, ?_, pushed⟩
    have next : UInt64.ofNat (extended log [⟨d, blockHash, height⟩]).length = t.undoRecordCount + 1 := by
      rw [count, extended, List.length_append, UInt64.ofNat_add]
      rfl
    rw [next, ← single, ready.committedBytes]
    rfl
  · rintro _ _ ⟨tr, rfl⟩ _
    exact (ready.withTree tr).rests

private theorem commitBatch_settles (last : BatchBlock) (ready : Standby s log)
    (orderly : s.Orderly batch) (nonempty : batch ≠ []) (old : PageRef) :
    Settles (commitBatch batch last old) s log (extended log batch) := by
  refine Ends.get ?_
  refine ready.append orderly nonempty (.inr (by rw [ready.committedBytes])) rfl rfl ?_ ?_
  · intro t
    obtain ⟨tr, reopen, why, cleaned, asked⟩ := rollback_frame old (onTreeState BTree.abortOverlay t)
    exact ⟨tr, reopen, why, cleaned, asked⟩
  · intro t recent count closed
    obtain ⟨recent', pushed, kept⟩ := pushBatch_spec batch recent
    refine ⟨recent', ?_, kept⟩
    have next : UInt64.ofNat (extended log batch).length = t.undoRecordCount + UInt64.ofNat batch.length := by
      rw [count, extended, List.length_append, List.length_map, UInt64.ofNat_add]
    rw [ready.committedBytes, pushed, next]
    rw [← closed]
    rfl

theorem publishBatch_settles (ready : Standby s log) (orderly : s.Orderly batch) :
    Settles (publishBatch batch) s log (extended log batch) := by
  refine ready.guarded ?_
  have untouched (tr : BTree) : Rests { s with tree := tr } log := (ready.withTree tr).rests
  cases found : batch.getLast? with
  | none =>
    rw [List.getLast?_eq_none_iff.mp found, extended, List.map_nil, List.append_nil]
    exact ends_pure.mpr ready
  | some last =>
    have nonempty : batch ≠ [] := by rintro rfl; cases found
    refine Ends.get ?_
    rw [if_neg (by simp [ready.idle])]
    refine ends_update_then ((ends_onlyTree (fun t => restoreRoot_frame _ (onTreeState _ t))
      (onTreeState (fun t => t.clearRetired.beginOverlay) s)).seqMono ?_ ?_)
    · rintro _ _ ⟨tr, rfl⟩
      refine Ends.seqMono (Q := fun _ t => ∃ tr', t = { s with tree := tr' })
        (E := fun _ t => ∃ tr, t = { s with tree := tr })
        ?_ ?_ ?_
      · refine Ends.get ?_
        split
        · exact ends_onlyTree (fun t => ⟨_, rfl⟩) { s with tree := tr }
        · exact ends_pure.mpr ⟨tr, rfl⟩
      · rintro _ _ ⟨tr', rfl⟩
        exact commitBatch_settles last (ready.withTree tr') (orderly.withTree tr') nonempty _
      · rintro _ _ ⟨tr', rfl⟩ _
        exact untouched tr'
    · rintro _ _ ⟨tr, rfl⟩ _
      exact untouched tr

/-! ## Disconnecting -/

section
omit [Digest]

theorem Standby.withRecent (ready : Standby s log) {recent : List UndoMeta} (cached : recent <+ entries 0 log)
    (script : List Outcome) : Standby { s with undoRecent := recent, script := script } log :=
  ⟨⟨⟨ready.countable, ready.committed, ready.logged, ready.segments⟩, ready.count, cached, ready.current⟩,
    ready.filed, ready.idle⟩

/-- The offset the recent cache is refilled from is where a record starts. -/
theorem Working.reloadStart (working : Working s log) : Boundary log s.reloadStart.toNat := by
  have bounds : ∀ g ∈ s.undoSegments, Boundary log g.startOffset.toNat ∧ Boundary log g.endOffset.toNat := by
    rw [working.segments]
    exact fun g member => closedSegments_boundary working.total member
  unfold Store.reloadStart
  split
  · exact boundary_zero _
  · split
    · next seg found => exact (bounds seg (List.mem_of_getElem? found)).1
    · cases last : s.undoSegments.getLast? with
      | none => exact boundary_zero _
      | some g => exact (bounds g (List.mem_of_getLast? last)).2

/-- With something committed, `undo.dat` starts with the log. -/
theorem Exact.undoFile (exact : Exact s log) (nonempty : log ≠ []) :
    ∃ rest, s.files.undo.cur = some (bytes log ++ rest) :=
  exact.logged.resolve_left nonempty

/-- A refill caches records of the log, wherever it stops. -/
theorem reloadRecentFromStream_directory (working : Working s log) :
    Ends reloadRecentFromStream s
      (fun _ t => ∃ recent rest, t = { s with undoRecent := recent, script := rest } ∧ recent <+ entries 0 log)
      (fun _ t => ∃ recent rest, t = { s with undoRecent := recent, script := rest } ∧ recent <+ entries 0 log) := by
  refine ends_update_then (Ends.get ?_)
  split
  · exact ends_pure.mpr ⟨[], s.script, rfl, List.nil_sublist _⟩
  · next positive =>
    have nonempty : log ≠ [] := by
      rintro rfl
      exact positive working.committedBytes
    obtain ⟨tail, file⟩ := working.undoFile nonempty
    have boundary := working.reloadStart
    rw [show ({ s with undoRecent := [] } : Store).reloadStart = s.reloadStart from rfl]
    generalize s.reloadStart = start at boundary ⊢
    obtain ⟨done, more, cut, off, laid⟩ := boundary.laid tail
    have whole : start.toNat + (bytes more).length = s.undoCommittedBytes.toNat := by
      rw [working.committed, off, cut, bytes_append, List.length_append]
    have small : ∀ r ∈ more, r.encode.length < 2 ^ 32 := fun r member =>
      working.countable.records r (by rw [cut]; simp [member])
    have few := length_le_bytes more
    have walk := walkHeaders_spec (s := { s with undoRecent := [] }) (fun m s => s.recentPush m) true
      (fun _ _ _ => rfl) (fun _ _ => rfl) file laid small whole
        (Nat.lt_succ_of_le (show _ ≤ s.undoCommittedBytes.toNat by omega))
    rw [UInt64.ofNat_toNat] at walk
    have cached (part left : List UndoRecord) (same : more = part ++ left) (rest : List Outcome) :
        ∃ recent rest',
          { (entries start.toNat part).foldl recentPush { s with undoRecent := [] } with script := rest } =
          { s with undoRecent := recent, script := rest' } ∧ recent <+ entries 0 log := by
      obtain ⟨recent, folded, kept⟩ :=
        foldl_recentPush_sublist (s := { s with undoRecent := [] }) (entries start.toNat part)
        (List.nil_sublist [])
      refine ⟨recent, rest, by rw [folded], kept.trans ?_⟩
      rw [cut, same, off, entries_append, entries_append, Nat.zero_add]
      exact (List.sublist_append_left _ _).trans (List.sublist_append_right _ _)
    refine walk.mono ?_ ?_
    · rintro _ _ ⟨rest, rfl, -⟩
      exact cached more [] (by simp) rest
    · rintro _ _ ⟨-, rest, part, left, same, rfl⟩
      exact cached part left same rest

/-- The last committed record, if the cache does not end with another one. -/
theorem lastRecord_directory (working : Working s log)
    (tidy : ∀ last, s.undoRecent.getLast? = some last → last.offset + last.len.toUInt64 = s.undoCommittedBytes) :
    Ends lastRecord s
      (fun last t => ∃ recent rest init r, t = { s with undoRecent := recent, script := rest } ∧
        recent <+ entries 0 log ∧
        recent.getLast? = some last ∧ log = init ++ [r] ∧ last = entry (bytes init).length r)
      (fun _ t => ∃ recent rest, t = { s with undoRecent := recent, script := rest } ∧ recent <+ entries 0 log) := by
  have found {recent : List UndoMeta} {last : UndoMeta} (cached : recent <+ entries 0 log)
    (ends : recent.getLast? = some last)
      (reached : last.offset + last.len.toUInt64 = s.undoCommittedBytes) :
      ∃ init r, log = init ++ [r] ∧ last = entry (bytes init).length r :=
    last_of_end working.countable.records working.total (cached.subset (List.mem_of_getLast? ends))
      (by rw [reached, working.committedBytes])
  refine Ends.get ?_
  split
  · next last ends =>
    obtain ⟨init, r, cut, entry⟩ := found working.recent ends (tidy last ends)
    exact ends_pure.mpr ⟨s.undoRecent, s.script, init, r, rfl, working.recent, ends, cut, entry⟩
  · refine (reloadRecentFromStream_directory working).seq ?_
    rintro _ _ ⟨recent, rest, rfl, cached⟩
    refine Ends.get ?_
    split
    · next last ends =>
      split
      · next reached =>
        obtain ⟨init, r, cut, entry⟩ := found cached ends reached
        exact ends_pure.mpr ⟨recent, rest, init, r, rfl, cached, ends, cut, entry⟩
      · exact ⟨recent, rest, rfl, cached⟩
    · exact ⟨recent, rest, rfl, cached⟩

/-- Without its last record a cache that ended with it holds earlier records only. -/
theorem dropLast_sublist {recent : List UndoMeta} (cached : recent <+ entries 0 (init ++ [r]))
    (ends : recent.getLast? = some (entry (bytes init).length r)) : recent.dropLast <+ entries 0 init := by
  rcases List.eq_nil_or_concat recent with rfl | ⟨front, last, rfl⟩
  · cases ends
  · rw [List.concat_eq_append] at *
    rw [List.getLast?_concat] at ends
    rw [Option.some.inj ends, entries_snoc] at cached
    rw [List.dropLast_concat]
    exact (List.append_sublist_append_right _).mp cached

end

section
variable (ready : Standby s (init ++ [r])) (ends : s.undoRecent.getLast? = some (entry (bytes init).length r))
include ready ends

/-- A commit that takes the last record back. -/
theorem Standby.shrink {m' : Manifest} (version : m'.formatVersion = 2)
    (size : m'.undoSize = s.undoCommittedBytes - (entry (bytes init).length r).len.toUInt64) (old : PageRef) :
    Settles (do
      Store.sealGeneration m' 0 [] none (rollback old)
      update fun s => { s.acknowledge m' with
        undoRecent := s.undoRecent.dropLast, undoRecordCount :=
          s.undoRecordCount - 1 }.trimUncommittedSegments) s (init ++ [r]) init := by
  obtain ⟨m, current, logs⟩ := ready.current
  have total := ready.total
  have committed : m'.undoSize.toNat = (bytes init).length := by
    rw [size, ready.committedBytes, length_concat, ← entry_end (ready.countable.records r (by simp)),
      UInt64.add_sub_cancel,
      UInt64.toNat_ofNat_of_lt' ((bytes_length_lt init r).trans total)]
  have logs' : m'.Logs init := ⟨version, committed, ready.countable.of_append⟩
  have appends : Appends s m (init ++ [r]) m' init 0 [] none :=
    ⟨ready.filed, current, logs, ready.logged, logs', fun some => absurd rfl some, fun _ => List.prefix_append _ _,
      fun some => absurd rfl some, fun some => absurd rfl some⟩
  refine Ends.bind (appends.sealGeneration ?_ ?_ ?_ fun _ crashed => absurd rfl crashed)
  · intro t same filed' named logged segments
    have same := sameCounters_of_heart same
    have count : t.undoRecordCount - 1 = UInt64.ofNat init.length := by
      rw [same.count, ready.count, List.length_append, UInt64.ofNat_add]
      exact UInt64.add_sub_cancel _ _
    have recent : t.undoRecent.dropLast <+ entries 0 init := by
      rw [same.recent]
      exact dropLast_sublist ready.recent ends
    have before : t.undoSegments = closedSegments t.segmentSize (init ++ [r]) := by
      rw [segments, ready.segments, Store.closes, if_pos rfl, List.append_nil, segmentSize, segmentSize, same.size]
    refine ⟨⟨⟨ready.countable.of_append, committed, logged, ?_⟩, count, recent, m', named, logs'⟩, filed',
      same.batch.trans ready.idle⟩
    exact trim_closedSegments (s := { t.acknowledge m' with
      undoRecent := t.undoRecent.dropLast, undoRecordCount :=
        t.undoRecordCount - 1 }) t.segmentSize total before committed
  · intro e t same halted _
    obtain ⟨tr', reopen, why, cleaned, asked⟩ := rollback_frame old t
    exact rests_of_halted ready logs (sameCounters_of_heart same) halted cleaned asked
  · intro e t why same filed' logged segments _
    exact rests_of_unacknowledged ready (sameCounters_of_heart same) filed' logged segments

theorem revert_settles (parentTipHash : Hash) :
    Settles (revert r (entry (bytes init).length r) parentTipHash) s (init ++ [r]) init := by
  refine Ends.get ((ends_onlyTree (restoreRoot_frame _) s).seqMono ?_ ?_)
  · rintro _ _ ⟨tr, rfl⟩
    exact Ends.get ((ready.withTree tr).shrink ends rfl rfl _)
  · rintro _ _ ⟨tr, rfl⟩ _
    exact (ready.withTree tr).rests

end

/-- A disconnect fails before it touched more than the recent cache, or reverts the last record. -/
theorem ends_disconnect {Q : Unit → Store → Prop} {E : Stop → Store → Prop} (ready : Standby s log)
    (tidy : ∀ last, s.undoRecent.getLast? = some last → last.offset + last.len.toUInt64 = s.undoCommittedBytes)
    {blockHash parentTipHash : Hash} (barred : ∀ stop, E stop s)
    (refused : ∀ stop recent script, recent <+ entries 0 log →
      E stop { s with tree := s.tree.clearRetired, undoRecent := recent, script := script })
    (reverts : ∀ init r recent script, log = init ++ [r] → r.blockHash = blockHash → recent <+ entries 0 log →
      recent.getLast? = some (entry (bytes init).length r) → Ends (revert r (entry (bytes init).length r) parentTipHash)
        { s with tree := s.tree.clearRetired, undoRecent := recent, script := script } Q E) :
    Ends (disconnect blockHash parentTipHash) s Q E := by
  refine Ends.bind (ends_guardOpen ?_ barred)
  have ready := ready.withTree s.tree.clearRetired
  refine ends_update_then ((lastRecord_directory ready.toWorking tidy).seqMono ?_ ?_)
  · rintro _ _ ⟨recent, script, init, r, rfl, cached, ends, rfl, rfl⟩
    have small := ready.countable.records r (by simp)
    have short := bytes_length_lt init r
    obtain ⟨tail, file⟩ := ready.undoFile (by simp)
    split
    · exact refused _ _ _ cached
    · next same =>
      have laid : Bytes.Laid (bytes (init ++ [r]) ++ tail) (bytes init).length r.encode :=
        ⟨bytes init, tail, by simp, rfl⟩
      rw [show (entry (bytes init).length r).offset.toNat = _ from UInt64.toNat_ofNat_of_lt' (short.trans ready.total),
        entry_len small]
      refine Ends.seqMono (csReadRange_spec file ?_) ?_ ?_
      · simp
      · rintro body _ ⟨rfl, script', rfl, -⟩
        have parsed : UndoRecord.decode r.encode r.encode.length 0 = .ok (r, 0 + r.encode.length) :=
          UndoRecord.decode_laid ⟨[], [], by simp, rfl⟩ small (by omega)
        rw [laid.slice, parsed]
        exact reverts init r recent script' rfl (not_not.mp same) cached ends
      · rintro _ _ ⟨-, script', rfl⟩
        exact refused _ _ _ cached
  · rintro _ _ ⟨recent, script, rfl, cached⟩
    exact refused _ _ _ cached

private theorem disconnect_settles (ready : Standby s log)
    (tidy : ∀ last, s.undoRecent.getLast? = some last → last.offset + last.len.toUInt64 = s.undoCommittedBytes)
    (blockHash parentTipHash : Hash) : Settles (disconnect blockHash parentTipHash) s log log.dropLast := by
  have cleared := ready.withTree s.tree.clearRetired
  refine ends_disconnect ready tidy (fun _ _ => ready.rests)
    (fun _ _ script cached _ => (cleared.withRecent cached script).rests) ?_
  rintro init r recent script rfl - cached ends
  rw [List.dropLast_concat]
  exact revert_settles (cleared.withRecent cached script) ends parentTipHash

/-- The calls without pre-applied batches that keep the directory of segments: publications
that are orderly, and disconnects while the recent cache, if it holds anything, ends with
the last committed record. -/
def Call.Orderly (s : Store) : Call → Prop
  | publish d blockHash height => s.Orderly [⟨d, blockHash, height⟩]
  | publishBatch batch => s.Orderly batch
  | disconnect .. => ∀ last, s.undoRecent.getLast? = some last → last.offset + last.len.toUInt64 = s.undoCommittedBytes
  | applyBatchBlock _ => False

private theorem Call.run_barred (c : Call) (barred : ¬(s.opened = true ∧ s.needsReopen = false)) :
    Ends c.run s (fun _ _ => False) (fun _ t => s = t) := by
  cases c <;> exact (guardOpen_passes s).seq (fun _ _ passed => absurd passed.2 barred)

/-- One call. -/
theorem Call.directory (dir : Directory s) {c : Call} (orderly : c.Orderly s) :
    Ends c.run s (fun _ t => Directory t) fun stop t => stop ≠ .crashed → Directory t := by
  by_cases passes : s.opened = true ∧ s.needsReopen = false
  · obtain ⟨log, -, working⟩ := dir.exact passes.1
    have ready : Standby s log := ⟨working passes.2, dir.filed, dir.idle⟩
    have settled {log' : List UndoRecord} (settles : Settles c.run s log log') :
        Ends c.run s (fun _ t => Directory t) fun stop t => stop ≠ .crashed → Directory t :=
      settles.mono (fun _ _ => Standby.directory) fun _ _ rests alive => (rests alive).directory
    cases c with
    | publish d blockHash height => exact settled (publish_settles ready orderly)
    | publishBatch batch => exact settled (publishBatch_settles ready orderly)
    | disconnect blockHash parentTipHash => exact settled (disconnect_settles ready orderly blockHash parentTipHash)
    | applyBatchBlock d => exact orderly.elim
  · exact (c.run_barred passes).mono (fun _ _ => False.elim) fun _ _ same _ => same ▸ dir

end Digest
end
end Store
end Innova.Store3A
