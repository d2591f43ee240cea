import Mathlib.Data.List.Induction
import Innova.TxLoc.Locator

/-! Every answer of the locator is the location its transaction was first added with, as long
as no call gives a transaction of the main file another location and none merges a locator
that is closed. `get_ne_first` has a run for each. -/
namespace Innova.TxLoc
open Lib Chainstate

/-! ## Records are read back -/

theorem encodeRecord_length (r : Record) : (encodeRecord r).length = 48 := by
  simp [encodeRecord, r.1.property]

private theorem decodeU32_laid (laid : Bytes.Laid buf off (Bytes.le 4 n.toNat)) : decodeU32 buf off = n := by
  rw [decodeU32, laid.toNat n.toNat_lt]
  simp

theorem decodeRecord_encode (r : Record) : decodeRecord (encodeRecord r) = r := by
  have laid : Bytes.Laid (encodeRecord r) 0 (encodeRecord r) := ⟨[], [], by simp, rfl⟩
  obtain ⟨txid, laid⟩ := Bytes.laid_append.mp laid
  obtain ⟨file, block, tx, height⟩ := by simpa only [Bytes.laid_append] using laid
  simp only [r.1.property, Bytes.le_length, Nat.zero_add, Nat.reduceAdd] at file block tx height
  rw [decodeRecord, ByteArr.read_laid txid, decodeU32_laid file, decodeU32_laid block,
    decodeU32_laid tx, decodeU32_laid height]
  simp

theorem records_length (recs : List Record) : (recs.flatMap encodeRecord).length = recs.length * 48 := by
  induction recs with
  | nil => rfl
  | cons r recs ih =>
    rw [List.flatMap_cons, List.length_append, encodeRecord_length, List.length_cons]
    omega

theorem laid_record {recs : List Record} (found : recs[i]? = some r) (pre : Bytes) :
    Bytes.Laid (pre ++ recs.flatMap encodeRecord) (pre.length + i * 48) (encodeRecord r) := by
  induction recs generalizing i pre with
  | nil => cases found
  | cons s recs ih =>
    rw [List.flatMap_cons, ← List.append_assoc]
    cases i with
    | zero =>
      cases found
      exact ⟨pre, recs.flatMap encodeRecord, rfl, by simp⟩
    | succ i =>
      have later := ih (show recs[i]? = some r from found) (pre ++ encodeRecord s)
      rwa [List.length_append, encodeRecord_length, show pre.length + 48 + i * 48 = pre.length +
        (i + 1) * 48 by omega] at later

private theorem decodeRecord_slice {recs : List Record} (found : recs[i]? = some r) (pre : Bytes) :
    decodeRecord (Bytes.slice (pre ++ recs.flatMap encodeRecord) (pre.length + i * 48) 48) = r := by
  have here := (laid_record found pre).slice
  rw [encodeRecord_length] at here
  rw [here, decodeRecord_encode]

/-- The whole of a table read one record after the other. -/
theorem map_range_read {α : Type} (recs : List α) (read : Nat → α) (reads : ∀ i r, recs[i]? = some r → read i = r) :
    (List.range recs.length).map read = recs := by
  apply List.ext_getElem (by simp)
  intro i _ inside
  simpa using reads i _ (List.getElem?_eq_getElem inside)

private theorem mapM_range_read {α ε : Type} (recs : List α) (read : Nat → Except ε α)
    (reads : ∀ i r, recs[i]? = some r → read i = .ok r) : (List.range recs.length).mapM read = .ok recs := by
  induction recs using List.reverseRecOn with
  | nil => rfl
  | append_singleton recs last ih =>
    have before : (List.range recs.length).mapM read = .ok recs := by
      refine ih fun i r found => reads i r ?_
      rw [List.getElem?_append_left (List.getElem?_eq_some_iff.mp found).1, found]
    have here : read recs.length = .ok last := reads _ _ (by simp)
    rw [List.length_append, List.length_singleton, List.range_succ, List.mapM_append, before]
    simp [here, bind, Except.bind, pure, Except.pure]

private theorem encodeHeader_length (count : UInt64) : (encodeHeader count).length = 20 := by simp [encodeHeader]

theorem mainFile_length (table : List Record) : (mainFile table).length = 20 + table.length * 48 := by
  rw [mainFile, List.length_append, encodeHeader_length, records_length]

/-- A main file that fits a file is accepted with its number of records. -/
theorem readHeader_mainFile (small : (mainFile table).length < maxOffset) :
    readHeader (mainFile table) = .ok (UInt64.ofNat table.length) := by
  have size := mainFile_length table
  rw [maxOffset] at small
  have count : (UInt64.ofNat table.length).toNat = table.length := UInt64.toNat_ofNat_of_lt' (show _ < 2 ^ 64 by omega)
  have laid : Bytes.Laid (mainFile table) 0 (encodeHeader (UInt64.ofNat table.length)) :=
    ⟨[], table.flatMap encodeRecord, by simp [mainFile], rfl⟩
  simp only [encodeHeader, Bytes.laid_append] at laid
  obtain ⟨magic, version, width, number⟩ := laid
  have magic := magic.slice
  have version := version.slice
  have width := width.slice
  have number := number.slice
  simp only [Bytes.le_length, count] at magic version width number
  have cnt : Bytes.toNat (Bytes.le 8 table.length) = table.length := Bytes.toNat_le_of_lt (by norm_num; omega)
  have expect : (20 + UInt64.ofNat table.length * 48).toNat = 20 + table.length * 48 := by
    simp only [UInt64.toNat_add, UInt64.toNat_mul, count, UInt64.reduceToNat]
    omega
  simp only [readHeader, magic, version, width, number, cnt, expect, size, bind, Except.bind, pure, Except.pure]
  simp [show ¬20 + table.length * 48 < 20 by omega, Bytes.toNat, Bytes.le]

namespace Locator

private theorem walRecords_records (recs : List Record) : walRecords (recs.flatMap encodeRecord) = recs := by
  rw [walRecords, records_length, Nat.mul_div_cancel _ (by norm_num)]
  refine map_range_read recs _ fun i r found => ?_
  simpa using decodeRecord_slice found []

/-! ## The memtable -/

private theorem keepFirst_find {mem : List Record} (kept : (Entries.find mem r.1).isSome) : keepFirst mem r = mem := by
  rw [keepFirst, if_pos kept]

section
variable {mem : List Record} (sorted : Entries.Sorted mem)
include sorted

private theorem keepFirst_sorted (r : Record) : Entries.Sorted (keepFirst mem r) := by
  unfold keepFirst
  split
  · exact sorted
  · exact Entries.insert_sorted sorted _ _

theorem replay_sorted (recs : List Record) :
    Entries.Sorted (replay mem recs) := by
  induction recs generalizing mem with
  | nil => exact sorted
  | cons r recs ih => exact ih (keepFirst_sorted sorted r)

private theorem keepFirst_has (r : Record) (t : Hash)
    (had : (Entries.find mem t).isSome ∨ r.1 = t) : (Entries.find (keepFirst mem r) t).isSome := by
  unfold keepFirst
  split
  · next kept =>
    rcases had with had | rfl
    · exact had
    · exact kept
  · rw [Entries.find_insert sorted]
    split
    · rfl
    · next apart => exact had.resolve_right fun same => apart same.symm

theorem replay_has (recs : List Record) (t : Hash)
    (had : (Entries.find mem t).isSome ∨ ∃ r ∈ recs, r.1 = t) : (Entries.find (replay mem recs) t).isSome := by
  induction recs generalizing mem with
  | nil => exact had.resolve_right (by simp)
  | cons r recs ih =>
    refine ih (keepFirst_sorted sorted r) ?_
    rcases had with had | ⟨s, member, same⟩
    · exact .inl (keepFirst_has sorted r t (.inl had))
    · rcases List.mem_cons.mp member with rfl | later
      · exact .inl (keepFirst_has sorted s t (.inr same))
      · exact .inr ⟨s, later, same⟩

end

/-- Replaying records that are all there already changes nothing. -/
theorem replay_of_has {mem : List Record} (recs : List Record) (has : ∀ r ∈ recs, (Entries.find mem r.1).isSome) :
    replay mem recs = mem := by
  induction recs with
  | nil => rfl
  | cons r recs ih =>
    show replay (keepFirst mem r) recs = mem
    rw [keepFirst_find (has r (by simp)), ih fun s member => has s (by simp [member])]

private theorem replay_replay (recs : List Record) : replay (replay [] recs) recs = replay [] recs :=
  replay_of_has recs fun r member => replay_has List.Pairwise.nil recs r.1 (.inr ⟨r, member, rfl⟩)

/-! ## The opened main file -/

/-- The main file as it was opened holds a sorted table. -/
structure Reads (l : Locator) (table : List Record) : Prop where
  sorted : Entries.Sorted table
  small : (mainFile table).length < maxOffset
  fd : (l.fd = none ∧ table = []) ∨ l.fd = some (mainFile table)
  hadMain : l.hadMain = l.fd.isSome
  recordCount : l.recordCount = UInt64.ofNat table.length

namespace Reads

section
variable (reads : Reads l table)
include reads

private theorem count : l.recordCount.toNat = table.length := by
  have small := reads.small
  rw [mainFile_length, maxOffset] at small
  rw [reads.recordCount]
  exact UInt64.toNat_ofNat_of_lt' (show _ < 2 ^ 64 by omega)

private theorem readRecord {i : Nat} (found : table[i]? = some r) : l.readRecord i = .ok r := by
  have inside : i < table.length := (List.getElem?_eq_some_iff.mp found).1
  have held : l.fd = some (mainFile table) := by
    rcases reads.fd with ⟨_, rfl⟩ | held
    · cases inside
    · exact held
  have read := decodeRecord_slice found (encodeHeader (UInt64.ofNat table.length))
  simp only [Locator.readRecord, held]
  rw [if_neg (by rw [mainFile_length]; omega)]
  exact congrArg Except.ok read

theorem mainRecords : l.mainRecords = .ok table := by
  rw [Locator.mainRecords, reads.hadMain]
  rcases reads.fd with ⟨absent, rfl⟩ | held
  · simp [absent]
  · rw [held, reads.count]
    exact mapM_range_read table l.readRecord fun i r found => reads.readRecord found

theorem searchMain (t : Hash) : l.searchMain t = .ok (Entries.find table t) := by
  rw [Locator.searchMain, reads.count]
  have whole : Entries.Window table t 0 (table.length - 1) := by
    constructor
    · omega
    · intro i e found late
      have inside := (List.getElem?_eq_some_iff.mp found).1
      omega
  split
  · next nothing =>
    have empty : table.length = 0 := by
      rcases reads.fd with ⟨_, rfl⟩ | held
      · rfl
      · rw [held] at nothing
        have zero : l.recordCount = 0 := by simpa using nothing
        rw [← reads.count, zero]
        rfl
    rw [List.eq_nil_of_length_eq_zero empty]
    rfl
  · next some =>
    exact Entries.search_eq_find reads.sorted (fun i r found => reads.readRecord found) le_rfl
      (by omega) (by omega) whole

end

end Reads

/-! ## The invariant -/

/-- The files hold a sorted table and a log of later records, every first location is in one of
them, and a transaction in both has one location. -/
structure Kept (l : Locator) (first : Hash → Option Loc) (table pending : List Record) : Prop where
  sorted : Entries.Sorted table
  main : (l.main = none ∧ table = []) ∨ l.main = some (mainFile table)
  small : (mainFile table).length < maxOffset
  wal : (l.wal = none ∧ pending = []) ∨ l.wal = some (pending.flatMap encodeRecord)
  mem : ∀ mem, l.mem = some mem → mem = replay [] pending
  first : ∀ t, first t = (Entries.find table t).or (Entries.find (replay [] pending) t)
  agree : ∀ t a b, Entries.find table t = some a → Entries.find (replay [] pending) t = some b → a = b
  opened : l.walOpen = true →
    l.mem.isSome ∧ l.fd = l.main ∧ l.hadMain = l.main.isSome ∧ l.recordCount = UInt64.ofNat table.length

namespace Kept

variable {first : Hash → Option Loc}

section
variable (kept : Kept l first table pending) (opened : l.walOpen = true)
include kept opened

private theorem memtable : l.mem = some (replay [] pending) := by
  obtain ⟨mem, held⟩ := Option.isSome_iff_exists.mp (kept.opened opened).1
  rw [held, kept.mem mem held]

private theorem reads : Reads l table where
  sorted := kept.sorted
  small := kept.small
  fd := by rw [(kept.opened opened).2.1]; exact kept.main
  hadMain := by rw [(kept.opened opened).2.1]; exact (kept.opened opened).2.2.1
  recordCount := (kept.opened opened).2.2.2

/-- An open locator answers with the first location. -/
theorem get (t : Hash) : l.get t = .ok (first t) := by
  rw [Locator.get, kept.memtable opened, kept.first t]
  dsimp only
  cases inMem : Entries.find (replay [] pending) t with
  | some loc =>
    cases inTable : Entries.find table t with
    | some known => rw [kept.agree t known loc inTable inMem, Option.some_or]
    | none => rw [Option.none_or]
  | none => rw [Option.or_none, (kept.reads opened).searchMain]

end

end Kept

/-! ## Steps -/

section Steps
variable {l : Locator} {first : Hash → Option Loc}

/-- A new locator. -/
theorem Kept.fresh : Kept fresh (fun _ => none) [] [] where
  sorted := List.Pairwise.nil
  main := .inl ⟨rfl, rfl⟩
  small := by rw [mainFile_length, maxOffset]; simp
  wal := .inl ⟨rfl, rfl⟩
  mem := nofun
  first _ := rfl
  agree := nofun
  opened := nofun

section
variable (kept : Kept l first table pending)
include kept

private theorem Kept.close : Kept l.close first table pending :=
  { kept with opened := nofun }

theorem Kept.restart : Kept { l.close with mem := none } first table pending :=
  { kept with mem := nofun, opened := nofun }

omit kept in
theorem readMain_spec (main : (l.main = none ∧ table = []) ∨ l.main = some (mainFile table))
    (small : (mainFile table).length < maxOffset) (closed : l.fd = none) : Ends readMain l
      (fun _ l' => l' = { l with fd := l.main, hadMain := l.main.isSome, recordCount := UInt64.ofNat table.length })
      (fun _ _ => False) := by
  refine Ends.get ?_
  rcases main with ⟨absent, rfl⟩ | held
  · rw [absent]
    dsimp only
    rw [ends_set]
    simp [closed]
  · rw [held]
    dsimp only
    rw [readHeader_mainFile small]
    dsimp only
    rw [ends_set]
    rfl

/-- Opening reads back what the files hold. -/
theorem openDir_spec :
    Ends openDir l (fun _ l' => Kept l' first table pending) (fun _ _ => False) := by
  refine (readMain_spec (l := l.close) kept.main kept.small rfl).seq ?_
  rintro _ _ rfl
  have logged : l.wal.getD [] = pending.flatMap encodeRecord := by
    rcases kept.wal with ⟨absent, rfl⟩ | held
    · rw [absent]; rfl
    · rw [held]; rfl
  have replayed : replay (l.mem.getD []) pending = replay [] pending := by
    cases held : l.mem with
    | none => rfl
    | some mem =>
      rw [kept.mem mem held]
      exact replay_replay pending
  refine { kept with wal := ?_, mem := ?_, opened := ?_ }
  · exact .inr (congrArg some logged)
  · rintro _ ⟨⟩
    show replay (l.mem.getD []) (walRecords (l.wal.getD [])) = _
    rw [logged, walRecords_records, replayed]
  · exact fun _ => ⟨rfl, rfl, rfl, rfl⟩

/-- Merging moves the records of the log into the table. -/
theorem writeMergedTrimWAL_spec (opened : l.walOpen = true) : Ends writeMergedTrimWAL l
      (fun _ l' => Kept l' first (Entries.merge table (replay [] pending)) [] ∧ l'.walOpen = true)
        (fun e _ => e.code = .io) := by
  refine Ends.get ?_
  rw [(kept.reads opened).mainRecords, kept.memtable opened]
  dsimp only [Option.getD_some]
  split
  · exact rfl
  · next fits =>
    have logSorted : Entries.Sorted (replay [] pending) := replay_sorted List.Pairwise.nil pending
    refine ⟨?_, opened⟩
    exact
      { sorted := Entries.merge_sorted kept.sorted logSorted
        main := .inr rfl
        small := Nat.lt_of_not_le fits
        wal := .inr rfl
        mem := by rintro _ ⟨⟩; rfl
        first := fun t => by
          rw [kept.first t, Entries.find_merge kept.sorted logSorted]
          exact (Option.or_none).symm
        agree := nofun
        opened := fun _ => ⟨rfl, rfl, rfl, rfl⟩ }

omit kept in
theorem appendWal_spec (l : Locator) (r : Record) :
    Ends (appendWal r) l (fun _ l' => l' = { l with wal := some (l.wal.getD [] ++ encodeRecord r) })
      (fun e l' => e.code = .io ∧ l' = l) := by
  refine Ends.get ?_
  dsimp only
  split
  · exact ⟨rfl, rfl⟩
  · exact rfl

/-- The first locations after adding a transaction whose location in the table, if any, is the
same. -/
theorem Kept.add (opened : l.walOpen = true)
    (absent : Entries.find (replay [] pending) txid = none)
    (same : ∀ known, Entries.find table txid = some known → known = loc) {wal : Bytes}
    (logged : wal = l.wal.getD [] ++ encodeRecord (txid, loc)) :
    Kept { l with wal := some wal, mem := some (Entries.insert (replay [] pending) txid loc) }
      ((Call.add txid loc).record first) table (pending ++ [(txid, loc)]) := by
  have step : replay [] (pending ++ [(txid, loc)]) = Entries.insert (replay [] pending) txid loc := by
    simp [replay, keepFirst, show Entries.find (pending.foldl keepFirst []) txid = none from absent]
  have logSorted : Entries.Sorted (replay [] pending) := replay_sorted List.Pairwise.nil pending
  refine { kept with wal := ?_, mem := ?_, first := ?_, agree := ?_, opened := ?_ }
  · rw [logged]
    rcases kept.wal with ⟨none, rfl⟩ | held
    · simp [none]
    · simp [held]
  · rintro _ ⟨⟩
    exact step.symm
  · intro t
    rw [step, Entries.find_insert logSorted]
    have before := kept.first txid
    rw [absent, Option.or_none] at before
    rw [Call.record, before]
    cases known : Entries.find table txid with
    | some old =>
      rw [if_pos (show (some old).isSome = true from rfl), kept.first t]
      split
      · next here => rw [here, known, Option.some_or, Option.some_or]
      · rfl
    | none =>
      rw [if_neg (by simp), Function.update_apply, kept.first t]
      split
      · next here => rw [here, known, Option.none_or]
      · rfl
  · intro t a b
    rw [step, Entries.find_insert logSorted]
    split
    · next here =>
      rintro inTable ⟨⟩
      exact same a (here ▸ inTable)
    · exact kept.agree t a b
  · exact fun _ => ⟨rfl, (kept.opened opened).2⟩

/-- What the memtable does not hold may only be added where the table holds it already. -/
def Agrees (l : Locator) (txid : Hash) (loc : Loc) : Prop :=
  ∀ mem, l.mem = some mem → Entries.find mem txid = none → ∀ known, l.searchMain txid = .ok (some known) → known = loc

theorem add_spec (agrees : Agrees l txid loc) :
    Ends (add txid loc) l (fun _ l' => ∃ table' pending', Kept l' ((Call.add txid loc).record first) table' pending')
      (fun e l' => e.code = .io ∨ Kept l' first table pending) := by
  refine Ends.get ?_
  cases opened : l.walOpen with
  | false =>
    cases held : l.mem with
    | none => exact .inr kept
    | some mem => exact .inr kept
  | true =>
    rw [kept.memtable opened]
    dsimp only
    split
    · next present =>
      have before : (first txid).isSome := by
        rw [kept.first txid]
        simp [present]
      rw [Call.record, if_pos before]
      exact ⟨table, pending, kept⟩
    · next missing =>
      have absent : Entries.find (replay [] pending) txid = none := by simpa using missing
      have same : ∀ known, Entries.find table txid = some known → known = loc := fun known found =>
        agrees _ (kept.memtable opened) absent known (by rw [(kept.reads opened).searchMain, found])
      refine (appendWal_spec l _).seqMono ?_ fun _ _ failed => .inl failed.1
      rintro _ _ rfl
      have added := kept.add opened absent same rfl
      split
      · exact (writeMergedTrimWAL_spec added opened).mono (fun _ _ merged => ⟨_, _, merged.1⟩) fun _ _ io => .inl io
      · exact ⟨_, _, added⟩

private theorem compact_spec (opened : l.walOpen = true) :
    Ends compact l (fun _ l' => (∃ table', Kept l' first table' []) ∧ l'.walOpen = true) (fun e _ => e.code = .io) := by
  refine Ends.get ?_
  rw [kept.memtable opened]
  exact (writeMergedTrimWAL_spec kept opened).imp (fun _ _ merged => ⟨⟨_, merged.1⟩, merged.2⟩)

end

end Steps

/-! ## Runs -/

/-- A transaction of the main file is added again only with the location it has there, and only
an open locator is merged. -/
def Admits (l : Locator) : Call → Prop
  | .add txid loc => Agrees l txid loc
  | .compact => l.walOpen = true
  | _ => True

private theorem Call.run_spec (kept : Kept l first table pending) (may : Admits l c) :
    Ends c.run l (fun _ l' => ∃ table' pending', Kept l' (c.record first) table' pending')
      (fun e l' => e.code = .io ∨ ∃ table' pending', Kept l' first table' pending') := by
  cases c with
  | add txid loc => exact (add_spec kept may).mono (fun _ _ => id) fun _ _ => Or.imp_right fun same => ⟨_, _, same⟩
  | compact =>
    exact (compact_spec kept may).mono (fun _ _ ⟨⟨table', merged⟩, _⟩ => ⟨table', [], merged⟩) fun _ _ => .inl
  | close => exact ⟨_, _, kept.close⟩
  | openDir => exact (openDir_spec kept).mono (fun _ _ opened => ⟨_, _, opened⟩) fun _ _ => False.elim
  | restart => exact ⟨_, _, kept.restart⟩

private theorem Run.kept (ran : Run Admits l first) : ∃ table pending, Kept l first table pending := by
  induction ran with
  | fresh => exact ⟨[], [], Kept.fresh⟩
  | done _ may ran ih =>
    obtain ⟨table, pending, kept⟩ := ih
    exact (Call.run_spec kept may).of_ok ran
  | refused _ may ran kind ih =>
    obtain ⟨table, pending, kept⟩ := ih
    exact ((Call.run_spec kept may).of_error ran).resolve_left kind

/-- In a run of admitted calls an open locator answers every transaction with the location it
was first added with, and a merge changes no answer. -/
theorem get_eq_first {l : Locator} {first : Hash → Option Loc} (ran : Run Admits l first) (opened : l.walOpen = true) :
    (∀ txid, l.get txid = .ok (first txid)) ∧ ∀ l', compact l = .ok () l' → ∀ txid, l'.get txid = l.get txid := by
  obtain ⟨table, pending, kept⟩ := ran.kept
  refine ⟨kept.get opened, ?_⟩
  intro l' merged txid
  obtain ⟨⟨table', kept'⟩, opened'⟩ := (compact_spec kept opened).of_ok merged
  rw [kept'.get opened', kept.get opened]

def someTxid : Hash := ByteArr.filled 32 7

def firstLoc : Loc := ⟨1, 10, 20, 5⟩

def secondLoc : Loc := ⟨2, 30, 40, 9⟩

/-- The state after some calls. -/
def after (calls : List Call) : Locator := calls.foldl (fun l c => endState c.run l) fresh

/-- The first locations after some calls. -/
def firstAfter (calls : List Call) : Hash → Option Loc := calls.foldl Call.record fun _ => none

/-- Every call succeeds. -/
def allSucceed : Locator → List Call → Bool
  | _, [] => true
  | l, c :: calls => succeeds c.run l && allSucceed (endState c.run l) calls

private theorem Run.next (before : Run can l first) (may : can l c) (done : succeeds c.run l = true) :
    Run can (endState c.run l) (c.record first) := .done before may (run_of_succeeds done)

private theorem Run.append (before : Run can l first) (may : ∀ l c, c ∈ calls → can l c)
    (done : allSucceed l calls = true) :
    Run can (calls.foldl (fun l c => endState c.run l) l) (calls.foldl Call.record first) := by
  induction calls generalizing l first with
  | nil => exact before
  | cons c calls ih =>
    rw [allSucceed, Bool.and_eq_true] at done
    exact ih (before.next (may l c (by simp)) done.1) (fun l c later => may l c (by simp [later])) done.2

/-- A second location is passed over, and the first one outlives a merge, an add and a restart. -/
theorem get_eq_first_reopened : (after [.openDir, .add someTxid firstLoc, .add someTxid secondLoc, .compact,
    .add someTxid firstLoc, .restart, .openDir]).get someTxid = .ok (some firstLoc) := by
  have started : Run Admits _ _ := .fresh
  have opened := started.next (c := .openDir) trivial (by decide +kernel)
  have added := opened.next (c := .add someTxid firstLoc) (fun _ _ _ _ found => nomatch found) (by decide +kernel)
  have again := added.next (c := .add someTxid secondLoc) (fun _ held missing => by cases held; cases missing)
    (by decide +kernel)
  have merged := again.next (c := .compact) rfl (by decide +kernel)
  have present : (after [.openDir, .add someTxid firstLoc, .add someTxid secondLoc, .compact]).searchMain someTxid =
      .ok (some firstLoc) := by decide +kernel
  have same := merged.next (c := .add someTxid firstLoc)
    (fun _ _ _ known found => by cases present.symm.trans found; rfl) (by decide +kernel)
  have ended := same.next (c := .restart) trivial (by decide +kernel)
  have reopened := ended.next (c := .openDir) trivial (by decide +kernel)
  exact (get_eq_first reopened (by decide +kernel)).1 someTxid

/-- A merged transaction added again with another location is found there until the next
merge. Merging a closed locator drops what the main file held. -/
theorem get_ne_first :
    (∃ l first, Run (fun _ _ => True) l first ∧ first someTxid = some firstLoc ∧ l.get someTxid = .ok (some secondLoc) ∧
      ∃ l', compact l = .ok () l' ∧ l'.get someTxid = .ok (some firstLoc)) ∧
    ∃ l first, Run (fun _ _ => True) l first ∧ l.walOpen = true ∧ first someTxid = some firstLoc ∧
      l.get someTxid = .ok none := by
  constructor
  · have ran : Run (fun _ _ => True) (after [.openDir, .add someTxid firstLoc, .compact, .add someTxid secondLoc])
        (firstAfter [.openDir, .add someTxid firstLoc, .compact, .add someTxid secondLoc]) :=
      Run.append .fresh (fun _ _ _ => trivial) (by decide +kernel)
    exact ⟨_, _, ran, by decide +kernel, by decide +kernel, _, run_of_succeeds (by decide +kernel), by decide +kernel⟩
  · have ran : Run (fun _ _ => True) (after [.openDir, .add someTxid firstLoc, .compact, .close, .compact, .openDir])
        (firstAfter [.openDir, .add someTxid firstLoc, .compact, .close, .compact, .openDir]) :=
      Run.append .fresh (fun _ _ _ => trivial) (by decide +kernel)
    exact ⟨_, _, ran, by decide +kernel, by decide +kernel, by decide +kernel⟩

end Locator
end Innova.TxLoc
