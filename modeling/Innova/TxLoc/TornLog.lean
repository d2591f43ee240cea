import Innova.TxLoc.KeepFirst

/-! Torn writes. The write of a record to the log may stop after any byte, with an error or
because the process ends. Opening passes over a torn record at the end of the log but cannot
cut it off: the descriptor it truncates is read-only. As long as no record is appended behind
a torn one, everything synced is found again; `torn_log_misread` appends one. -/
namespace Innova.TxLoc
open Lib Chainstate

/-- Where the system calls of one locator call stop working. -/
inductive Fault where
  | none
  /-- The log takes some bytes of a record before its write fails. -/
  | record (n : Fin 48) (why : String)
  /-- The merged file is not written, synced or renamed. -/
  | merged (msg : String)
  /-- The log is not truncated after the rename. -/
  | truncated
  /-- The truncated log is not synced. -/
  | trimmed

namespace Locator

def appendWalWith (fault : Fault) (r : Record) : LocM Unit :=
  match fault with
  | .record n why => do
    EStateM.modifyGet fun l => ((), { l with wal := some (l.wal.getD [] ++ (encodeRecord r).take n) })
    throw ⟨.io, "add: write: " ++ why⟩
  | _ => appendWal r

def writeMergedTrimWALWith (fault : Fault) : LocM Unit := do
  let l ← EStateM.get
  match l.mainRecords with
  | .error e => throw e
  | .ok table =>
    let merged := Entries.merge table (l.mem.getD [])
    if maxOffset ≤ (mainFile merged).length then throw ⟨.io, "compact: write: File too large"⟩
    else
      match fault, l.walOpen with
      | .merged msg, _ => throw ⟨.io, msg⟩
      | .truncated, true => do
        EStateM.set { l with main := some (mainFile merged) }
        throw ⟨.io, "txloc: wal truncate"⟩
      | .trimmed, true => do
        EStateM.set { l with main := some (mainFile merged), wal := some [] }
        throw ⟨.io, "txloc: wal fsync after truncate"⟩
      | _, _ => writeMergedTrimWAL

def addWith (fault : Fault) (txid : Hash) (loc : Loc) : LocM Unit := do
  let l ← EStateM.get
  match l.mem, l.walOpen with
  | some mem, true =>
    if (Entries.find mem txid).isSome then return
    else do
      appendWalWith fault (txid, loc)
      EStateM.modifyGet fun l => ((), { l with mem := some (Entries.insert mem txid loc) })
      if memtableMax ≤ (Entries.insert mem txid loc).length then writeMergedTrimWALWith fault
      else return
  | _, _ => throw ⟨.notOpen, "txloc: not open for add"⟩

def compactWith (fault : Fault) : LocM Unit := do
  let l ← EStateM.get
  if l.mem.isNone then throw ⟨.notOpen, "txloc: not open"⟩
  else writeMergedTrimWALWith fault

/-- Syncs the log. -/
def sync (works : Bool) : LocM Unit := do
  let l ← EStateM.get
  if !l.walOpen then throw ⟨.notOpen, "txloc: not open"⟩
  else if works then return
  else throw ⟨.io, "txloc: wal fsync"⟩

/-- What the next process finds when this one ends with `n` bytes of the log on disk. -/
def crashed (l : Locator) (n : Nat) : Locator :=
  { main := l.main, wal := l.wal.map (·.take n), fd := none, walOpen := false, mem := none, hadMain := false
    recordCount := 0 }

/-! Where nothing stops, these are the calls of a working system. -/

private theorem writeMergedTrimWALWith_none : writeMergedTrimWALWith .none = writeMergedTrimWAL := by
  funext l
  show (match l.mainRecords with | .error e => _ | .ok table => _ : LocM Unit) l =
    (match l.mainRecords with | .error e => _ | .ok table => _ : LocM Unit) l
  cases read : l.mainRecords with
  | error e => rfl
  | ok table =>
    dsimp only
    split
    · rfl
    · next fits =>
      show (match l.mainRecords with | .error e => _ | .ok table => _ : LocM Unit) l = _
      rw [read]
      dsimp only
      rw [if_neg fits]

theorem addWith_none (txid : Hash) (loc : Loc) : addWith .none txid loc = add txid loc := by
  unfold addWith add
  rw [writeMergedTrimWALWith_none]
  rfl

theorem compactWith_none : compactWith .none = compact := by
  unfold compactWith compact
  rw [writeMergedTrimWALWith_none]

/-! ## Runs -/

inductive Event where
  | add (txid : Hash) (loc : Loc) (fault : Fault)
  | sync (works : Bool)
  | compact (fault : Fault)
  | openDir

def Event.run : Event → LocM Unit
  | .add txid loc fault => addWith fault txid loc
  | .sync works => Locator.sync works
  | .compact fault => compactWith fault
  | .openDir => Locator.openDir

/-- The calls of a run so far. -/
structure Past where
  /-- Every record an add was called with. -/
  tried : List Record
  /-- The transactions an add returned true for. -/
  taken : List Hash
  /-- Those among them that were synced. -/
  safe : List Hash

def Past.done (p : Past) : Event → Past
  | .add txid loc _ => { p with tried := (txid, loc) :: p.tried, taken := txid :: p.taken }
  | .sync _ => { p with safe := p.taken ++ p.safe }
  | _ => p

def Past.failed (p : Past) : Event → Past
  | .add txid loc _ => { p with tried := (txid, loc) :: p.tried }
  | _ => p

def logLength (l : Locator) : Nat := (l.wal.getD []).length

/-- The bytes of the log on disk after a call that returned true. -/
def Event.synced (n : Nat) (l : Locator) : Event → Nat
  | .sync _ => l.logLength
  | _ => min n l.logLength

/-- The states of a locator over a new directory, with the bytes of its log that are surely on
disk. A process may end at any time and leave any of the bytes written since. -/
inductive TornRun (can : Locator → Event → Prop) : Locator → Nat → Past → Prop where
  | fresh : TornRun can fresh 0 ⟨[], [], []⟩
  | done {l l' : Locator} {n : Nat} {p : Past} {e : Event} (before : TornRun can l n p) (may : can l e)
      (ran : e.run l = .ok () l') : TornRun can l' (e.synced n l') (p.done e)
  | failed {l l' : Locator} {n : Nat} {p : Past} {e : Event} {err : LocError} (before : TornRun can l n p)
    (may : can l e)
      (ran : e.run l = .error err l') : TornRun can l' (min n l'.logLength) (p.failed e)
  | crash {l : Locator} {n m : Nat} {p : Past} (before : TornRun can l n p) (kept : n ≤ m) (inside : m ≤ l.logLength) :
      TornRun can (l.crashed m) m { p with taken := p.safe }

/-! ## Whole records and a torn rest -/

/-- A record of the transaction is there. -/
def Has (recs : List Record) (t : Hash) : Prop := ∃ r ∈ recs, r.1 = t

private theorem find_isSome (sorted : Entries.Sorted recs) : (Entries.find recs t).isSome ↔ Has recs t := by
  rw [Option.isSome_iff_exists]
  constructor
  · rintro ⟨loc, found⟩
    exact ⟨(t, loc), (Entries.find_eq_some sorted).mp found, rfl⟩
  · rintro ⟨⟨_, loc⟩, member, rfl⟩
    exact ⟨loc, (Entries.find_eq_some sorted).mpr member⟩

private theorem has_merge {table mem : List Record} (sorted : Entries.Sorted table) (memSorted : Entries.Sorted mem) :
    Has (Entries.merge table mem) t ↔ Has table t ∨ Has mem t := by
  rw [← find_isSome (Entries.merge_sorted sorted memSorted), Entries.find_merge sorted memSorted, Option.isSome_or,
    Bool.or_eq_true, find_isSome sorted, find_isSome memSorted]

private theorem has_insert {mem : List Record} (sorted : Entries.Sorted mem) (txid : Hash) (loc : Loc) :
    Has (Entries.insert mem txid loc) t ↔ t = txid ∨ Has mem t := by
  rw [← find_isSome (Entries.insert_sorted sorted _ _), Entries.find_insert sorted, ← find_isSome sorted]
  split <;> simp [*]

private theorem mem_replay {mem recs : List Record} (member : r ∈ replay mem recs) : r ∈ mem ∨ r ∈ recs := by
  induction recs generalizing mem with
  | nil => exact .inl member
  | cons s recs ih =>
    have split : r ∈ keepFirst mem s ∨ r ∈ recs := ih member
    rcases split with early | later
    · unfold keepFirst at early
      split at early
      · exact .inl early
      · exact (Entries.mem_insert early).elim (fun same => .inr (by simp [same])) .inl
    · exact .inr (by simp [later])

private theorem has_replay {mem recs : List Record} (sorted : Entries.Sorted mem) :
    Has (replay mem recs) t ↔ Has mem t ∨ Has recs t := by
  constructor
  · rintro ⟨r, member, rfl⟩
    exact (mem_replay member).imp (fun early => ⟨r, early, rfl⟩) fun later => ⟨r, later, rfl⟩
  · intro had
    rw [← find_isSome (replay_sorted sorted recs)]
    exact replay_has sorted recs t (had.imp_left (find_isSome sorted).mpr)

/-- A torn record behind the whole ones is passed over. -/
theorem walRecords_torn (recs : List Record) (short : torn.length < 48) :
    walRecords (recs.flatMap encodeRecord ++ torn) = recs := by
  have whole : (recs.flatMap encodeRecord ++ torn).length / 48 = recs.length := by
    rw [List.length_append, records_length]
    omega
  rw [walRecords, whole]
  refine map_range_read recs _ fun i r found => ?_
  obtain ⟨before, after, split, here⟩ := laid_record found []
  have laid : Bytes.Laid (recs.flatMap encodeRecord ++ torn) (i * 48) (encodeRecord r) :=
    ⟨before, after ++ torn, by rw [← List.nil_append (recs.flatMap encodeRecord), split]; simp, by simpa using here⟩
  have slice := laid.slice
  rw [encodeRecord_length] at slice
  rw [slice, decodeRecord_encode]

/-- The first bytes of a log are its first records and a torn one. -/
theorem take_records (recs : List Record) (torn : Bytes) (inside : m ≤ (recs.flatMap encodeRecord ++ torn).length)
    (short : torn.length < 48) : ∃ rest, rest.length < 48 ∧
      (recs.flatMap encodeRecord ++ torn).take m = (recs.take (m / 48)).flatMap encodeRecord ++ rest := by
  induction recs generalizing m with
  | nil =>
    refine ⟨torn.take m, ?_, by simp⟩
    rw [List.length_take]
    omega
  | cons r recs ih =>
    have size := encodeRecord_length r
    rw [List.flatMap_cons, List.append_assoc]
    by_cases early : m < 48
    · refine ⟨(encodeRecord r).take m, ?_, ?_⟩
      · rw [List.length_take]
        omega
      · rw [List.take_append_of_le_length (by omega), Nat.div_eq_of_lt early]
        simp
    · rw [List.flatMap_cons, List.append_assoc, List.length_append] at inside
      obtain ⟨rest, small, same⟩ := ih (m := m - 48) (by omega)
      refine ⟨rest, small, ?_⟩
      rw [List.take_append, size, same, List.take_of_length_le (by omega), show m / 48 = (m - 48) / 48 + 1 by omega,
        List.take_succ_cons, List.flatMap_cons, List.append_assoc]

/-! ## The invariant -/

/-- The files hold a sorted table and a log of whole records with a torn rest. What is synced is
in the table or in the log's synced bytes. -/
structure OnDisk (l : Locator) (n : Nat) (p : Past) (table pending : List Record) (torn : Bytes) : Prop where
  sorted : Entries.Sorted table
  main : (l.main = none ∧ table = []) ∨ l.main = some (mainFile table)
  small : (mainFile table).length < maxOffset
  wal : l.wal.getD [] = pending.flatMap encodeRecord ++ torn
  rest : torn.length < 48
  synced : n ≤ l.logLength
  tried : ∀ r ∈ table ++ pending, r ∈ p.tried
  safe : ∀ t ∈ p.safe, Has table t ∨ Has (pending.take (n / 48)) t

/-- An open locator knows the transactions of its files, from the main file it has open and the
memtable. -/
structure Live (l : Locator) (p : Past) (table pending held mem : List Record) : Prop where
  holds : l.mem = some mem
  memSorted : Entries.Sorted mem
  reads : Reads l held
  tried : ∀ r ∈ held ++ mem, r ∈ p.tried
  same : ∀ t, Has held t ∨ Has mem t ↔ Has table t ∨ Has pending t
  taken : ∀ t ∈ p.taken, Has held t ∨ Has mem t

def Logged (l : Locator) (n : Nat) (p : Past) : Prop :=
  ∃ table pending torn, OnDisk l n p table pending torn ∧
    ((l.walOpen = true ∧ ∃ held mem, Live l p table pending held mem) ∨
      (l.walOpen = false ∧ l.mem = none ∧ ∀ t ∈ p.taken, t ∈ p.safe))

/-- No transaction was added at two locations. -/
def Past.Single (p : Past) : Prop := ∀ t a b, (t, a) ∈ p.tried → (t, b) ∈ p.tried → a = b

/-- What the answers of a locator must be: everything synced is found with its own location, the
only one it was added with, and no location is reported that was not added. -/
def Answers (l : Locator) (p : Past) : Prop :=
  (∀ t ∈ p.safe, ∃ loc, l.get t = .ok (some loc) ∧ ∀ a, (t, a) ∈ p.tried ↔ a = loc) ∧
    ∀ t loc, l.get t = .ok (some loc) → (t, loc) ∈ p.tried

section Steps
variable {l : Locator} {mem : List Record}

private theorem Live.get (live : Live l p table pending held mem) (t : Hash) :
    l.get t = .ok ((Entries.find mem t).or (Entries.find held t)) := by
  rw [Locator.get, live.holds]
  dsimp only
  cases Entries.find mem t with
  | some loc => rfl
  | none => rw [live.reads.searchMain, Option.none_or]

/-- What is synced is in the files. -/
theorem OnDisk.known (disk : OnDisk l n p table pending torn) (synced : t ∈ p.safe) : Has table t ∨ Has pending t :=
  (disk.safe t synced).imp_right fun ⟨r, early, same⟩ => ⟨r, List.mem_of_mem_take early, same⟩

private theorem Live.answers (disk : OnDisk l n p table pending torn) (live : Live l p table pending held mem)
    (single : p.Single) : Answers l p := by
  have reported (t : Hash) (loc : Loc) (found : l.get t = .ok (some loc)) : (t, loc) ∈ p.tried := by
    rw [live.get, Except.ok.injEq, Option.or_eq_some_iff] at found
    rcases found with inMem | ⟨-, inMain⟩
    · exact live.tried _ (List.mem_append_right _ ((Entries.find_eq_some live.memSorted).mp inMem))
    · exact live.tried _ (List.mem_append_left _ ((Entries.find_eq_some live.reads.sorted).mp inMain))
  refine ⟨fun t synced => ?_, reported⟩
  have known : ((Entries.find mem t).or (Entries.find held t)).isSome := by
    rw [Option.isSome_or, Bool.or_eq_true, find_isSome live.memSorted, find_isSome live.reads.sorted]
    exact ((live.same t).mpr (disk.known synced)).symm
  obtain ⟨loc, found⟩ := Option.isSome_iff_exists.mp known
  have answer : l.get t = .ok (some loc) := by rw [live.get, found]
  have own := reported t loc answer
  exact ⟨loc, answer, fun a => ⟨fun added => single t a loc added own, fun same => same ▸ own⟩⟩

section
variable (logged : Logged l n p)
include logged

/-- More may have been tried and less taken. -/
theorem Logged.mono (tried : ∀ r ∈ p.tried, r ∈ q.tried) (taken : ∀ t ∈ q.taken, t ∈ p.taken)
    (safe : q.safe = p.safe) : Logged l n q := by
  obtain ⟨table, pending, torn, disk, state⟩ := logged
  refine ⟨table, pending, torn,
    { disk with tried := fun r member => tried r (disk.tried r member), safe := safe ▸ disk.safe }, ?_⟩
  rcases state with ⟨opened, held, mem, live⟩ | ⟨closed, empty, settled⟩
  · exact .inl ⟨opened, held, mem,
      { live with
        tried := fun r member => tried r (live.tried r member)
        taken := fun t member => live.taken t (taken t member) }⟩
  · exact .inr ⟨closed, empty, fun t member => safe ▸ settled t (taken t member)⟩

/-- No more is synced than there is. -/
theorem Logged.atMost : Logged l (min n l.logLength) p := by
  obtain ⟨table, pending, torn, disk, state⟩ := id logged
  rwa [min_eq_left disk.synced]

omit logged in
private theorem Logged.fresh : Logged fresh 0 ⟨[], [], []⟩ :=
  ⟨[], [], [],
    ⟨List.Pairwise.nil, .inl ⟨rfl, rfl⟩, by rw [mainFile_length, maxOffset]; simp, rfl, by simp, by simp, by simp,
    by simp⟩, .inr ⟨rfl, rfl, by simp⟩⟩

/-- The log is cut anywhere behind its synced bytes. -/
theorem Logged.crash (kept : n ≤ m) (inside : m ≤ l.logLength) :
    Logged (l.crashed m) m { p with taken := p.safe } := by
  obtain ⟨table, pending, torn, disk, -⟩ := logged
  have left : (l.crashed m).wal.getD [] = (l.wal.getD []).take m := by
    cases held : l.wal with
    | none => simp [crashed, held]
    | some wal => simp [crashed, held]
  rw [logLength, disk.wal] at inside
  obtain ⟨rest, short, same⟩ := take_records pending torn inside disk.rest
  refine ⟨table, pending.take (m / 48), rest, ?_, .inr ⟨rfl, rfl, fun t => id⟩⟩
  exact
    { sorted := disk.sorted
      main := disk.main
      small := disk.small
      wal := by rw [left, disk.wal, same]
      rest := short
      synced := by rw [logLength, left, disk.wal, List.length_take]; omega
      tried := fun r member => disk.tried r (by
        rcases List.mem_append.mp member with early | later
        · exact List.mem_append_left _ early
        · exact List.mem_append_right _ (List.mem_of_mem_take later))
      safe := fun t synced => (disk.safe t synced).imp_right fun ⟨r, early, here⟩ => by
        rw [List.take_take, min_self]
        exact ⟨r, List.take_subset_take_left _ (Nat.div_le_div_right kept) early, here⟩ }

private theorem openDir_logged :
    Ends openDir l (fun _ l' => Logged l' (min n l'.logLength) p) (fun _ l' => Logged l' (min n l'.logLength) p) := by
  obtain ⟨table, pending, torn, disk, state⟩ := logged
  refine (readMain_spec (l := l.close) disk.main disk.small rfl).seqMono ?_ fun _ _ => False.elim
  rintro _ _ rfl
  have before : Entries.Sorted (l.mem.getD []) ∧ (∀ r ∈ l.mem.getD [], r ∈ p.tried) ∧
      ∀ t, Has (l.mem.getD []) t → Has table t ∨ Has pending t := by
    rcases state with ⟨-, held, mem, live⟩ | ⟨-, empty, -⟩
    · rw [live.holds]
      exact ⟨live.memSorted, fun r member => live.tried r (List.mem_append_right _ member), fun t has =>
        (live.same t).mp (.inr has)⟩
    · rw [empty]
      exact ⟨List.Pairwise.nil, by simp, by simp [Has]⟩
  have taken (t : Hash) (member : t ∈ p.taken) : Has table t ∨ Has pending t := by
    rcases state with ⟨-, held, mem, live⟩ | ⟨-, -, settled⟩
    · exact (live.same t).mp (live.taken t member)
    · exact disk.known (settled t member)
  have log : walRecords (l.wal.getD []) = pending := by rw [disk.wal, walRecords_torn pending disk.rest]
  have length : min n (l.wal.getD []).length = n := min_eq_left disk.synced
  refine ⟨table, pending, torn, ?_, .inl ⟨rfl, table, replay (l.mem.getD []) pending, ?_⟩⟩
  · refine { disk with synced := min_le_right _ _, safe := ?_ }
    show ∀ t ∈ p.safe, Has table t ∨ Has (pending.take (min n (l.wal.getD []).length / 48)) t
    rw [length]
    exact disk.safe
  · exact
      { holds := by show some (replay (l.mem.getD []) (walRecords (l.wal.getD []))) = _; rw [log]
        memSorted := replay_sorted before.1 pending
        reads := ⟨disk.sorted, disk.small, disk.main, rfl, rfl⟩
        tried := fun r member => by
          rcases List.mem_append.mp member with inTable | inMem
          · exact disk.tried r (List.mem_append_left _ inTable)
          · rcases mem_replay inMem with early | later
            · exact before.2.1 r early
            · exact disk.tried r (List.mem_append_right _ later)
        same := fun t => by
          rw [has_replay before.1]
          have known := before.2.2 t
          tauto
        taken := fun t member => by
          rw [has_replay before.1]
          have known := taken t member
          tauto }

omit logged in
/-- Whatever the merge's system calls do, the files go on holding every record. -/
theorem merge_logged (disk : OnDisk l n p table pending torn) (live : Live l p table pending held mem)
    (opened : l.walOpen = true)
    (fault : Fault) : Ends (writeMergedTrimWALWith fault) l (fun _ l' => Logged l' (min n l'.logLength) p)
      (fun _ l' => Logged l' (min n l'.logLength) p) := by
  have unchanged := Logged.atMost ⟨table, pending, torn, disk, .inl ⟨opened, held, mem, live⟩⟩
  have keys (t : Hash) : Has (Entries.merge held mem) t ↔ Has table t ∨ Has pending t := by
    rw [has_merge live.reads.sorted live.memSorted, live.same t]
  have mergedTried (r : Record) (member : r ∈ Entries.merge held mem) : r ∈ p.tried := by
    rcases (Entries.mem_merge live.reads.sorted live.memSorted).mp member with first | ⟨second, -⟩
    · exact live.tried r (List.mem_append_left _ first)
    · exact live.tried r (List.mem_append_right _ second)
  refine Ends.get ?_
  rw [live.reads.mainRecords, live.holds]
  dsimp only [Option.getD_some]
  split
  · exact unchanged
  · next fits =>
    have newTable : Entries.Sorted (Entries.merge held mem) := Entries.merge_sorted live.reads.sorted live.memSorted
    -- the log may be kept or emptied; the new table alone has every record
    have renamed (l' : Locator) (pending' : List Record) (torn' : Bytes)
        (main : l'.main = some (mainFile (Entries.merge held mem)))
        (wal : l'.wal.getD [] = pending'.flatMap encodeRecord ++ torn') (rest : torn'.length < 48)
        (sub : ∀ r ∈ pending', r ∈ pending) : OnDisk l' (min n l'.logLength) p (Entries.merge held mem)
          pending' torn' :=
      { sorted := newTable
        main := .inr main
        small := Nat.lt_of_not_le fits
        wal := wal
        rest := rest
        synced := min_le_right _ _
        tried := fun r member => by
          rcases List.mem_append.mp member with inTable | inLog
          · exact mergedTried r inTable
          · exact disk.tried r (List.mem_append_right _ (sub r inLog))
        safe := fun t synced => .inl ((keys t).mpr (disk.known synced)) }
    split
    · exact unchanged
    · refine Ends.bind ?_
      rw [ends_set]
      refine ⟨_, _, _, renamed _ pending torn rfl disk.wal disk.rest (fun _ => id), .inl ⟨opened, held, mem, ?_⟩⟩
      exact { live with
        holds := rfl
        reads := { live.reads with }
        same := fun t => by rw [keys t, live.same t]; tauto }
    · refine Ends.bind ?_
      rw [ends_set]
      refine ⟨_, _, _, renamed _ [] [] rfl rfl (by simp) (by simp), .inl ⟨opened, held, mem, ?_⟩⟩
      exact { live with
        holds := rfl
        reads := { live.reads with }
        same := fun t => by rw [keys t, live.same t]; simp [Has] }
    · refine Ends.get ?_
      rw [live.reads.mainRecords, live.holds]
      dsimp only [Option.getD_some]
      rw [if_neg fits, ends_set, if_pos opened]
      refine ⟨_, _, _, renamed _ [] [] rfl rfl (by simp) (by simp), .inl ⟨opened, Entries.merge held mem, [], ?_⟩⟩
      exact
        { holds := rfl
          memSorted := List.Pairwise.nil
          reads := ⟨newTable, Nat.lt_of_not_le fits, .inr rfl, rfl, rfl⟩
          tried := fun r member => mergedTried r (by simpa using member)
          same := fun t => Iff.rfl
          taken := fun t member => .inl ((keys t).mpr ((live.same t).mp (live.taken t member))) }

omit logged in
/-- A record behind a log of whole records. -/
theorem append_logged (disk : OnDisk l n p table pending []) (live : Live l p table pending held mem)
    (past : p' = p.done (.add txid loc .none)) :
    OnDisk { l with
        wal := some (l.wal.getD [] ++ encodeRecord (txid, loc))
        mem := some (Entries.insert mem txid loc) } n p' table (pending ++ [(txid, loc)]) [] ∧
      Live { l with
        wal := some (l.wal.getD [] ++ encodeRecord (txid, loc))
        mem := some (Entries.insert mem txid loc) } p' table
        (pending ++ [(txid, loc)]) held (Entries.insert mem txid loc) := by
  subst past
  have added (t : Hash) : Has (pending ++ [(txid, loc)]) t ↔ Has pending t ∨ t = txid := by
    simp [Has, or_and_right, exists_or, eq_comm]
  have more : n ≤ (l.wal.getD []).length := disk.synced
  constructor
  · refine { disk with wal := ?_, synced := ?_, tried := ?_, safe := ?_ }
    · simp [disk.wal]
    · show n ≤ (l.wal.getD [] ++ encodeRecord (txid, loc)).length
      rw [List.length_append]
      omega
    · intro r member
      rw [← List.append_assoc, List.mem_append, List.mem_singleton] at member
      rcases member with before | rfl
      · exact List.mem_cons_of_mem _ (disk.tried r before)
      · exact List.mem_cons_self
    · intro t synced
      refine (disk.safe t synced).imp_right fun ⟨r, early, same⟩ => ⟨r, ?_, same⟩
      rw [List.take_append]
      exact List.mem_append_left _ early
  · refine {
      holds := rfl, memSorted := Entries.insert_sorted live.memSorted _ _, reads := { live.reads with }
      tried := ?_, same := ?_, taken := ?_ }
    · intro r member
      rcases List.mem_append.mp member with before | inMem
      · exact List.mem_cons_of_mem _ (live.tried r (List.mem_append_left _ before))
      · rcases Entries.mem_insert inMem with rfl | before
        · exact List.mem_cons_self
        · exact List.mem_cons_of_mem _ (live.tried r (List.mem_append_right _ before))
    · intro t
      have known := live.same t
      rw [has_insert live.memSorted, added]
      tauto
    · intro t member
      rw [has_insert live.memSorted]
      rcases List.mem_cons.mp member with rfl | before
      · exact .inr (.inl rfl)
      · exact (live.taken t before).imp_right .inr

/-- A record is appended only to a log of whole records. -/
def WholeLog (l : Locator) : Event → Prop
  | .add txid _ _ => ∀ mem, l.mem = some mem → Entries.find mem txid = none → l.logLength % 48 = 0
  | _ => True

private theorem add_logged (whole : WholeLog l (.add txid loc fault)) :
    Ends (addWith fault txid loc) l (fun _ l' => Logged l' (min n l'.logLength) (p.done (.add txid loc fault)))
      (fun _ l' => Logged l' (min n l'.logLength) (p.failed (.add txid loc fault))) := by
  have onlyTried {l' : Locator} {m : Nat} (kept : Logged l' m p) : Logged l' m (p.failed (.add txid loc fault)) :=
    kept.mono (fun _ => List.mem_cons_of_mem _) (fun _ => id) rfl
  have lessTaken {l' : Locator} {m : Nat} (kept : Logged l' m (p.done (.add txid loc fault))) :
      Logged l' m (p.failed (.add txid loc fault)) :=
    kept.mono (fun _ => id) (fun _ => List.mem_cons_of_mem _) rfl
  have unchanged := logged.atMost
  obtain ⟨table, pending, torn, disk, state⟩ := logged
  refine Ends.get ?_
  rcases state with ⟨opened, held, mem, live⟩ | ⟨closed, empty, -⟩
  · rw [live.holds, opened]
    dsimp only
    split
    · next present =>
      rw [ends_pure, show min n l.logLength = n from min_eq_left disk.synced]
      refine ⟨table, pending, torn, { disk with tried := fun r member => List.mem_cons_of_mem _ (disk.tried r member) },
        .inl ⟨opened, held, mem,
          { live with tried := fun r member => List.mem_cons_of_mem _ (live.tried r member), taken := ?_ }⟩⟩
      intro t member
      rcases List.mem_cons.mp member with rfl | before
      · exact .inr ((find_isSome live.memSorted).mp present)
      · exact live.taken t before
    · next missing =>
      have even : l.logLength % 48 = 0 := whole mem live.holds (by simpa using missing)
      have noRest : torn = [] := by
        have short := disk.rest
        rw [logLength, disk.wal, List.length_append, records_length] at even
        exact List.length_eq_zero_iff.mp (by omega)
      subst noRest
      refine Ends.bind ?_
      cases fault with
      | record k why =>
        refine onlyTried ⟨table, pending, (encodeRecord (txid, loc)).take k, ?_,
          .inl ⟨opened, held, mem, { live with reads := { live.reads with } }⟩⟩
        have more : n ≤ (l.wal.getD [] ++ (encodeRecord (txid, loc)).take k).length := by
          have before : n ≤ (l.wal.getD []).length := disk.synced
          rw [List.length_append]
          omega
        have size : (min n (l.wal.getD [] ++ (encodeRecord (txid, loc)).take k).length) = n := min_eq_left more
        refine { disk with wal := ?_, rest := ?_, synced := min_le_right _ _, safe := ?_ }
        · simp [disk.wal]
        · rw [List.length_take]
          omega
        · show ∀ t ∈ p.safe, Has table t ∨
            Has (pending.take ((min n (l.wal.getD [] ++ (encodeRecord (txid, loc)).take k).length) / 48)) t
          rw [size]
          exact disk.safe
      | _ =>
        refine (appendWal_spec l _).mono ?_ ?_
        · rintro _ _ rfl
          refine Ends.bind ?_
          rw [ends_modifyGet]
          obtain ⟨disk', live'⟩ := append_logged disk live rfl
          split
          · exact (merge_logged disk' live' opened _).mono (fun _ _ => id) fun _ _ => lessTaken
          · rw [ends_pure]
            rw [show min n _ = n from min_eq_left disk'.synced]
            exact ⟨_, _, _, disk', .inl ⟨opened, _, _, live'⟩⟩
        · rintro _ _ ⟨-, rfl⟩
          exact onlyTried unchanged
  · rw [empty]
    exact onlyTried unchanged

private theorem compact_logged (fault : Fault) :
    Ends (compactWith fault) l (fun _ l' => Logged l' (min n l'.logLength) p)
      (fun _ l' => Logged l' (min n l'.logLength) p) := by
  have unchanged := logged.atMost
  obtain ⟨table, pending, torn, disk, state⟩ := logged
  refine Ends.get ?_
  rcases state with ⟨opened, held, mem, live⟩ | closed
  · rw [live.holds]
    exact merge_logged disk live opened fault
  · rw [closed.2.1]
    exact unchanged

/-- A synced log holds what was taken. -/
theorem sync_logged (works : Bool) :
    Ends (sync works) l (fun _ l' => Logged l' l'.logLength (p.done (.sync works)))
      (fun _ l' => Logged l' (min n l'.logLength) p) := by
  have unchanged := logged.atMost
  obtain ⟨table, pending, torn, disk, state⟩ := logged
  refine Ends.get ?_
  rcases state with ⟨opened, held, mem, live⟩ | closed
  · rw [opened]
    cases works with
    | false => exact unchanged
    | true =>
      have all : pending.take (l.logLength / 48) = pending := by
        apply List.take_of_length_le
        rw [logLength, disk.wal, List.length_append, records_length]
        omega
      refine ⟨table, pending, torn, { disk with synced := le_rfl, safe := ?_ }, .inl ⟨opened, held, mem, { live with }⟩⟩
      intro t member
      rw [all]
      rcases List.mem_append.mp member with taken | before
      · exact (live.same t).mp (live.taken t taken)
      · exact disk.known before
  · rw [closed.1]
    exact unchanged

private theorem Event.run_logged (may : WholeLog l e) :
    Ends e.run l (fun _ l' => Logged l' (e.synced n l') (p.done e))
      (fun _ l' => Logged l' (min n l'.logLength) (p.failed e)) := by
  cases e with
  | add txid loc fault => exact add_logged logged may
  | sync works => exact sync_logged logged works
  | compact fault => exact compact_logged logged fault
  | openDir => exact openDir_logged logged

end

end Steps

private theorem TornRun.logged (ran : TornRun WholeLog l n p) : Logged l n p := by
  induction ran with
  | fresh => exact Logged.fresh
  | done _ may ran ih => exact (Event.run_logged ih may).of_ok ran
  | failed _ may ran ih => exact (Event.run_logged ih may).of_error ran
  | crash _ kept inside ih => exact ih.crash kept inside

/-- In a run that appends records to whole logs only and adds no transaction at two locations,
whatever its writes and however its processes end, an open locator finds every synced
transaction with its own location, and reports no location that was not added. -/
theorem torn_log_answers {l : Locator} {n : Nat} {p : Past} (ran : TornRun WholeLog l n p) (single : p.Single)
    (opened : l.walOpen = true) : Answers l p := by
  obtain ⟨table, pending, torn, disk, ⟨-, held, mem, live⟩ | ⟨closed, -⟩⟩ := ran.logged
  · exact live.answers disk single
  · rw [closed] at opened
    cases opened

/-! ## A record behind a torn one -/

def tornTxid : Hash := ByteArr.filled 32 9

def laterTxid : Hash := ByteArr.filled 32 3

/-- Half of the torn transaction and half of the later one. -/
def mixedTxid : Hash := ⟨List.replicate 16 9 ++ List.replicate 16 3, rfl⟩

/-- A locator, the synced bytes of its log and the calls so far. -/
abbrev Progress := Locator × Nat × Past

def Event.next (s : Progress) (e : Event) : Progress :=
  match e.run s.1 with
  | .ok _ l => (l, e.synced s.2.1 l, s.2.2.done e)
  | .error _ l => (l, min s.2.1 l.logLength, s.2.2.failed e)

private theorem TornRun.next (before : TornRun can s.1 s.2.1 s.2.2) (may : can s.1 e) :
    TornRun can (e.next s).1 (e.next s).2.1 (e.next s).2.2 := by
  unfold Event.next
  split
  · next ran => exact .done before may ran
  · next ran => exact .failed before may ran

private theorem TornRun.steps (before : TornRun can s.1 s.2.1 s.2.2) (events : List Event)
    (may : ∀ l e, e ∈ events → can l e) :
    TornRun can (events.foldl Event.next s).1 (events.foldl Event.next s).2.1 (events.foldl Event.next s).2.2 := by
  induction events generalizing s with
  | nil => exact before
  | cons e events ih => exact ih (before.next (may s.1 e (by simp))) fun l e later => may l e (by simp [later])

private theorem TornRun.mono (weaker : ∀ l e, can l e → may l e) (ran : TornRun can l n p) : TornRun may l n p := by
  induction ran with
  | fresh => exact .fresh
  | done _ allowed ran ih => exact .done ih (weaker _ _ allowed) ran
  | failed _ allowed ran ih => exact .failed ih (weaker _ _ allowed) ran
  | crash _ kept inside ih => exact ih.crash kept inside

/-- A record is synced, and the process ends while it writes the next one. -/
def tornStart : Progress :=
  let s := [.openDir, .add someTxid firstLoc .none, .sync true,
    .add tornTxid firstLoc (.record 16 "No space left on device")].foldl Event.next (fresh, 0, ⟨[], [], []⟩)
  (s.1.crashed 64, 64, { s.2.2 with taken := s.2.2.safe })

private theorem tornStart_run : TornRun WholeLog tornStart.1 tornStart.2.1 tornStart.2.2 := by
  have opening : TornRun WholeLog fresh 0 ⟨[], [], []⟩ := .fresh
  have opened := TornRun.next (s := (fresh, 0, ⟨[], [], []⟩)) opening (e := .openDir) trivial
  have added := opened.next (e := .add someTxid firstLoc .none) fun _ _ _ => by decide +kernel
  have synced := added.next (e := .sync true) trivial
  have torn := synced.next (e := .add tornTxid firstLoc (.record 16 "No space left on device"))
    fun _ _ _ => by decide +kernel
  exact torn.crash (m := 64) (by decide +kernel) (by decide +kernel)

theorem torn_log_answers_crash : (Event.openDir.next tornStart).1.get someTxid = .ok (some firstLoc) := by
  have same : ∀ r ∈ (Event.openDir.next tornStart).2.2.tried, r.2 = firstLoc := by decide +kernel
  have answers := torn_log_answers (tornStart_run.next (e := .openDir) trivial)
    (fun _ _ _ one two => (same _ one).trans (same _ two).symm) (by decide +kernel)
  obtain ⟨loc, found, own⟩ := answers.1 someTxid (by decide +kernel)
  rw [found, (own firstLoc).mp (by decide +kernel)]

/-- The next process adds and syncs a record. -/
def behindTorn : Progress := [.openDir, .add laterTxid secondLoc .none, .sync true].foldl Event.next tornStart

/-- It ends without losing a byte. -/
def afterTorn : Progress := (behindTorn.1.crashed 112, 112, { behindTorn.2.2 with taken := behindTorn.2.2.safe })

/-- A record appended behind a torn one is lost at the next opening, though its add returned true
and it was synced, and a location is reported that was never added. -/
theorem torn_log_misread : ∃ l n p, TornRun (fun _ _ => True) l n p ∧ l.walOpen = true ∧
    (laterTxid ∈ p.safe ∧ l.get laterTxid = .ok none) ∧ ∃ loc, l.get mixedTxid = .ok (some loc) ∧
    ∀ t, (t, loc) ∉ p.tried := by
  have start : TornRun (fun _ _ => True) tornStart.1 tornStart.2.1 tornStart.2.2 :=
    tornStart_run.mono fun _ _ _ => trivial
  have later : TornRun (fun _ _ => True) behindTorn.1 behindTorn.2.1 behindTorn.2.2 := by
    unfold behindTorn
    exact start.steps _ fun _ _ _ => trivial
  have ended : TornRun (fun _ _ => True) afterTorn.1 afterTorn.2.1 afterTorn.2.2 :=
    later.crash (by decide +kernel) (by decide +kernel)
  have ran := ended.next (e := .openDir) trivial
  have never : ∀ r ∈ (Event.openDir.next afterTorn).2.2.tried,
    r.2 ≠ ⟨0x03030303, 0x03030303, 0x03030303, 0x03030303⟩ := by
    decide +kernel
  exact ⟨_, _, _, ran, by decide +kernel, ⟨by decide +kernel, by decide +kernel⟩, _, by decide +kernel,
    fun t tried => never _ tried rfl⟩

end Locator
end Innova.TxLoc
