import Innova.Chainstate.Basic
import Innova.Lib.Outcome
import Innova.Lib.SortedTable

/-! The historical transaction locator of `txloc.cpp`: a sorted main file, a write-ahead log
of the records added since it was built, and the memtable the log is replayed into. System
calls work, except that no file grows past the largest offset. -/
namespace Innova.TxLoc
open Lib Chainstate

/-- Where a transaction stands in the block archive. -/
structure Loc where
  nFile : UInt32
  nBlockPos : UInt32
  nTxPos : UInt32
  nHeight : Int32
deriving DecidableEq

inductive ErrCode where
  | none | io | corrupt | notFound | notOpen
deriving DecidableEq

structure LocError where
  code : ErrCode
  msg : String
deriving DecidableEq

abbrev Record := Hash × Loc

/-- Entries of the memtable before a merge is forced. -/
def memtableMax : Nat := 2 ^ 18

/-- File offsets are signed 64-bit numbers. -/
def maxOffset : Nat := 2 ^ 63

/-! ## Records and the main file -/

/-- The transaction id and its location, of fixed size. -/
def encodeRecord (r : Record) : Bytes :=
  r.1.val ++ (Bytes.le 4 r.2.nFile.toNat ++ (Bytes.le 4 r.2.nBlockPos.toNat ++ (Bytes.le 4 r.2.nTxPos.toNat ++
    Bytes.le 4 r.2.nHeight.toUInt32.toNat)))

def decodeU32 (buf : Bytes) (off : Nat) : UInt32 := UInt32.ofNat (Bytes.toNat (Bytes.slice buf off 4))

def decodeRecord (buf : Bytes) : Record :=
  (ByteArr.read 32 buf 0, ⟨decodeU32 buf 32, decodeU32 buf 36, decodeU32 buf 40, (decodeU32 buf 44).toInt32⟩)

/-- `TXLC`, version 1, record width 48 and the number of records. -/
def encodeHeader (count : UInt64) : Bytes :=
  Bytes.le 4 0x434C5854 ++ (Bytes.le 4 1 ++ (Bytes.le 4 48 ++ Bytes.le 8 count.toNat))

/-- The main file of a table. -/
def mainFile (table : List Record) : Bytes := encodeHeader (UInt64.ofNat table.length) ++ table.flatMap encodeRecord

/-- Checks the header of a main file and gives its record count. -/
def readHeader (file : Bytes) : Except LocError UInt64 := do
  if file.length < 20 then throw ⟨.corrupt, "txloc: short header"⟩
  let ver := Bytes.toNat (Bytes.slice file 4 4)
  let width := Bytes.toNat (Bytes.slice file 8 4)
  let cnt := UInt64.ofNat (Bytes.toNat (Bytes.slice file 12 8))
  if Bytes.toNat (Bytes.slice file 0 4) != 0x434C5854 then throw ⟨.corrupt, "txloc: bad magic"⟩
  if ver != 1 then throw ⟨.corrupt, "txloc: unsupported version " ++ toString ver⟩
  if width != 48 then throw ⟨.corrupt, "txloc: unexpected record width " ++ toString width⟩
  let expect := (20 + cnt * 48).toNat
  if file.length < expect then throw ⟨.corrupt, "txloc: truncated main file (size " ++ toString file.length ++
    " < expected " ++ toString expect ++ ")"⟩
  return cnt

/-! ## The locator -/

/-- A locator object and the directory it works on. -/
structure Locator where
  /-- `txloc.dat` -/
  main : Option Bytes
  /-- `txloc.dat.wal` -/
  wal : Option Bytes
  /-- The main file as it was opened. -/
  fd : Option Bytes
  walOpen : Bool
  mem : Option (List Record)
  hadMain : Bool
  recordCount : UInt64

abbrev LocM := EStateM LocError Locator

namespace Locator

/-- A new object over a new directory. -/
def fresh : Locator := ⟨none, none, none, false, none, false, 0⟩

def close (l : Locator) : Locator := { l with fd := none, walOpen := false, recordCount := 0, hadMain := false }

/-- The whole records of the log; a torn one at its end is passed over. -/
def walRecords (wal : Bytes) : List Record :=
  (List.range (wal.length / 48)).map fun i => decodeRecord (Bytes.slice wal (i * 48) 48)

/-- Takes a record into the memtable unless its transaction is there. -/
def keepFirst (mem : List Record) (r : Record) : List Record :=
  if (Entries.find mem r.1).isSome then mem else Entries.insert mem r.1 r.2

/-- The log on top of a table; first locations stay. -/
def replay (mem : List Record) (recs : List Record) : List Record := recs.foldl keepFirst mem

/-- Opens the main file, if there is one. -/
def readMain : LocM Unit := do
  let l ← EStateM.get
  match l.main with
  | none => EStateM.set { l with hadMain := false, recordCount := 0 }
  | some file =>
    match readHeader file with
    | .error e => throw e
    | .ok cnt => EStateM.set { l with fd := some file, hadMain := true, recordCount := cnt }

/-- Opens the main file and replays the log. -/
def openDir : LocM Unit := do
  EStateM.modifyGet fun l => ((), l.close)
  readMain
  EStateM.modifyGet fun l =>
    let wal := l.wal.getD []
    -- the memtable of an earlier opening is not dropped
    ((), { l with wal := some wal, walOpen := true, mem := some (replay (l.mem.getD []) (walRecords wal)) })

/-- A record of the main file by its place. -/
def readRecord (l : Locator) (idx : Nat) : Except LocError Record :=
  match l.fd with
  | none => .error ⟨.io, "txloc: pread record (truncated/IO)"⟩
  | some file =>
    if file.length < 20 + idx * 48 + 48 then .error ⟨.io, "txloc: pread record (truncated/IO)"⟩
    else .ok (decodeRecord (Bytes.slice file (20 + idx * 48) 48))

/-- The records of the main file, if there was one at opening. -/
def mainRecords (l : Locator) : Except LocError (List Record) :=
  if l.hadMain then (List.range l.recordCount.toNat).mapM l.readRecord else .ok []

/-- Merges the memtable into a new main file that replaces the old one, and empties the log. -/
def writeMergedTrimWAL : LocM Unit := do
  let l ← EStateM.get
  match l.mainRecords with
  | .error e => throw e
  | .ok table =>
    let merged := Entries.merge table (l.mem.getD [])
    if maxOffset ≤ (mainFile merged).length then throw ⟨.io, "compact: write: File too large"⟩
    else
      EStateM.set
        { main := some (mainFile merged), wal := if l.walOpen then some [] else l.wal, fd := some (mainFile merged)
          walOpen := l.walOpen, mem := some [], hadMain := true, recordCount := UInt64.ofNat merged.length }

/-- `compact`: the log is merged into the main file. -/
def compact : LocM Unit := do
  let l ← EStateM.get
  if l.mem.isNone then throw ⟨.notOpen, "txloc: not open"⟩
  else writeMergedTrimWAL

/-- Appends a record to the log. -/
def appendWal (r : Record) : LocM Unit := do
  let l ← EStateM.get
  let wal := l.wal.getD [] ++ encodeRecord r
  if maxOffset ≤ wal.length then throw ⟨.io, "add: write: File too large"⟩
  else EStateM.set { l with wal := some wal }

/-- A new transaction goes to the log, and a full memtable to the main file. -/
def add (txid : Hash) (loc : Loc) : LocM Unit := do
  let l ← EStateM.get
  match l.mem, l.walOpen with
  | some mem, true =>
    if (Entries.find mem txid).isSome then return
    else do
      appendWal (txid, loc)
      EStateM.modifyGet fun l => ((), { l with mem := some (Entries.insert mem txid loc) })
      if memtableMax ≤ (Entries.insert mem txid loc).length then writeMergedTrimWAL
      else return
  | _, _ => throw ⟨.notOpen, "txloc: not open for add"⟩

/-- The main file's answer. -/
def searchMain (l : Locator) (txid : Hash) : Except LocError (Option Loc) :=
  if l.fd.isNone || l.recordCount == 0 then .ok none
  else Entries.search l.readRecord txid (l.recordCount.toNat + 1) 0 (l.recordCount.toNat - 1)

/-- The memtable answers first. -/
def get (l : Locator) (txid : Hash) : Except LocError (Option Loc) :=
  match l.mem with
  | some mem =>
    match Entries.find mem txid with
    | some loc => .ok (some loc)
    | none => l.searchMain txid
  | none => if l.fd.isNone then .error ⟨.notOpen, "txloc: not open"⟩ else l.searchMain txid

/-! ## Runs -/

/-- The calls, and a restart of the process. -/
inductive Call where
  | add (txid : Hash) (loc : Loc)
  | compact
  | close
  | openDir
  /-- The object is destroyed and a new one made. -/
  | restart

def Call.run : Call → LocM Unit
  | .add txid loc => Locator.add txid loc
  | .compact => Locator.compact
  | .close => EStateM.modifyGet fun l => ((), l.close)
  | .openDir => Locator.openDir
  | .restart => EStateM.modifyGet fun l => ((), { l.close with mem := none })

/-- The first locations given, after one more successful call. -/
def Call.record (first : Hash → Option Loc) : Call → Hash → Option Loc
  | .add txid loc => if (first txid).isSome then first else Function.update first txid (some loc)
  | _ => first

/-- The states of a locator over a new directory, with the location each transaction was first
added with. No call fails in a system call. -/
inductive Run (can : Locator → Call → Prop) : Locator → (Hash → Option Loc) → Prop where
  | fresh : Run can fresh fun _ => none
  | done {l l' : Locator} {first : Hash → Option Loc} {c : Call} (before : Run can l first) (may : can l c)
      (ran : c.run l = .ok () l') : Run can l' (c.record first)
  | refused {l l' : Locator} {first : Hash → Option Loc} {c : Call} {e : LocError} (before : Run can l first)
      (may : can l c) (ran : c.run l = .error e l') (kind : e.code ≠ .io) : Run can l' first

end Locator
end Innova.TxLoc
