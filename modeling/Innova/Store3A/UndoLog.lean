import Innova.Store3A.CommitSpec

/-! The undo log as a history of the coin set. Its bytes are the records one after the
other, and reading headers finds each of them. -/
namespace Innova.Store3A
open Lib Lib.PagedTree Chainstate

/-! ## Coin maps -/

/-- Encoded coins by key. -/
abbrev CoinMap := Key → Option Bytes

namespace CoinMap

def set (m : CoinMap) (op : Key × Option Coin) : CoinMap := Function.update m op.1 (op.2.map Coin.encode)

def setAll (ops : List (Key × Option Coin)) (m : CoinMap) : CoinMap := ops.foldl set m

@[simp] theorem setAll_nil (m : CoinMap) : setAll [] m = m := rfl
@[simp] theorem setAll_cons (op : Key × Option Coin) (ops : List (Key × Option Coin)) (m : CoinMap) :
    setAll (op :: ops) m = setAll ops (m.set op) := rfl

end CoinMap

namespace BTree

private theorem setEntry_sorted (sorted : Entries.Sorted entries) (op : Key × Option Coin) :
    Entries.Sorted (setEntry entries op) := editEntries_sorted sorted _ _

private theorem find_setEntry (sorted : Entries.Sorted entries) (op : Key × Option Coin) :
    Entries.find (setEntry entries op) = CoinMap.set (Entries.find entries) op := by
  obtain ⟨k, after⟩ := op
  funext j
  rw [CoinMap.set]
  cases after with
  | some c =>
    show Entries.find (Entries.insert entries k c.encode) j = _
    rw [Entries.find_insert sorted]
    by_cases same : j = k <;> simp [same]
  | none =>
    show Entries.find (Entries.erase entries k) j = _
    rw [Entries.find_erase sorted]
    by_cases same : j = k <;> simp [same]

/-- The map of the entries changes as a map does. -/
theorem find_setEntries (sorted : Entries.Sorted entries) (ops : List (Key × Option Coin)) :
    Entries.find (setEntries ops entries) = CoinMap.setAll ops (Entries.find entries) := by
  induction ops generalizing entries with
  | nil => rfl
  | cons op ops ih =>
    rw [setEntries_cons, ih (setEntry_sorted sorted op), find_setEntry sorted, CoinMap.setAll_cons]

end BTree

/-! ## Logs -/

namespace UndoLog

def bytes (recs : List UndoRecord) : Bytes := recs.flatMap UndoRecord.encode

@[simp] theorem bytes_nil : bytes [] = [] := rfl
@[simp] theorem bytes_cons (r : UndoRecord) (rest : List UndoRecord) : bytes (r :: rest) = r.encode ++ bytes rest := rfl
@[simp] theorem bytes_append (recs more : List UndoRecord) : bytes (recs ++ more) = bytes recs ++ bytes more :=
  List.flatMap_append

theorem bytes_eq_nil : bytes recs = [] ↔ recs = [] := by
  constructor
  · intro empty
    cases recs with
    | nil => rfl
    | cons r recs =>
      have long := r.encode_long
      have none : r.encode = [] := (List.append_eq_nil_iff.mp empty).1
      rw [none] at long
      cases long
  · rintro rfl
    rfl

/-! ## Headers -/

section Headers
variable {r : UndoRecord} {off : Nat}

/-- The fixed part of a record, by which it is found. -/
def header (r : UndoRecord) : Bytes :=
  UndoRecord.magic ++ (Bytes.le 4 r.encode.length ++ (r.blockHash.val ++ (Bytes.le 4 r.height.toUInt32.toNat ++
    Bytes.le 4 r.ops.length)))

private theorem header_length (r : UndoRecord) : (header r).length = 52 := by
  simp [header, UndoRecord.magic, r.blockHash.property]

private theorem encode_header (r : UndoRecord) : ∃ rest, r.encode = header r ++ rest := by
  rw [header, r.encode_length]
  simp [UndoRecord.encode, UndoRecord.body, UndoRecord.payload]

/-- What the bookkeeping holds of one record. -/
def entry (off : Nat) (r : UndoRecord) : UndoMeta :=
  ⟨r.blockHash, r.height, UInt64.ofNat off, UInt32.ofNat r.encode.length⟩

theorem entry_len (small : r.encode.length < 2 ^ 32) : (entry off r).len.toNat = r.encode.length :=
  Nat.mod_eq_of_lt small

theorem entry_end (small : r.encode.length < 2 ^ 32) :
    UInt64.ofNat off + (entry off r).len.toUInt64 = UInt64.ofNat (off + r.encode.length) := by
  rw [UInt64.ofNat_add]
  congr 1
  apply UInt64.toNat_inj.mp
  rw [UInt32.toNat_toUInt64, entry_len small, UInt64.toNat_ofNat_of_lt' (small.trans (by decide))]

open Store in
/-- A header that ends inside the range is read for what it is. -/
theorem undoHeaderAt_header (laid : Bytes.Laid h 0 (header r)) (small : r.encode.length < 2 ^ 32)
    (inside : off + r.encode.length ≤ limit.toNat) (located : Bool) :
    undoHeaderAt located h (UInt64.ofNat off) limit = .ok (entry off r) := by
  have long : 52 ≤ h.length := by
    obtain ⟨pre, post, rfl, -⟩ := laid
    simp only [List.length_append, header_length]
    omega
  simp only [header, Bytes.laid_append] at laid
  obtain ⟨magic, len, blockHash, height, -⟩ := laid
  simp only [UndoRecord.magic, List.length_cons, List.length_nil, Bytes.le_length, r.blockHash.property, Nat.zero_add,
    Nat.reduceAdd] at magic len blockHash height
  have readMagic : h.take 8 = UndoRecord.magic := by simpa [Bytes.slice, UndoRecord.magic] using magic.slice
  have readLen : Bytes.toNat (Bytes.slice h 8 4) = r.encode.length := len.toNat small
  have readHeight : Bytes.toNat (Bytes.slice h 44 4) = r.height.toUInt32.toNat :=
    height.toNat r.height.toUInt32.toNat_lt
  have least : ¬UInt32.ofNat r.encode.length < 56 := by
    have := r.encode_long
    rw [UndoRecord.headerSize] at this
    rw [UInt32.lt_iff_toNat_lt, UInt32.toNat_ofNat_of_lt' small]
    simpa using this
  have most : ¬limit < UInt64.ofNat off + (UInt32.ofNat r.encode.length).toUInt64 := by
    have total := limit.toNat_lt
    rw [show UInt64.ofNat off + (UInt32.ofNat r.encode.length).toUInt64 = _ from entry_end small,
      UInt64.lt_iff_toNat_lt,
      UInt64.toNat_ofNat_of_lt' (lt_of_le_of_lt inside total)]
    omega
  simp only [undoHeaderAt, UndoRecord.headerSize, readMagic, readLen, readHeight,
    ByteArr.read_laid blockHash, least, most,
    show ¬h.length < 52 by omega, bind, Except.bind, pure, Except.pure]
  simp [entry]

theorem laid_header (laid : Bytes.Laid file off r.encode) :
    Bytes.Laid (file.drop off) 0 (header r) ∧ Bytes.slice file off 52 = header r := by
  obtain ⟨rest, encoded⟩ := encode_header r
  rw [encoded] at laid
  obtain ⟨here, -⟩ := Bytes.laid_append.mp laid
  refine ⟨?_, by simpa [header_length] using here.slice⟩
  obtain ⟨pre, post, rfl, rfl⟩ := here
  exact ⟨[], post, by simp, rfl⟩

/-- What the bookkeeping holds of the records from `off` on. -/
def entries : (off : Nat) → List UndoRecord → List UndoMeta
  | _, [] => []
  | off, r :: rest => entry off r :: entries (off + r.encode.length) rest

@[simp] theorem entries_nil (off : Nat) : entries off [] = [] := rfl

theorem entries_append (off : Nat) (recs more : List UndoRecord) :
    entries off (recs ++ more) = entries off recs ++ entries (off + (bytes recs).length) more := by
  induction recs generalizing off with
  | nil => rfl
  | cons r recs ih => simp [entries, ih, Nat.add_assoc]

end Headers

/-! ## Reading the log -/

section Reading
open Store
theorem csReadRange_spec (found : s.files.undo.cur = some file) (inside : off + len ≤ file.length) :
    Ends (csReadRange off len) s
      (fun raw t => raw = Bytes.slice file off len ∧ ∃ rest, t = { s with script := rest } ∧
        (s.script = [] → rest = []))
      (fun _ t => s.script ≠ [] ∧ ∃ rest, t = { s with script := rest }) := by
  refine Ends.get ?_
  rw [found]
  refine Ends.bind (ends_syscall ?_ fun stuck stop rest => ⟨stuck, rest, rfl⟩)
  intro rest quiet
  rw [if_neg (by omega)]
  exact ends_pure.mpr ⟨rfl, rest, rfl, quiet⟩

/-- The next header of a range that is not yet at its end: it can be read, and names its record. -/
theorem header_ahead (found : s.files.undo.cur = some file) (laid : Bytes.Laid file off (bytes (r :: recs)))
    (small : r.encode.length < 2 ^ 32) (whole : off + (bytes (r :: recs)).length = limit.toNat) (located : Bool) :
    UInt64.ofNat off < limit ∧ ¬limit < UInt64.ofNat off + 52 ∧ Bytes.Laid file (off + r.encode.length) (bytes recs) ∧
      off + r.encode.length + (bytes recs).length = limit.toNat ∧ Ends (csReadRange (UInt64.ofNat off).toNat 52) s
        (fun raw t => undoHeaderAt located raw (UInt64.ofNat off) limit = .ok (entry off r) ∧
          ∃ rest, t = { s with script := rest } ∧ (s.script = [] → rest = []))
        (fun _ t => s.script ≠ [] ∧ ∃ rest, t = { s with script := rest }) := by
  have total := limit.toNat_lt
  rw [bytes_cons] at laid whole
  rw [List.length_append] at whole
  obtain ⟨here, later⟩ := Bytes.laid_append.mp laid
  have long := r.encode_long
  rw [UndoRecord.headerSize] at long
  have reach : off + r.encode.length ≤ file.length := by
    obtain ⟨pre, post, rfl, rfl⟩ := here
    simp
  have offset : (UInt64.ofNat off).toNat = off := UInt64.toNat_ofNat_of_lt' (lt_of_le_of_lt (by omega) total)
  have next : (UInt64.ofNat (off + 52)).toNat = off + 52 := UInt64.toNat_ofNat_of_lt' (lt_of_le_of_lt (by omega) total)
  have room : ¬limit < UInt64.ofNat off + 52 := by
    rw [show UInt64.ofNat off + 52 = UInt64.ofNat (off + 52) from (UInt64.ofNat_add off 52).symm,
      UInt64.lt_iff_toNat_lt]
    omega
  refine ⟨by rw [UInt64.lt_iff_toNat_lt]; omega, room, later, by omega, ?_⟩
  rw [offset]
  refine (csReadRange_spec found (by omega)).imp ?_
  rintro _ _ ⟨rfl, rest⟩
  rw [(laid_header here).2]
  exact ⟨undoHeaderAt_header ⟨[], [], by simp, rfl⟩ small (by omega) located, rest⟩

theorem range_ended (whole : off + (bytes []).length = limit.toNat) : UInt64.ofNat off = limit := by
  rw [show off = limit.toNat from whole, UInt64.ofNat_toNat]

/-- Walking the headers of a range takes in its records in order. Where a read fails, the
records before it have been taken in. -/
theorem walkHeaders_spec (take : UndoMeta → Store → Store) (located : Bool)
    (blind : ∀ m s rest, take m { s with script := rest } = { take m s with script := rest })
    (files : ∀ m s, (take m s).files = s.files) (found : s.files.undo.cur = some file)
    (laid : Bytes.Laid file off (bytes recs)) (small : ∀ r ∈ recs, r.encode.length < 2 ^ 32)
    (whole : off + (bytes recs).length = limit.toNat) (enough : recs.length < fuel) :
    Ends (walkHeaders located limit take fuel (UInt64.ofNat off)) s
      (fun _ t => ∃ rest, t = { (entries off recs).foldl (fun s m => take m s) s with script := rest } ∧
        (s.script = [] → rest = []))
      (fun _ t => s.script ≠ [] ∧ ∃ rest done more, recs = done ++ more ∧
        t = { (entries off done).foldl (fun s m => take m s) s with script := rest }) := by
  induction recs generalizing off fuel s with
  | nil =>
    obtain ⟨fuel, rfl⟩ := Nat.exists_eq_add_of_lt enough
    have reached := range_ended whole
    rw [walkHeaders, if_neg (by rw [reached]; exact UInt64.lt_irrefl _), if_pos reached]
    exact ends_pure.mpr ⟨s.script, rfl, id⟩
  | cons r recs ih =>
    obtain ⟨fuel, rfl⟩ := Nat.exists_eq_add_of_lt enough
    obtain ⟨started, room, later, whole, read⟩ := header_ahead found laid (small r (by simp)) whole located
    rw [walkHeaders, if_pos started, if_neg room]
    refine read.seqMono ?_ ?_
    · rintro hdr _ ⟨parsed, rest, rfl, quiet⟩
      rw [parsed]
      refine Ends.bind (ends_pure.mpr (ends_update_then ?_))
      rw [entry_end (small r (by simp)), blind]
      have further : Ends
        (walkHeaders located limit take ((r :: recs).length + fuel) (UInt64.ofNat (off + r.encode.length)))
          { take (entry off r) s with script := rest } _ _ :=
        ih (by rw [files]; exact found) later (fun r member => small r (by simp [member])) whole (by simp; omega)
      have same (metas : List UndoMeta) (s : Store) (rest : List Outcome) :
          metas.foldl (fun s m => take m s) { s with script := rest } =
            { metas.foldl (fun s m => take m s) s with script := rest } := by
        induction metas generalizing s with
        | nil => rfl
        | cons m metas ih => rw [List.foldl_cons, List.foldl_cons, blind, ih]
      refine further.mono ?_ ?_
      · rintro _ _ ⟨last, rfl, still⟩
        exact ⟨last, by rw [same]; rfl, fun empty => still (quiet empty)⟩
      · rintro _ _ ⟨stuck, last, done, more, rfl, rfl⟩
        refine ⟨fun empty => stuck (quiet empty), last, r :: done, more, rfl, ?_⟩
        rw [same]
        rfl
    · rintro _ _ ⟨stuck, rest, rfl⟩
      exact ⟨stuck, rest, [], r :: recs, rfl, rfl⟩

end Reading
end UndoLog
end Innova.Store3A
