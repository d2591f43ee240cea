import Innova.Store3A.Records

/-! The durable segmented undo index of `incstore.cpp`: derived metadata that names
the byte ranges of closed segments of the committed undo stream. -/
namespace Innova.Store3A
open Lib Chainstate

/-- The byte range of a closed segment; its checksum is computed when it is written. -/
structure UndoSegment where
  startOffset : UInt64
  endOffset : UInt64
  recordCount : UInt32
deriving DecidableEq

structure UndoIndex where
  formatVersion : UInt32 := 1
  segmentSize : UInt32
  /-- End of the last closed segment described. -/
  committedBytes : UInt64 := 0
  baseOffset : UInt64 := 0
  baseGeneration : UInt64 := 0
  segments : List UndoSegment
deriving DecidableEq

namespace UndoSegment

def body (s : UndoSegment) : Bytes :=
  Bytes.le 8 s.startOffset.toNat ++ (Bytes.le 8 s.endOffset.toNat ++ Bytes.le 4 s.recordCount.toNat)

def encode (s : UndoSegment) : Bytes := s.body ++ crcBytes s.body

private theorem body_length (s : UndoSegment) : s.body.length = 20 := by simp [body]

private theorem encode_length (s : UndoSegment) : s.encode.length = 24 := by simp [encode, body_length, crcBytes]

end UndoSegment

namespace UndoIndex

/-- `INNUIDX1` -/
def magic : Bytes := [73, 78, 78, 85, 73, 68, 88, 49]

def header (ix : UndoIndex) : Bytes :=
  magic ++ (Bytes.le 4 ix.formatVersion.toNat ++ (Bytes.le 4 ix.segmentSize.toNat ++
    (Bytes.le 8 ix.committedBytes.toNat ++ (Bytes.le 8 ix.baseOffset.toNat ++ (Bytes.le 8 ix.baseGeneration.toNat ++
      Bytes.le 4 ix.segments.length)))))

def encode (ix : UndoIndex) : Bytes :=
  ix.header ++ crcBytes ix.header ++ ix.segments.flatMap UndoSegment.encode

/-- Where the next segment has to start. -/
def reached (bo : UInt64) (segments : List UndoSegment) : UInt64 :=
  (segments.getLast?.map UndoSegment.endOffset).getD bo

def decodeSegments (d : Bytes) (ssz : Nat) (bo : UInt64) :
    (cnt : Nat) → (p : Nat) → (found : List UndoSegment) → Except ChainError (List UndoSegment)
  | 0, _, found => return found
  | cnt + 1, p, found => do
    let i := toString found.length
    let (s0, q) ← orFail (Bytes.getLE 8 d d.length p) (corrupt ("UNDOINDEX segment " ++ i ++ " truncated"))
    let (e0, q) ← orFail (Bytes.getLE 8 d d.length q) (corrupt ("UNDOINDEX segment " ++ i ++ " truncated"))
    let (rc, q) ← orFail (Bytes.getLE 4 d d.length q) (corrupt ("UNDOINDEX segment " ++ i ++ " truncated"))
    let (crc, _) ← orFail (Bytes.getLE 4 d d.length q) (corrupt ("UNDOINDEX segment " ++ i ++ " truncated"))
    if (csCrc32 (Bytes.slice d p 20)).toNat != crc then throw (corrupt ("UNDOINDEX segment " ++ i ++ " crc mismatch"))
    if rc == 0 then throw (corrupt ("UNDOINDEX segment " ++ i ++ " declares 0 records"))
    if rc > ssz then throw (corrupt ("UNDOINDEX segment " ++ i ++ " declares " ++ toString rc ++
      " records, more than the segment size " ++ toString ssz))
    if e0 ≤ s0 then throw (corrupt ("UNDOINDEX segment " ++ i ++ " has a non-positive byte range"))
    if s0 != (reached bo found).toNat then throw (corrupt ("UNDOINDEX segments are not contiguous at segment " ++ i))
    decodeSegments d ssz bo cnt (p + 24) (found ++ [⟨UInt64.ofNat s0, UInt64.ofNat e0, UInt32.ofNat rc⟩])

def decode (d : Bytes) : Except ChainError UndoIndex := do
  let n := d.length
  if n < 48 then throw (corrupt "UNDOINDEX shorter than its 48-byte header")
  if Bytes.slice d 0 8 != magic then throw (corrupt "UNDOINDEX magic mismatch (not 'INNUIDX1')")
  let (ver, o) ← orFail (Bytes.getLE 4 d n 8) (corrupt "UNDOINDEX header truncated")
  let (ssz, o) ← orFail (Bytes.getLE 4 d n o) (corrupt "UNDOINDEX header truncated")
  let (cb, o) ← orFail (Bytes.getLE 8 d n o) (corrupt "UNDOINDEX header truncated")
  let (bo, o) ← orFail (Bytes.getLE 8 d n o) (corrupt "UNDOINDEX header truncated")
  let (bg, o) ← orFail (Bytes.getLE 8 d n o) (corrupt "UNDOINDEX header truncated")
  let (cnt, o) ← orFail (Bytes.getLE 4 d n o) (corrupt "UNDOINDEX header truncated")
  let (hc, o) ← orFail (Bytes.getLE 4 d n o) (corrupt "UNDOINDEX header truncated")
  if o != 48 then throw (corrupt "UNDOINDEX header size mismatch")
  if (csCrc32 (d.take (o - 4))).toNat != hc then throw (corrupt "UNDOINDEX header crc mismatch")
  if ver != 1 then throw (corrupt ("UNDOINDEX format version " ++ toString ver ++ " is not the supported version 1"))
  if ssz == 0 then throw (corrupt "UNDOINDEX declares segment size 0")
  if n != 48 + 24 * cnt then throw (corrupt "UNDOINDEX length does not match its segment count")
  let segments ← decodeSegments d ssz (UInt64.ofNat bo) cnt 48 []
  if cb != (reached (UInt64.ofNat bo) segments).toNat then
    throw (corrupt "UNDOINDEX committedBytes does not equal the end of its last closed segment")
  return ⟨UInt32.ofNat ver, UInt32.ofNat ssz, UInt64.ofNat cb, UInt64.ofNat bo, UInt64.ofNat bg, segments⟩

/-- Segments that follow each other without a gap, each of positive length. -/
def Contiguous (ssz : UInt32) : UInt64 → List UndoSegment → Prop
  | _, [] => True
  | start, s :: rest => s.startOffset = start ∧ s.startOffset < s.endOffset ∧ s.recordCount ≠ 0 ∧ s.recordCount ≤ ssz ∧
      Contiguous ssz s.endOffset rest

private theorem reached_append (bo : UInt64) (found : List UndoSegment) (s : UndoSegment) :
    reached bo (found ++ [s]) = s.endOffset := by
  simp [reached]

private theorem segments_length (segments : List UndoSegment) :
    (segments.flatMap UndoSegment.encode).length = 24 * segments.length := by
  induction segments with
  | nil => rfl
  | cons s rest ih =>
    rw [List.flatMap_cons, List.length_append, s.encode_length, List.length_cons]
    omega

private theorem decodeSegments_laid {found segments : List UndoSegment}
    (laid : Bytes.Laid d p (segments.flatMap UndoSegment.encode)) (inside : p + 24 * segments.length ≤ d.length)
    (contiguous : Contiguous ssz (reached bo found) segments) :
    decodeSegments d ssz.toNat bo segments.length p found = .ok (found ++ segments) := by
  induction segments generalizing p found with
  | nil => simp [decodeSegments, pure, Except.pure]
  | cons s rest ih =>
    obtain ⟨first, positive, some, few, more⟩ := contiguous
    rw [List.length_cons] at inside
    obtain ⟨here, later⟩ := Bytes.laid_append.mp laid
    obtain ⟨body, crc⟩ := Bytes.laid_append.mp here
    obtain ⟨start, fields⟩ := Bytes.laid_append.mp body
    obtain ⟨stop, count⟩ := Bytes.laid_append.mp fields
    simp only [Bytes.le_length, s.encode_length, s.body_length, Nat.add_assoc, Nat.reduceAdd] at stop count crc later
    have readStart := start.getU64 (n := d.length) (by omega)
    have readStop := stop.getU64 (n := d.length) (by omega)
    have readCount := count.getU32 (n := d.length) (by omega)
    have readCrc := crc.getU32 (n := d.length) (by omega)
    have covered : Bytes.slice d p 20 = s.body := by simpa [s.body_length] using body.slice
    have joined : Contiguous ssz (reached bo (found ++ [s])) rest := by rw [reached_append]; exact more
    have next := ih later (by omega) joined
    have nonzero : s.recordCount.toNat ≠ 0 := fun zero => some (UInt32.toNat_inj.mp zero)
    have few := UInt32.le_iff_toNat_le.mp few
    have positive := UInt64.lt_iff_toNat_lt.mp positive
    simp only [List.length_cons, decodeSegments, readStart, readStop, readCount, readCrc, covered, orFail, Option.elim,
      bind, Except.bind, Nat.add_assoc, Nat.reduceAdd]
    simpa [nonzero, Nat.not_lt.mpr few, Nat.not_le.mpr positive, ← first, pure, Except.pure] using next

/-- What the store publishes: closed segments from the base on, none of them empty. -/
structure WellFormed (ix : UndoIndex) : Prop where
  version : ix.formatVersion = 1
  segmentSize : ix.segmentSize ≠ 0
  countable : ix.segments.length < 2 ^ 32
  contiguous : Contiguous ix.segmentSize ix.baseOffset ix.segments
  committed : ix.committedBytes = reached ix.baseOffset ix.segments

private theorem header_length (ix : UndoIndex) : ix.header.length = 44 := by
  simp [header, magic]

theorem decode_encode (wf : WellFormed ix) : decode ix.encode = .ok ix := by
  have length : ix.encode.length = 48 + 24 * ix.segments.length := by
    simp only [encode, List.length_append, header_length, crcBytes, Bytes.le_length, segments_length]
  have laid : Bytes.Laid ix.encode 0 (ix.header ++ (crcBytes ix.header ++ ix.segments.flatMap UndoSegment.encode)) :=
    ⟨[], [], by simp [encode], rfl⟩
  obtain ⟨head, crc, segments⟩ := by simpa only [Bytes.laid_append] using laid
  simp only [header, Bytes.laid_append] at head
  obtain ⟨magic, ver, ssz, cb, bo, bg, cnt⟩ := head
  simp only [UndoIndex.magic, List.length_cons, List.length_nil, crcBytes, Bytes.le_length, Nat.zero_add, Nat.reduceAdd,
    header_length] at magic ver ssz cb bo bg cnt crc segments
  have readMagic : Bytes.slice ix.encode 0 8 = UndoIndex.magic := magic.slice
  have readVer := ver.getU32 (n := ix.encode.length) (by omega)
  have readSsz := ssz.getU32 (n := ix.encode.length) (by omega)
  have readCb := cb.getU64 (n := ix.encode.length) (by omega)
  have readBo := bo.getU64 (n := ix.encode.length) (by omega)
  have readBg := bg.getU64 (n := ix.encode.length) (by omega)
  have readCnt := cnt.getLE (n := ix.encode.length) wf.countable (by omega)
  have readCrc := crc.getU32 (n := ix.encode.length) (by omega)
  have covered : ix.encode.take 44 = ix.header := by simp [encode, ← ix.header_length]
  have fromBase : Contiguous ix.segmentSize (reached ix.baseOffset []) ix.segments := wf.contiguous
  have readSegments := decodeSegments_laid segments (by omega) fromBase
  have one : ix.formatVersion.toNat = 1 := by rw [wf.version]; rfl
  have nonzero : ix.segmentSize.toNat ≠ 0 := fun zero => wf.segmentSize (UInt32.toNat_inj.mp zero)
  simp only [decode, readMagic, readVer, readSsz, readCb, readBo, readBg, readCnt, readCrc, covered, one, orFail,
    Option.elim, bind, Except.bind, Nat.reduceAdd, Nat.reduceSub, UInt64.ofNat_toNat, readSegments]
  simp [length, nonzero, ← wf.version, ← wf.committed, pure, Except.pure]

end UndoIndex
end Innova.Store3A
