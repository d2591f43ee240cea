import Innova.Chainstate.Coin
import Innova.Store3A.Page

/-! The durable records of `incstore.cpp`: the manifest, undo records with their
per-record checksum, and the acknowledgment. -/
namespace Innova.Store3A
open Lib Chainstate

/-! ## Checksums -/

def crcBit (c : UInt32) : UInt32 := (c >>> 1) ^^^ (0xEDB88320 &&& (0 - (c &&& 1)))

def crcByte (c : UInt32) (b : UInt8) : UInt32 := crcBit^[8] (c ^^^ b.toUInt32)

/-- `csCrc32`. -/
def csCrc32 (d : Bytes) : UInt32 := d.foldl crcByte 0xFFFFFFFF ^^^ 0xFFFFFFFF

example : csCrc32 [49, 50, 51, 52, 53, 54, 55, 56, 57] = 0xCBF43926 := by decide +kernel

def crcBytes (d : Bytes) : Bytes := Bytes.le 4 (csCrc32 d).toNat

/-- A read that fails with the given error. -/
def orFail {α : Type} (x : Option α) (e : ChainError) : Except ChainError α := x.elim (.error e) .ok

/-! ## Manifest -/

/-- `Manifest`. -/
structure Manifest where
  formatVersion : UInt32 := 2
  generation : UInt64
  undoSize : UInt64
  rootPageId : PageId
  rootHash : Hash
  blockHash : Hash
  tipHeight : Int32
deriving DecidableEq

namespace Manifest

def root (m : Manifest) : PageRef := ⟨m.rootPageId, m.rootHash⟩

/-- `INNCS3A1` -/
def magic : Bytes := [73, 78, 78, 67, 83, 51, 65, 49]

/-- The bytes the checksum covers. -/
def body (m : Manifest) : Bytes :=
  magic ++ (Bytes.le 4 m.formatVersion.toNat ++ (Bytes.le 4 108 ++ (Bytes.le 8 m.generation.toNat ++
    (Bytes.le 8 m.undoSize.toNat ++ (Bytes.le 4 m.rootPageId.toNat ++ (m.rootHash.val ++ (m.blockHash.val ++
      Bytes.le 4 m.tipHeight.toUInt32.toNat)))))))

def encode (m : Manifest) : Bytes := m.body ++ crcBytes m.body

def decode (d : Bytes) : Except ChainError Manifest := do
  let n := d.length
  if n < 108 || Bytes.slice d 0 8 != magic then throw ⟨.badSerialize, "manifest magic/size"⟩
  let (ver, off) ← orFail (Bytes.getLE 4 d n 8) ⟨.badSerialize, "manifest hdr"⟩
  let (sz, off) ← orFail (Bytes.getLE 4 d n off) ⟨.badSerialize, "manifest hdr"⟩
  if ver != 2 then throw ⟨.unknownVersion, "store format version " ++ toString ver ++
    " (expected 2; version <2 predates the Coin.nTime field and CANNOT be opened by this build - reconvert the store, do not reinterpret)"⟩
  if sz != n then throw ⟨.corrupt, "manifest size mismatch"⟩
  let (gen, off) ← orFail (Bytes.getLE 8 d n off) ⟨.badSerialize, "manifest gen"⟩
  let (us, off) ← orFail (Bytes.getLE 8 d n off) ⟨.badSerialize, "manifest gen"⟩
  let (rp, off) ← orFail (Bytes.getLE 4 d n off) ⟨.badSerialize, "manifest gen"⟩
  let rh := ByteArr.read 32 d off
  let bh := ByteArr.read 32 d (off + 32)
  let (hh, off) ← orFail (Bytes.getLE 4 d n (off + 64)) ⟨.badSerialize, "manifest height"⟩
  let (crc, off) ← orFail (Bytes.getLE 4 d n off) ⟨.badSerialize, "manifest crc"⟩
  if (csCrc32 (d.take (off - 4))).toNat != crc then throw ⟨.corrupt, "manifest crc mismatch"⟩
  return ⟨UInt32.ofNat ver, UInt64.ofNat gen, UInt64.ofNat us, UInt32.ofNat rp, rh, bh, (UInt32.ofNat hh).toInt32⟩

private theorem body_length (m : Manifest) : m.body.length = 104 := by
  simp only [body, magic, List.length_append, List.length_cons, List.length_nil, Bytes.le_length, m.rootHash.property,
    m.blockHash.property]

private theorem encode_length (m : Manifest) : m.encode.length = 108 := by
  rw [encode, List.length_append, body_length, crcBytes, Bytes.le_length]

theorem decode_encode (m : Manifest) (current : m.formatVersion = 2) : decode m.encode = .ok m := by
  have length := m.encode_length
  have laid : Bytes.Laid m.encode 0 (m.body ++ crcBytes m.body) := ⟨[], [], by simp [encode], rfl⟩
  obtain ⟨fields, crc⟩ := Bytes.laid_append.mp laid
  simp only [body, Bytes.laid_append] at fields
  obtain ⟨magic, ver, size, gen, undo, page, rootHash, blockHash, height⟩ := fields
  simp only [Manifest.magic, List.length_cons, List.length_nil, Bytes.le_length, m.rootHash.property,
    m.blockHash.property, Nat.zero_add, Nat.reduceAdd,
      body_length] at magic ver size gen undo page rootHash blockHash height crc
  have readMagic : Bytes.slice m.encode 0 8 = Manifest.magic := magic.slice
  have readVer := ver.getU32 (n := 108) (by omega)
  have readSize := size.getLE (n := 108) (by decide) (by omega)
  have readGen := gen.getU64 (n := 108) (by omega)
  have readUndo := undo.getU64 (n := 108) (by omega)
  have readPage := page.getU32 (n := 108) (by omega)
  have readHeight := height.getU32 (n := 108) (by omega)
  have readCrc := crc.getU32 (n := 108) (by omega)
  have covered : m.encode.take 104 = m.body := by simp [encode, ← m.body_length]
  have two : m.formatVersion.toNat = 2 := by rw [current]; rfl
  simp only [decode, length, readMagic, readVer, readSize, readGen, readUndo, readPage, readHeight, readCrc,
    ByteArr.read_laid rootHash, ByteArr.read_laid blockHash, covered, two, orFail, bind, Except.bind, Option.elim,
    Nat.reduceAdd, Nat.reduceSub]
  simp [← current, pure, Except.pure]

end Manifest

/-! ## Undo records -/

/-- `UndoRecord`: the delta of a block. -/
structure UndoRecord where
  blockHash : Hash
  height : Int32
  ops : List Op
deriving DecidableEq

namespace UndoRecord

/-- `INNUNDO1` -/
def magic : Bytes := [73, 78, 78, 85, 78, 68, 79, 49]

/-- A presence byte and the coin behind it. -/
def coinBytes : Option Coin → Bytes
  | none => [0]
  | some c => 1 :: c.encode

def opBytes (o : Op) : Bytes := o.op.keyBytes.val ++ (coinBytes o.before ++ coinBytes o.after)

/-- Everything behind the length field and before the checksum. -/
def payload (r : UndoRecord) : Bytes :=
  r.blockHash.val ++ (Bytes.le 4 r.height.toUInt32.toNat ++ (Bytes.le 4 r.ops.length ++ r.ops.flatMap opBytes))

/-- The length field counts the whole record, checksum included, in 32 bits. -/
def body (r : UndoRecord) : Bytes := magic ++ (Bytes.le 4 (r.payload.length + 16) ++ r.payload)

def encode (r : UndoRecord) : Bytes := r.body ++ crcBytes r.body

def headerSize : Nat := 52

/-- A coin behind its presence byte. -/
def decodeCoin (d : Bytes) (stop off : Nat) (what : String) : Except ChainError (Option Coin × Nat) :=
  if d.getD off 0 != 0 then do
    let (c, off) ← orFail (Coin.decode d stop (off + 1)) (corrupt what)
    return (some c, off)
  else return (none, off + 1)

/-- The operations of a record. -/
def decodeOps (d : Bytes) (bodyEnd : Nat) : (cnt : Nat) → (off : Nat) → Except ChainError (List Op × Nat)
  | 0, off => return ([], off)
  | cnt + 1, off => do
    if off + 36 + 1 > bodyEnd then throw (corrupt "undo op truncated")
    let op := OutPoint.ofKey (ByteArr.read 36 d off)
    let (before, off) ← decodeCoin d bodyEnd (off + 36) "undo before coin"
    let (after, off) ← decodeCoin d bodyEnd off "undo after coin"
    let (ops, off) ← decodeOps d bodyEnd cnt off
    return (⟨op, before, after⟩ :: ops, off)

/-- Decodes the record at `start` and gives the offset behind it. -/
def decode (d : Bytes) (n start : Nat) : Except ChainError (UndoRecord × Nat) := do
  if start + headerSize > n then throw (corrupt "undo header truncated")
  if Bytes.slice d start 8 != magic then throw (corrupt "undo magic")
  let len := Bytes.toNat (Bytes.slice d (start + 8) 4)
  let blockHash := ByteArr.read 32 d (start + 12)
  let hh := Bytes.toNat (Bytes.slice d (start + 44) 4)
  let cnt := Bytes.toNat (Bytes.slice d (start + 48) 4)
  if len < headerSize + 4 || start + len > n then throw (corrupt "undo len out of range")
  let bodyEnd := start + len - 4
  let (ops, o) ← decodeOps d bodyEnd cnt (start + headerSize)
  if o != bodyEnd then throw (corrupt "undo record length mismatch")
  let stored := Bytes.toNat (Bytes.slice d bodyEnd 4)
  if (csCrc32 (Bytes.slice d start (len - 4))).toNat != stored then throw (corrupt "undo record crc mismatch")
  return (⟨blockHash, (UInt32.ofNat hh).toInt32, ops⟩, start + len)

private theorem payload_length (r : UndoRecord) : r.payload.length = 40 + (r.ops.flatMap opBytes).length := by
  simp only [payload, List.length_append, Bytes.le_length, r.blockHash.property]
  omega

private theorem body_length (r : UndoRecord) : r.body.length = r.payload.length + 12 := by
  simp only [body, magic, List.length_append, List.length_cons, List.length_nil, Bytes.le_length]
  omega

theorem encode_length (r : UndoRecord) : r.encode.length = r.payload.length + 16 := by
  rw [encode, List.length_append, body_length, crcBytes, Bytes.le_length]

theorem encode_long (r : UndoRecord) : headerSize + 4 ≤ r.encode.length := by
  rw [encode_length, payload_length, headerSize]
  omega

private theorem opBytes_length (o : Op) :
    (opBytes o).length = 36 + (coinBytes o.before).length + (coinBytes o.after).length := by
  simp only [opBytes, List.length_append, o.op.keyBytes.property]
  omega

private theorem coinBytes_length (c : Option Coin) : 1 ≤ (coinBytes c).length := by
  cases c <;> simp [coinBytes]

private theorem length_le_flatMap (ops : List Op) : ops.length ≤ (ops.flatMap opBytes).length := by
  induction ops with
  | nil => simp
  | cons o ops ih =>
    have := opBytes_length o
    simp only [List.length_cons, List.flatMap_cons, List.length_append]
    omega

private theorem decodeCoin_laid (laid : Bytes.Laid d off (coinBytes c)) (small : (coinBytes c).length < 2 ^ 32)
    (inside : off + (coinBytes c).length ≤ n) (what : String) :
    decodeCoin d n off what = .ok (c, off + (coinBytes c).length) := by
  cases c with
  | none =>
    rw [decodeCoin, laid.getD]
    rfl
  | some c =>
    rw [decodeCoin, laid.getD, if_pos (by decide)]
    have behind : Bytes.Laid d (off + 1) c.encode := laid.tail
    simp only [coinBytes, List.length_cons] at small inside ⊢
    have long := c.encode_length
    have read := Coin.decode_laid (n := n) behind (by omega) (by omega)
    simp only [read, orFail, Option.elim, bind, Except.bind, pure, Except.pure]
    congr 2
    omega

private theorem decodeOps_laid {ops : List Op} (laid : Bytes.Laid d off (ops.flatMap opBytes))
    (small : (ops.flatMap opBytes).length < 2 ^ 32) (inside : off + (ops.flatMap opBytes).length ≤ n) :
    decodeOps d n ops.length off = .ok (ops, off + (ops.flatMap opBytes).length) := by
  induction ops generalizing off with
  | nil => rfl
  | cons o ops ih =>
    rw [List.flatMap_cons] at laid small inside ⊢
    rw [List.length_append, opBytes_length] at small inside
    have one := coinBytes_length o.before
    obtain ⟨here, rest⟩ := Bytes.laid_append.mp laid
    obtain ⟨key, coins⟩ := Bytes.laid_append.mp here
    obtain ⟨before, after⟩ := Bytes.laid_append.mp coins
    rw [o.op.keyBytes.property] at before after
    rw [opBytes_length] at rest
    have readBefore := decodeCoin_laid (n := n) before (by omega) (by omega) "undo before coin"
    have readAfter := decodeCoin_laid (n := n) after (by omega) (by omega) "undo after coin"
    have readRest := ih (by rwa [← Nat.add_assoc, ← Nat.add_assoc] at rest) (by omega) (by omega)
    simp only [List.length_cons, decodeOps, show ¬off + 36 + 1 > n by omega, if_false, ByteArr.read_laid key,
      OutPoint.ofKey_keyBytes, readBefore, readAfter, readRest, bind, Except.bind, pure, Except.pure,
        List.length_append,
      opBytes_length]
    congr 2
    omega

/-- A record is read back from where it was written, as long as its length fits 32 bits. -/
theorem decode_laid (laid : Bytes.Laid d off r.encode) (small : r.encode.length < 2 ^ 32)
    (inside : off + r.encode.length ≤ n) : decode d n off = .ok (r, off + r.encode.length) := by
  have long := r.encode_length
  have payload := r.payload_length
  obtain ⟨whole, crc⟩ := Bytes.laid_append.mp laid
  obtain ⟨magic, len, fields⟩ := by simpa only [body, Bytes.laid_append] using whole
  simp only [UndoRecord.payload, Bytes.laid_append] at fields
  obtain ⟨blockHash, height, cnt, ops⟩ := fields
  simp only [UndoRecord.magic, List.length_cons, List.length_nil, Bytes.le_length, r.blockHash.property, Nat.zero_add,
    Nat.reduceAdd, Nat.add_assoc, body_length] at magic len blockHash height cnt ops crc
  have readMagic : Bytes.slice d off 8 = UndoRecord.magic := magic.slice
  have readLen : Bytes.toNat (Bytes.slice d (off + 8) 4) = r.encode.length := by
    rw [len.toNat (by omega), ← long]
  have readHeight : Bytes.toNat (Bytes.slice d (off + 44) 4) = r.height.toUInt32.toNat :=
    height.toNat r.height.toUInt32.toNat_lt
  have readCnt : Bytes.toNat (Bytes.slice d (off + 48) 4) = r.ops.length :=
    cnt.toNat (lt_of_le_of_lt (length_le_flatMap r.ops) (by omega))
  have bodyEnd : off + r.encode.length - 4 = off + (r.payload.length + 12) := by omega
  have readOps := decodeOps_laid (n := off + (r.payload.length + 12)) ops (by omega) (by omega)
  have readCrc : Bytes.toNat (Bytes.slice d (off + (r.payload.length + 12)) 4) = (csCrc32 r.body).toNat :=
    crc.toNat (csCrc32 r.body).toNat_lt
  have covered : Bytes.slice d off (r.encode.length - 4) = r.body := by
    have := whole.slice
    rwa [body_length, show r.payload.length + 12 = r.encode.length - 4 by omega] at this
  have landed : off + 52 + (r.ops.flatMap opBytes).length = off + (r.payload.length + 12) := by omega
  simp only [decode, headerSize, readMagic, readLen, readHeight, readCnt, ByteArr.read_laid blockHash, bodyEnd, readOps,
    readCrc, covered, landed, show ¬off + 52 > n by omega, show ¬r.encode.length < 52 + 4 by omega,
    show ¬off + r.encode.length > n by omega, bind, Except.bind, pure, Except.pure]
  simp

end UndoRecord

/-! ## Acknowledgment -/

def ackBytes (gen : UInt64) : Bytes := Bytes.le 8 gen.toNat ++ crcBytes (Bytes.le 8 gen.toNat)

/-- Reads an acknowledgment back. -/
def parseAck (b : Bytes) : Except ChainError UInt64 := do
  if b.length != 12 then throw (corrupt "ACK size")
  if (csCrc32 (b.take 8)).toNat != Bytes.toNat (Bytes.slice b 8 4) then throw (corrupt "ACK crc")
  return UInt64.ofNat (Bytes.toNat (b.take 8))

end Innova.Store3A
