import Innova.BlockIndex.Tip
import Innova.Lib.Fields
import Innova.Store3A.Records

/-! The file formats of a block-index generation: records (`fixed_blockindex_store.cpp`), active ids
(`blockindex_activeindex.cpp`), derived entries (`blockindex_derived_state.cpp`) and candidate leaves
(`candidate_frontier_metadata.cpp`). What was encoded is read back. -/
namespace Innova.BlockIndex
open Lib Chainstate Store3A

def ascii (text : String) : Bytes := text.toUTF8.toList

/-- `WriteHashBytes`: a hash stands in the files as it is displayed, its last byte first. -/
def hashBytes (h : Hash) : Bytes := h.val.reverse

/-- `ReadHashBytes`. -/
def readHash (b : Bytes) : Hash := ByteArr.read 32 b.reverse 0

@[simp] theorem hashBytes_length (h : Hash) : (hashBytes h).length = 32 := by simp [hashBytes, h.property]

@[simp] theorem readHash_hashBytes (h : Hash) : readHash (hashBytes h) = h := by
  rw [hashBytes]
  exact ByteArr.read_laid ⟨[], [], by simp, rfl⟩

/-! ## Records -/

/-- What `ValidateRecord` objects to. -/
def recordFault (r : Record) : Option String :=
  if r.hash = ByteArr.zero 32 then some "record hash must be non-zero"
  else if r.height < 0 then some "record height must be non-negative"
  else if r.height = 0 ∧ r.hashPrev ≠ ByteArr.zero 32 then some "genesis record must have null hashPrev"
  else if r.nFlags % 2 = 0 then
    if r.prevoutStake.isSome then some "proof-of-work record must not carry prevoutStake"
    else if r.nStakeTime ≠ 0 then some "proof-of-work record must have zero nStakeTime"
    else none
  else if r.nStakeTime = 0 then some "proof-of-stake record must have non-zero nStakeTime"
  else none

def recordWidths : List Nat := [32, 32, 32, 32, 32, 4, 4, 4, 4, 4, 4, 4, 4, 8, 8, 8, 4, 4]

/-- The null outpoint. -/
def nullStake : Hash × Nat := (ByteArr.zero 32, 2 ^ 32 - 1)

/-- The fields in the order of the file. -/
def Record.fields (r : Record) : List Bytes :=
  let stake := r.prevoutStake.getD nullStake
  [hashBytes r.hash, hashBytes r.hashPrev, hashBytes r.hashMerkleRoot, hashBytes r.hashProof, hashBytes stake.1,
    Bytes.ofInt 4 r.height, Bytes.le 4 r.nFile, Bytes.le 4 r.nBlockPos, Bytes.le 4 r.nFlags, Bytes.ofInt 4 r.nVersion,
    Bytes.le 4 r.nTime, Bytes.le 4 r.nBits, Bytes.le 4 r.nNonce, Bytes.ofInt 8 r.nMint, Bytes.ofInt 8 r.nMoneySupply,
    Bytes.le 8 r.nStakeModifier, Bytes.le 4 stake.2, Bytes.le 4 r.nStakeTime]

def recordOfFields (f : Nat → Bytes) : Record :=
  let stake : Hash × Nat := (readHash (f 4), Bytes.toNat (f 16))
  { hash := readHash (f 0), hashPrev := readHash (f 1), hashMerkleRoot := readHash (f 2), hashProof := readHash (f 3)
    prevoutStake := if stake = nullStake then none else some stake
    height := Bytes.toInt (f 5), nFile := Bytes.toNat (f 6), nBlockPos := Bytes.toNat (f 7), nFlags := Bytes.toNat (f 8)
    nVersion := Bytes.toInt (f 9), nTime := Bytes.toNat (f 10), nBits := Bytes.toNat (f 11), nNonce :=
      Bytes.toNat (f 12)
    nMint := Bytes.toInt (f 13), nMoneySupply := Bytes.toInt (f 14), nStakeModifier := Bytes.toNat (f 15)
    nStakeTime := Bytes.toNat (f 17) }

/-- `EncodeBlockIndexRecordV1`. -/
def encodeRecord (r : Record) : Except String Bytes :=
  match recordFault r with
  | some fault => .error fault
  | none => .ok (r.fields.flatten ++ crcBytes r.fields.flatten)

/-- `DecodeBlockIndexRecordV1`. -/
def decodeRecord (data : Bytes) : Except String Record :=
  if data.length ≠ 228 then .error "record size mismatch"
  else if (csCrc32 (data.take 224)).toNat ≠ Bytes.toNat (data.drop 224) then .error "record checksum mismatch"
  else
    let r := recordOfFields fun i => (Bytes.cut recordWidths data).getD i []
    match recordFault r with
    | some fault => .error fault
    | none => .ok r

/-- The fields are those of the C++ struct, whose integers have 4 or 8 bytes. -/
structure Record.Sized (r : Record) : Prop where
  stake : ∀ s, r.prevoutStake = some s → s.2 < 2 ^ 32 ∧ s ≠ nullStake
  height : -2 ^ 31 ≤ r.height ∧ r.height < 2 ^ 31
  nFile : r.nFile < 2 ^ 32
  nBlockPos : r.nBlockPos < 2 ^ 32
  nFlags : r.nFlags < 2 ^ 32
  nVersion : -2 ^ 31 ≤ r.nVersion ∧ r.nVersion < 2 ^ 31
  nTime : r.nTime < 2 ^ 32
  nBits : r.nBits < 2 ^ 32
  nNonce : r.nNonce < 2 ^ 32
  nMint : -2 ^ 63 ≤ r.nMint ∧ r.nMint < 2 ^ 63
  nMoneySupply : -2 ^ 63 ≤ r.nMoneySupply ∧ r.nMoneySupply < 2 ^ 63
  nStakeModifier : r.nStakeModifier < 2 ^ 64
  nStakeTime : r.nStakeTime < 2 ^ 32

private theorem Record.fields_widths (r : Record) : r.fields.map List.length = recordWidths := by
  simp [fields, recordWidths]

private theorem Record.fields_length (r : Record) : r.fields.flatten.length = 224 := by
  simp [List.length_flatten, r.fields_widths, recordWidths]

theorem encodeRecord_length (encoded : encodeRecord r = .ok data) : data.length = 228 := by
  unfold encodeRecord at encoded
  split at encoded
  · cases encoded
  · cases encoded
    simp [r.fields_length, crcBytes]

private theorem Record.Sized.ofFields (sized : r.Sized) : recordOfFields (fun i => r.fields.getD i []) = r := by
  have stake : (if r.prevoutStake.getD nullStake = nullStake then none else some (r.prevoutStake.getD nullStake)) =
      r.prevoutStake := by
    cases named : r.prevoutStake with
    | none => simp
    | some s => simp [(sized.stake s named).2]
  have n : Bytes.toNat (Bytes.le 4 (r.prevoutStake.getD nullStake).2) = (r.prevoutStake.getD nullStake).2 := by
    apply Bytes.toNat_le_of_lt
    cases named : r.prevoutStake with
    | none => decide
    | some s => exact (sized.stake s named).1
  have four {z : Int} (fits : -2 ^ 31 ≤ z ∧ z < 2 ^ 31) : Bytes.toInt (Bytes.ofInt 4 z) = z :=
    Bytes.toInt_ofInt (by norm_num; omega) (by norm_num; omega)
  have eight {z : Int} (fits : -2 ^ 63 ≤ z ∧ z < 2 ^ 63) : Bytes.toInt (Bytes.ofInt 8 z) = z :=
    Bytes.toInt_ofInt (by norm_num; omega) (by norm_num; omega)
  have small {v : Nat} (fits : v < 2 ^ 32) : Bytes.toNat (Bytes.le 4 v) = v := Bytes.toNat_le_of_lt fits
  have wide : Bytes.toNat (Bytes.le 8 r.nStakeModifier) = r.nStakeModifier := Bytes.toNat_le_of_lt sized.nStakeModifier
  simp only [recordOfFields, Record.fields, List.getD_cons_zero, List.getD_cons_succ,
    readHash_hashBytes, n, Prod.mk.eta, stake,
    four sized.height, small sized.nFile, small sized.nBlockPos, small sized.nFlags, four sized.nVersion,
      small sized.nTime,
    small sized.nBits, small sized.nNonce, eight sized.nMint, eight sized.nMoneySupply, wide, small sized.nStakeTime]

/-- A record is read back as it was written. -/
theorem decode_encodeRecord (sized : r.Sized) (encoded : encodeRecord r = .ok data) : decodeRecord data = .ok r := by
  have length := encodeRecord_length encoded
  unfold encodeRecord at encoded
  split at encoded
  · cases encoded
  · next sound =>
    cases encoded
    have crc : Bytes.toNat (crcBytes r.fields.flatten) = (csCrc32 r.fields.flatten).toNat :=
      Bytes.toNat_le_of_lt (csCrc32 r.fields.flatten).toNat_lt
    rw [decodeRecord, if_neg (by simpa using length), List.take_left' r.fields_length, List.drop_left' r.fields_length,
      crc, if_neg (by simp), Bytes.cut_flatten r.fields_widths, sized.ofFields]
    dsimp only
    rw [sound]

/-! ## Active ids -/

/-- `EncodeBlockIndexActiveEntry`. -/
def encodeActiveEntry (id : Nat) : Except String Bytes :=
  if id = 0 then .error "active entry RecordId 0 is invalid" else .ok (Bytes.le 8 id)

/-- `DecodeBlockIndexActiveEntry`. -/
def decodeActiveEntry (data : Bytes) : Except String Nat :=
  if data.length ≠ 8 then .error "invalid entry byte length"
  else if Bytes.toNat data = 0 then .error "decoded active entry RecordId 0 is invalid"
  else .ok (Bytes.toNat data)

/-! ## Derived entries -/

def derivedWidths : List Nat := [32, 4, 8, 4, 4]

def Derived.fields (e : Derived) : List Bytes :=
  [Bytes.le 32 e.chainTrust, Bytes.le 4 e.stakeModifierChecksum, Bytes.ofInt 8 (e.stakeModifierTime.getD 0),
    Bytes.le 4 (e.nSize.getD 0), Bytes.le 4 (e.stakeModifierTime.isSome.toNat + 2 * e.nSize.isSome.toNat)]

/-- `EncodeBlockIndexDerivedEntry`. -/
def encodeDerivedEntry (e : Derived) : Bytes := e.fields.flatten ++ crcBytes e.fields.flatten

/-- `DecodeBlockIndexDerivedEntry`. -/
def decodeDerivedEntry (data : Bytes) : Except String Derived :=
  if data.length ≠ 56 then .error "entry size mismatch"
  else if (csCrc32 (data.take 52)).toNat ≠ Bytes.toNat (data.drop 52) then .error "derived entry checksum mismatch"
  else
    let f := fun i => (Bytes.cut derivedWidths data).getD i []
    let time := Bytes.toInt (f 2)
    let size := Bytes.toNat (f 3)
    let flags := Bytes.toNat (f 4)
    if 4 ≤ flags then .error "derived entry has unknown flag bits"
    else if flags % 2 = 0 ∧ time ≠ 0 then .error "derived entry: modifier time not available but value nonzero"
    else if flags / 2 % 2 = 0 ∧ size ≠ 0 then .error "derived entry: block size not available but value nonzero"
    else
      .ok
        { chainTrust := Bytes.toNat (f 0), stakeModifierChecksum := Bytes.toNat (f 1)
          stakeModifierTime := if flags % 2 = 0 then none else some time
          nSize := if flags / 2 % 2 = 0 then none else some size }

private theorem Derived.fields_widths (e : Derived) :
    e.fields.map List.length = derivedWidths := by simp [fields, derivedWidths]

private theorem Derived.fields_length (e : Derived) : e.fields.flatten.length = 52 := by
  simp [List.length_flatten, e.fields_widths, derivedWidths]

theorem encodeDerivedEntry_length (e : Derived) : (encodeDerivedEntry e).length = 56 := by
  simp [encodeDerivedEntry, e.fields_length, crcBytes]

end Innova.BlockIndex
