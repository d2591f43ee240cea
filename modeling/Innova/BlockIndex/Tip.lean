import Innova.Chainstate.Basic
import Innova.Lib.SlotFile

/-! The mutable block-index tip (`blockindex_tip.cpp`): three stores of fixed-size entries, a
side index from hashes to record ids, an operator-invalid log and `tip.meta`, whose rename
commits them; the open authority over them and what it answers. Heights are unbounded
integers here, ids and counts natural numbers. -/
namespace Innova.BlockIndex
open Lib Chainstate

/-! ## Entries of the stores -/

/-- `BlockIndexRecord`. -/
structure Record where
  hash : Hash
  hashPrev : Hash
  hashMerkleRoot : Hash := ByteArr.zero 32
  hashProof : Hash := ByteArr.zero 32
  /-- A null outpoint is `none`. -/
  prevoutStake : Option (Hash × Nat) := none
  height : Int
  nFile : Nat := 0
  nBlockPos : Nat := 0
  nFlags : Nat := 0
  nVersion : Int := 0
  nTime : Nat := 0
  nBits : Nat := 0
  nNonce : Nat := 0
  nMint : Int := 0
  nMoneySupply : Int := 0
  nStakeModifier : Nat := 0
  nStakeTime : Nat := 0
deriving DecidableEq

/-- `ValidateRecord`: what both the encoder and the decoder of a record ask. -/
def validateRecord (r : Record) : Bool :=
  r.hash != ByteArr.zero 32 && decide (0 ≤ r.height) && (r.height != 0 || r.hashPrev == ByteArr.zero 32) &&
    -- BLOCK_PROOF_OF_STAKE is the lowest flag
    (if r.nFlags % 2 = 0 then r.prevoutStake.isNone && r.nStakeTime == 0 else r.nStakeTime != 0)

/-- `BlockIndexDerivedEntry`. A value whose flag is not set must be zero on disk, so the flag and
the value are one option. -/
structure Derived where
  chainTrust : Nat := 0
  stakeModifierChecksum : Nat := 0
  stakeModifierTime : Option Int := none
  nSize : Option Nat := none
deriving DecidableEq

/-- `BlockIndexTipAppend`. -/
structure Append where
  record : Record
  derived : Derived
deriving DecidableEq

/-- `BlockIndexTipInvalidEntry`: one operator intent, `true` to invalidate, `false` to reconsider. -/
structure InvalidEntry where
  hash : Hash
  intent : Bool
deriving DecidableEq

/-- `DeriveInvalidSet`: the last intent for a hash wins. -/
def deriveInvalidSet (entries : List InvalidEntry) : List Hash :=
  entries.foldl (fun set e => if e.intent then e.hash :: set.filter (· ≠ e.hash) else set.filter (· ≠ e.hash)) []

/-! ## Content digests -/

def recordDigestBytes (r : Record) : Bytes := r.hash.val ++ r.hashPrev.val ++ Bytes.le 4 (r.height % 2 ^ 32).toNat

def derivedDigestBytes (d : Derived) : Bytes := Bytes.le 32 d.chainTrust ++ Bytes.le 4 d.stakeModifierChecksum

def activeDigestBytes (id : Nat) : Bytes := Bytes.le 8 id

/-- What the three stores hold. -/
structure Content where
  records : List Record
  derived : List Derived
  active : List Nat
deriving DecidableEq

/-- The running digests of the three stores. -/
structure Chains where
  chainR : Hash
  chainD : Hash
  chainA : Hash
deriving DecidableEq

section Digests
variable [Digest]

/-- `ComputeContentDigest`: the digest of version 1 and 2 metas. -/
def computeContentDigest (c : Content) (fence : Nat) : Hash :=
  Digest.sha256 (c.records.flatMap recordDigestBytes ++ c.derived.flatMap derivedDigestBytes ++
    c.active.flatMap activeDigestBytes ++ Bytes.le 1 fence)

/-- `DigestChainExtend`. -/
def digestChainExtend (state : Hash) (entry : Bytes) : Hash := Digest.sha256 (state.val ++ entry)

def digestChainInit (domain : String) : Hash := Digest.sha256 domain.toUTF8.toList

def digestChain (domain : String) (entries : List Bytes) : Hash :=
  entries.foldl digestChainExtend (digestChainInit domain)

/-- `BuildChainsFor`. -/
def chainsOf (c : Content) : Chains where
  chainR := digestChain "INNOVA-TIP-DIGEST-V3/R" (c.records.map recordDigestBytes)
  chainD := digestChain "INNOVA-TIP-DIGEST-V3/D" (c.derived.map derivedDigestBytes)
  chainA := digestChain "INNOVA-TIP-DIGEST-V3/A" (c.active.map activeDigestBytes)

/-- The chains extended by new entries only. -/
def Chains.extend (h : Chains) (c : Content) : Chains where
  chainR := (c.records.map recordDigestBytes).foldl digestChainExtend h.chainR
  chainD := (c.derived.map derivedDigestBytes).foldl digestChainExtend h.chainD
  chainA := (c.active.map activeDigestBytes).foldl digestChainExtend h.chainA

/-- `DigestV3Finalize`: the digest of version 3 metas. -/
def digestV3Finalize (h : Chains) (fence : Nat) : Hash :=
  Digest.sha256 (h.chainR.val ++ h.chainD.val ++ h.chainA.val ++ Bytes.le 1 fence)

/-- The digest of the flavour a meta's version selects. -/
def contentDigest (version : Nat) (c : Content) (fence : Nat) : Hash :=
  if version = 3 then digestV3Finalize (chainsOf c) fence else computeContentDigest c fence

def computeInvalidDigest (entries : List InvalidEntry) : Hash :=
  Digest.sha256 (Bytes.le 4 1 ++ Bytes.le 4 entries.length ++ entries.flatMap fun e => e.hash.val ++
    [if e.intent then 1 else 0])

end Digests

/-! ## tip.meta -/

/-- `BlockIndexTipMeta`. -/
structure TipMeta where
  version : Nat
  baseGeneration : Nat
  baseRecordCount : Nat
  baseTipHeight : Int
  tipHeight : Int
  tipHash : Hash
  tipRecordCount : Nat
  activeFence : Nat
  contentDigest : Hash
  invalidLogCount : Nat
  invalidDigest : Hash
deriving DecidableEq

namespace TipMeta

/-- `baseLocalToId`. -/
def idOf (m : TipMeta) (slot : Nat) : Nat := m.baseRecordCount + slot + 1

/-- The slot of an id; ids up to `baseRecordCount` belong to the base generation. -/
def slotOf (m : TipMeta) (id : Nat) : Option Nat :=
  if id ≤ m.baseRecordCount then none else some (id - m.baseRecordCount - 1)

/-- The number of active entries. -/
def activeCount (m : TipMeta) : Nat := (m.tipHeight - m.baseTipHeight).toNat

end TipMeta

theorem slotOf_idOf (m : TipMeta) (slot : Nat) : m.slotOf (m.idOf slot) = some slot := by
  unfold TipMeta.slotOf TipMeta.idOf
  rw [if_neg (by omega)]
  congr 1
  omega

theorem idOf_beq (m : TipMeta) (place k : Nat) : (m.idOf place == m.idOf k) = decide (place = k) := by
  rw [Bool.eq_iff_iff]
  simp [TipMeta.idOf]

theorem idOf_slotOf {m : TipMeta} {id slot : Nat} (slotted : m.slotOf id = some slot) : m.idOf slot = id := by
  unfold TipMeta.slotOf at slotted
  split at slotted
  · cases slotted
  · cases slotted
    unfold TipMeta.idOf
    omega

/-- The bytes of `tip.meta` by fields: the layout of version 1, and what follows it from
version 2 on when the file is long enough to hold it. -/
structure RawMeta where
  version : Nat
  baseGeneration : Nat
  baseRecordCount : Nat
  baseTipHeight : Int
  tipHeight : Int
  tipHash : Hash
  tipRecordCount : Nat
  activeFence : Nat
  contentDigest : Hash
  invalid : Option (Nat × Hash)
deriving DecidableEq

def encodeTipMeta (m : TipMeta) : RawMeta :=
  { m with invalid := some (m.invalidLogCount, m.invalidDigest) }

/-- `DecodeTipMeta`. -/
def decodeTipMeta (raw : RawMeta) : Option TipMeta :=
  let decoded (count : Nat) (digest : Hash) : TipMeta :=
    { raw with activeFence := raw.activeFence % 256, invalidLogCount := count, invalidDigest := digest }
  if raw.version = 1 then some (decoded 0 (ByteArr.zero 32))
  else if raw.version = 2 ∨ raw.version = 3 then raw.invalid.map fun (count, digest) => decoded count digest
  else none

/-! ## The directory and the open authority -/

/-- The files of the tip directory. -/
structure Disk where
  /-- `tip.meta`; a file too short for any version is `some none`. -/
  head : Option (Option RawMeta)
  /-- The three store files exist. -/
  complete : Bool := true
  records : SlotFile Record
  derived : SlotFile Derived
  active : SlotFile Nat
  /-- `tip-active.dat.bak`. -/
  backup : Option (SlotFile Nat)
  /-- `tip-invalid.dat`; a file that does not parse is `some none`. -/
  invalid : Option (Option (List InvalidEntry))
  /-- The hash-to-id side index. -/
  index : Hash → Option Nat
  /-- `tip-hashindex.marker`, unless it is missing or unreadable. -/
  marker : Option Nat

/-- An open `BlockIndexTipAuthority`. -/
structure Tip where
  disk : Disk
  tipMeta : TipMeta
  recordsWin : Window Record
  derivedWin : Window Derived
  activeWin : Window Nat
  /-- The committed operator-invalid log. -/
  invalidEntries : List InvalidEntry
  /-- The digest of the log as last written (`invalidDiskDigest`), if it was (`invalidDiskDurable`). -/
  invalidDisk : Option Hash
  /-- The chained digests, if they are valid (`chainsValid`). -/
  chains : Option Chains
  /-- `expectedBaseTipHash`; zero when it was not set. -/
  baseTipHash : Hash
  /-- The buffered appends with their active heights (`pendBlocks`, `pendHeights`). -/
  pend : List (Append × Int)

/-- `BLOCK_INDEX_TIP_RING_CAP_ENTRIES`. -/
@[irreducible] def ringCap : Nat := 65536

/-- The entries of a store that fit the read cache (`BLOCK_INDEX_TIP_LRU_BYTES_CAP`). -/
def recentCap (entrySize : Nat) : Nat := 32 * 1048576 / entrySize

namespace Tip
variable (t : Tip)

/-- `GetRecordBySlot`. -/
def record? (slot : Nat) : Option Record := t.recordsWin.get t.disk.records slot

def derived? (slot : Nat) : Option Derived := t.derivedWin.get t.disk.derived slot

/-- `GetActiveByRel`. -/
def active? (rel : Nat) : Option Nat := t.activeWin.get t.disk.active rel

/-- The buffered append of a hash (`pendIndex`). -/
def pending? (hash : Hash) : Option (Append × Int) := t.pend.find? (·.1.record.hash = hash)

/-- The last buffered active block, as height and hash (`pendTipHeight`, `pendTipHash`). The
source keeps both as fields and sets them to this whenever the window changes. -/
def pendTip : Option (Int × Hash) := (t.pend.filter fun p => 0 ≤ p.2).getLast?.map fun p => (p.2, p.1.record.hash)

def pendTipHeight : Int := (t.pendTip.map (·.1)).getD (-1)

def pendTipHash : Hash := (t.pendTip.map (·.2)).getD (ByteArr.zero 32)

end Tip

/-! ## What the authority answers -/

/-- `BlockIndexTipStatus` other than OK, as far as the calls here return it. -/
inductive Status where
  | notFound | corrupt | ioError
deriving DecidableEq

/-- `BlockIndexTipRead` with status OK. -/
structure Read where
  record : Record
  derived : Derived
  active : Bool
  height : Int
deriving DecidableEq

namespace Tip
variable (t : Tip)

def tipHeight : Int := if !t.pend.isEmpty && decide (0 ≤ t.pendTipHeight) then t.pendTipHeight else t.tipMeta.tipHeight

def tipHash : Hash := if !t.pend.isEmpty && decide (0 ≤ t.pendTipHeight) then t.pendTipHash else t.tipMeta.tipHash

/-- The record and derived entry of a slot below both windows' counts. -/
def readSlot (slot : Nat) : Except Status (Record × Derived) :=
  match t.record? slot, t.derived? slot with
  | some r, some d => .ok (r, d)
  | _, _ => .error .ioError

/-- The active flag of a record: whether it stands at its own height in the active store. -/
def activeFlag (id : Nat) (r : Record) : Except Status Bool :=
  if t.tipMeta.baseTipHeight < r.height ∧ (r.height - t.tipMeta.baseTipHeight - 1).toNat < t.activeWin.count then
    match t.active? (r.height - t.tipMeta.baseTipHeight - 1).toNat with
    | some active => .ok (active == id)
    | none => .error .ioError
  else .ok false

/-- `LookupByHash` past the buffered appends. -/
def lookupDurable (hash : Hash) : Except Status Read := do
  let some id := t.disk.index hash | throw .notFound
  let some slot := t.tipMeta.slotOf id | throw .corrupt
  -- an index entry past the committed records is residue of an unfinished call
  if t.recordsWin.count ≤ slot ∨ t.derivedWin.count ≤ slot then throw .notFound
  let (r, d) ← t.readSlot slot
  if r.hash ≠ hash then throw .notFound
  let active ← t.activeFlag id r
  return ⟨r, d, active, r.height⟩

/-- The stores answer for the hash. -/
def Finds (hash : Hash) : Prop := ∃ read, t.lookupDurable hash = .ok read

/-- `LookupByHash`. -/
def lookupByHash (hash : Hash) : Except Status Read :=
  match t.pending? hash with
  | some (blk, height) => .ok ⟨blk.record, blk.derived, decide (0 ≤ height), height⟩
  | none => t.lookupDurable hash

/-- `LookupActiveByHeight`. -/
def lookupActiveByHeight (height : Int) : Except Status Read := do
  let rel := height - t.tipMeta.baseTipHeight - 1
  if rel < 0 ∨ (t.activeWin.count : Int) ≤ rel then throw .notFound
  let some id := t.active? rel.toNat | throw .ioError
  let some slot := t.tipMeta.slotOf id | throw .corrupt
  if t.recordsWin.count ≤ slot then throw .corrupt
  let (r, d) ← t.readSlot slot
  return ⟨r, d, true, r.height⟩

/-- `IsOperatorInvalid`. -/
def isOperatorInvalid (hash : Hash) : Bool := (deriveInvalidSet t.invalidEntries).contains hash

/-! ### When a lookup succeeds -/

variable {t} {hash : Hash} {read : Read}

private theorem readSlot_ok : t.readSlot slot = .ok entry ↔ t.record? slot = some entry.1 ∧
    t.derived? slot = some entry.2 := by
  unfold readSlot
  obtain ⟨r, d⟩ := entry
  cases t.record? slot <;> cases t.derived? slot <;> simp

theorem lookupDurable_ok : t.lookupDurable hash = .ok read ↔ ∃ id slot, t.disk.index hash = some id ∧
    t.tipMeta.slotOf id = some slot ∧ slot < t.recordsWin.count ∧ slot < t.derivedWin.count ∧
    t.record? slot = some read.record ∧ t.derived? slot = some read.derived ∧ read.record.hash = hash ∧
    t.activeFlag id read.record = .ok read.active ∧ read.height = read.record.height := by
  simp only [lookupDurable, bind, Except.bind, pure, Except.pure, throw, throwThe, MonadExceptOf.throw]
  constructor
  · intro found
    split at found
    · next id indexed =>
      split at found
      · next slot slotted =>
        split at found
        · cases found
        split at found
        · cases found
        next entry stored =>
        obtain ⟨record, derived⟩ := readSlot_ok.mp stored
        split at found
        · cases found
        next same =>
        split at found
        · cases found
        next active flag =>
        cases found
        exact ⟨id, slot, indexed, slotted, by omega, by omega, record, derived, by simpa using same, flag, rfl⟩
      · cases found
    · cases found
  · rintro ⟨id, slot, indexed, slotted, recordInside, derivedInside, record, derived, same, flag, height⟩
    have stored : t.readSlot slot = .ok (read.record, read.derived) := readSlot_ok.mpr ⟨record, derived⟩
    simp [indexed, slotted, stored, same, flag, ← height, Nat.not_le.mpr recordInside, Nat.not_le.mpr derivedInside]

theorem lookupActive_ok : t.lookupActiveByHeight height = .ok read ↔ ∃ rel id slot : Nat,
    height = t.tipMeta.baseTipHeight + 1 + rel ∧ rel < t.activeWin.count ∧ t.active? rel = some id ∧
    t.tipMeta.slotOf id = some slot ∧ slot < t.recordsWin.count ∧
    t.record? slot = some read.record ∧ t.derived? slot = some read.derived ∧ read.active = true ∧
    read.height = read.record.height := by
  simp only [lookupActiveByHeight, bind, Except.bind, pure, Except.pure, throw, throwThe, MonadExceptOf.throw]
  constructor
  · intro found
    split at found
    · cases found
    split at found
    · next id active =>
      split at found
      · next slot slotted =>
        split at found
        · cases found
        split at found
        · cases found
        next entry read =>
        obtain ⟨record, derived⟩ := readSlot_ok.mp read
        cases found
        exact ⟨_, id, slot, by omega, by omega, active, slotted, by omega, record, derived, rfl, rfl⟩
      · cases found
    · cases found
  · rintro ⟨rel, id, slot, rfl, inside, active, slotted, stored, record, derived, isActive, height⟩
    have read : t.readSlot slot = .ok (read.record, read.derived) := readSlot_ok.mpr ⟨record, derived⟩
    have here : t.tipMeta.baseTipHeight + 1 + rel - t.tipMeta.baseTipHeight - 1 = rel := by omega
    rw [here, if_neg (by omega), Int.toNat_natCast, active]
    simp [slotted, read, Nat.not_le.mpr stored, ← height, ← isActive]

/-! ### Without buffered appends -/

section Idle
variable (idle : t.pend = [])
include idle

theorem tipHeight_idle : t.tipHeight = t.tipMeta.tipHeight := by simp [tipHeight, idle]

theorem lookupByHash_idle (hash : Hash) :
    t.lookupByHash hash = t.lookupDurable hash := by simp [lookupByHash, pending?, idle]

end Idle

/-! ### Authorities that answer alike -/

/-- What the answers past the buffered appends rest on is the same. -/
structure Alike (t u : Tip) : Prop where
  tipMeta : u.tipMeta = t.tipMeta
  index : u.disk.index = t.disk.index
  recordCount : u.recordsWin.count = t.recordsWin.count
  derivedCount : u.derivedWin.count = t.derivedWin.count
  activeCount : u.activeWin.count = t.activeWin.count
  record : ∀ slot, u.record? slot = t.record? slot
  derived : ∀ slot, u.derived? slot = t.derived? slot
  active : ∀ rel, u.active? rel = t.active? rel

section Alike
variable {u : Tip} (alike : Alike t u)
include alike

private theorem Alike.readSlot (slot : Nat) : u.readSlot slot = t.readSlot slot := by
  unfold Tip.readSlot
  rw [alike.record, alike.derived]

theorem Alike.lookupDurable (hash : Hash) : u.lookupDurable hash = t.lookupDurable hash := by
  unfold Tip.lookupDurable Tip.activeFlag
  simp only [alike.index, alike.tipMeta, alike.recordCount, alike.derivedCount, alike.activeCount,
    alike.readSlot, alike.active]

theorem Alike.lookupActive (height : Int) : u.lookupActiveByHeight height = t.lookupActiveByHeight height := by
  unfold Tip.lookupActiveByHeight
  simp only [alike.tipMeta, alike.recordCount, alike.activeCount, alike.readSlot, alike.active]

end Alike

end Tip
end Innova.BlockIndex
