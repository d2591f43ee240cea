import Innova.BlockIndex.TipCalls

/-! Opening a tip directory. `tip.meta` says how many entries of each store are committed; what
follows them is cut off, the side index is checked or rebuilt, the content digest is compared
and the operator-invalid log is read. Reads and writes of the opening itself do not fail here. -/
namespace Innova.BlockIndex
open Lib Chainstate

/-- `tip.meta` as the opening takes it. -/
def loadMeta (expectedGeneration : Nat) (d : Disk) : Except String TipMeta := do
  let some raw := d.head | throw "tip.meta absent (no tip authority to open)"
  if !d.complete then throw "tip authority incomplete store set"
  let some m := raw.bind decodeTipMeta | throw "decode tip.meta failed"
  if m.baseGeneration ≠ expectedGeneration then throw "tip.meta base-generation mismatch"
  if m.tipHeight < m.baseTipHeight then throw "tip.meta tipHeight below baseTipHeight (corrupt)"
  return m

/-- Some store is longer than its committed region. -/
def hasTail (m : TipMeta) (d : Disk) : Bool :=
  m.tipRecordCount < d.records.body.length || m.tipRecordCount < d.derived.body.length ||
    m.activeCount < d.active.body.length

/-- The stores without their uncommitted tails. -/
def repairStores (m : TipMeta) (d : Disk) : Except String Disk := do
  if d.records.body.length < m.tipRecordCount ∨ d.derived.body.length < m.tipRecordCount ∨
      d.active.body.length < m.activeCount then
    throw "tip stores short of committed tip.meta (corrupt)"
  if hasTail m d then
    if d.records.short m.tipRecordCount || d.derived.short m.tipRecordCount || d.active.short m.activeCount then
      throw "store short of committed bytes"
    return { d with
      records := d.records.cut m.tipRecordCount
      derived := d.derived.cut m.tipRecordCount
      active := d.active.cut m.activeCount }
  return d

structure Windows where
  records : Window Record
  derived : Window Derived
  active : Window Nat

/-- `InitializeCount` of the three windows. -/
def initWindows (m : TipMeta) (d : Disk) (error : String) : Except String Windows := do
  let some records := Window.initCount ringCap d.records m.tipRecordCount | throw error
  let some derived := Window.initCount ringCap d.derived m.tipRecordCount | throw error
  let some active := Window.initCount ringCap d.active m.activeCount | throw error
  return ⟨records, derived, active⟩

/-! ## The side index -/

/-- The side index answers for a committed slot: with its id, or with that of an earlier record
of the same hash. The read of the earlier record is not entered into the cache here. -/
def indexedAt (m : TipMeta) (w : Windows) (d : Disk) (slot : Nat) (r : Record) : Bool :=
  match d.index r.hash with
  | none => false
  | some id =>
    id == m.idOf slot || (decide (id ≤ m.idOf slot) &&
      (m.slotOf id).any fun earlier => (w.records.get d.records earlier).any (·.hash = r.hash))

/-- A pass over the records that stops at the first the index does not answer for; `none` when a
record cannot be read before that. -/
def verifySlots (answered : Nat → Record → Bool) : (slot : Nat) → List (Option Record) → Option Bool
  | _, [] => some true
  | _, none :: _ => none
  | slot, some r :: rest => if answered slot r then verifySlots answered (slot + 1) rest else some false

/-- The index built from the committed records; a hash goes to its first slot. -/
def rebuildIndex (m : TipMeta) (records : List Record) : Hash → Option Nat :=
  records.zipIdx.foldl (fun index (r, slot) =>
    if (index r.hash).isSome then index else Function.update index r.hash (some (m.idOf slot))) fun _ => none

/-- A pass over the committed records. -/
def recordPass (m : TipMeta) (d : Disk) : List (Option Record) := (List.range m.tipRecordCount).map d.records.read

/-- The rebuilding part of `ReconcileSideIndexOnOpen`. -/
def rebuildSideIndex (m : TipMeta) (d : Disk) : Except String Disk :=
  let records := SlotFile.somes (recordPass m d)
  if records.length < m.tipRecordCount then .error "tip-hashindex rebuild"
  -- asked even when there is no active block and the tip hash is zero
  else if (rebuildIndex m records m.tipHash).isNone then .error "tip-hashindex rebuild incomplete: tip hash not indexed"
  else .ok { d with index := rebuildIndex m records, marker := some m.tipRecordCount }

/-- `ReconcileSideIndexOnOpen`. -/
def reconcileSideIndexOnOpen (m : TipMeta) (w : Windows) (d : Disk) : Except String Disk :=
  if d.marker = some m.tipRecordCount then
    match verifySlots (indexedAt m w d) 0 (recordPass m d) with
    | some true => .ok d
    | some false => rebuildSideIndex m d
    | none => .error "tip-hashindex verify stream"
  else rebuildSideIndex m d

/-! ## The content digest -/

/-- The committed region, when all of it can be read. -/
def scanContent (m : TipMeta) (d : Disk) : Option Content :=
  let c : Content :=
    ⟨d.records.visited m.tipRecordCount, d.derived.visited m.tipRecordCount, d.active.visited m.activeCount⟩
  if c.records.length = m.tipRecordCount ∧ c.derived.length = m.tipRecordCount ∧
    c.active.length = m.activeCount then some c
  else none

/-- What the digest check ends with. -/
structure Settled where
  tipMeta : TipMeta
  disk : Disk
  windows : Windows
  content : Content

section Open
variable [Digest]

/-- The digest check: a mismatch is republished after a tail was cut off, and otherwise repaired
from the copy of the active store that a reorganisation leaves. -/
def settleDigest (m : TipMeta) (repaired : Bool) (w : Windows) (d : Disk) : Except String Settled := do
  let some c := scanContent m d | throw "tip store streaming scan failed (corrupt short store)"
  let digest := contentDigest m.version c m.activeFence
  if digest = m.contentDigest then return ⟨m, { d with backup := none }, w, c⟩
  if repaired then
    let fixed := { m with version := 3, contentDigest := digest }
    return ⟨fixed, { d with head := some (some (encodeTipMeta fixed)) }, w, c⟩
  let some active := d.backup | throw "tip store content digest mismatch (corrupt)"
  let d := { d with active, backup := none }
  let w ← initWindows m d "tip window init after undo-restore failed"
  let some c := scanContent m d | throw "tip store content digest mismatch (corrupt)"
  if contentDigest m.version c m.activeFence ≠ m.contentDigest then throw "tip store content digest mismatch (corrupt)"
  return ⟨m, d, w, c⟩

/-- The committed operator-invalid log. -/
def loadInvalid (m : TipMeta) (d : Disk) : Except String (List InvalidEntry) := do
  if m.invalidLogCount = 0 then return []
  let some parsed := d.invalid | throw "read tip-invalid failed (committed set missing)"
  let some entries := parsed | throw "parse tip-invalid failed (corrupt)"
  if entries.length < m.invalidLogCount then throw "tip-invalid short of committed count (corrupt)"
  if computeInvalidDigest (entries.take m.invalidLogCount) ≠ m.invalidDigest then
    throw "tip-invalid digest mismatch (corrupt)"
  return entries.take m.invalidLogCount

/-- The authority an opening ends with. -/
def openedTip (m : TipMeta) (s : Settled) (entries : List InvalidEntry) : Tip where
  disk := s.disk
  tipMeta := s.tipMeta
  recordsWin := s.windows.records
  derivedWin := s.windows.derived
  activeWin := s.windows.active
  invalidEntries := entries
  invalidDisk := if m.invalidLogCount = 0 then none else some (computeInvalidDigest entries)
  chains := some (chainsOf s.content)
  baseTipHash := ByteArr.zero 32
  pend := []

/-- `Open`. -/
def openTip (expectedGeneration : Nat) (d : Disk) : Except String Tip := do
  let m ← loadMeta expectedGeneration d
  let repaired ← repairStores m d
  let w ← initWindows m repaired "tip window init failed"
  let reconciled ← reconcileSideIndexOnOpen m w repaired
  let settled ← settleDigest m (hasTail m d) w reconciled
  let entries ← loadInvalid m settled.disk
  return openedTip m settled entries

end Open
end Innova.BlockIndex
