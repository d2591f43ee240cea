import Innova.BlockIndex.GenerationFormat
import Innova.BlockIndex.Reader

/-! The directory of a block-index generation as its readers open it: records.dat, active.dat,
derived.dat and candidate-leaves.dat byte by byte, the hash index as what its LevelDB directory
answers, and the manifest decoded. Every read of a file is a function of its bytes. -/
namespace Innova.BlockIndex
open Lib Chainstate

/-! ## Components -/

/-- `FixedBlockIndexManifest`. -/
structure FixedManifest extends GenerationManifest where
  formatVersion : Nat := 1
  recordVersion : Nat := 1
  manifestSize : Nat := 124
  recordSize : Nat := 228
  generation : Nat := 0
  /-- 1 while the generation is built, 2 once it is complete. -/
  state : Nat := 1
  /-- 0 for a shadow generation, 1 for an authoritative one, 2 with a frontier. -/
  capability : Nat := 0
  generationInputDigest : Hash := ByteArr.zero 32

/-- What a LevelDB directory gives: it does not open, or each key reads back, is missing, or cannot be
read. -/
abbrev LevelDb := Except String (Bytes → Except String (Option Bytes))

/-- A component that does not exist is `none`. -/
structure GenerationDir where
  manifest : Option FixedManifest := none
  records : Option Bytes := none
  active : Option Bytes := none
  hashIndex : Option LevelDb := none
  derived : Option Bytes := none
  leaves : Option Bytes := none

/-- A check with the text of its failure. -/
def refuse (p : Prop) [Decidable p] (text : String) : Except String Unit := if p then .error text else .ok ()

theorem refuse_ok {p : Prop} [Decidable p] : refuse p text = .ok u ↔ ¬ p := by
  unfold refuse
  split <;> simp_all

/-! ## Headers of records.dat and active.dat -/

/-- The header both files start with, and the words its errors use. -/
structure HeaderKind where
  magic : String
  name : String
  versionWord : String
  entryWord : String
  entrySize : Nat

def recordsHeader : HeaderKind := ⟨"INNBREC1", "records", "record", "record", 228⟩
def activeHeader : HeaderKind := ⟨"INNBACT1", "active.dat", "schema", "entry", 8⟩

def headerWidths : List Nat := [8, 4, 4, 4, 4, 8, 8]

namespace HeaderKind
variable (k : HeaderKind)

def encode (generation : Nat) : Bytes :=
  [ascii k.magic, Bytes.le 4 1, Bytes.le 4 1, Bytes.le 4 40, Bytes.le 4 k.entrySize,
    Bytes.le 8 generation, Bytes.le 8 0].flatten

/-- The generation a header names. -/
def decode (data : Bytes) : Except String Nat :=
  let f := fun i => (Bytes.cut headerWidths data).getD i []
  if f 0 ≠ ascii k.magic then .error ("invalid " ++ k.name ++ " magic")
  else if Bytes.toNat (f 1) ≠ 1 then .error ("unsupported " ++ k.name ++ " format version")
  else if Bytes.toNat (f 2) ≠ 1 then .error ("unsupported " ++ k.name ++ " " ++ k.versionWord ++ " version")
  else if Bytes.toNat (f 3) ≠ 40 then .error ("invalid " ++ k.name ++ " header size")
  else if Bytes.toNat (f 4) ≠ k.entrySize then .error ("invalid " ++ k.name ++ " " ++ k.entryWord ++ " size")
  else if Bytes.toNat (f 6) ≠ 0 then .error ("non-zero reserved " ++ k.name ++ " header bytes")
  else .ok (Bytes.toNat (f 5))

end HeaderKind

namespace GenerationDir
variable (d : GenerationDir)

/-! ## The record store -/

/-- `LoadRecordsHeader`: the number of whole records in the file. -/
def loadRecordsHeader (generation : Nat) : Except String Nat := do
  match d.records with
  | none => throw "missing records.dat"
  | some file =>
    refuse (file.length < 40) "truncated records.dat header"
    let fileGeneration ← recordsHeader.decode (file.take 40)
    refuse (fileGeneration ≠ generation) "generation mismatch between store and records.dat"
    return (file.length - 40) / 228

/-- What `ValidateManifest` objects to. -/
def manifestFault (m : FixedManifest) (generation physicalRecordCount : Nat) : Option String :=
  if m.formatVersion ≠ 1 then some "unsupported manifest format version"
  else if m.recordVersion ≠ 1 then some "unsupported manifest record version"
  else if m.manifestSize ∉ [88, 92, 124] then some "invalid manifest size"
  else if m.recordSize ≠ 228 then some "invalid manifest record size"
  else if m.generation ≠ generation then some "manifest generation mismatch"
  else if m.state ≠ 1 ∧ m.state ≠ 2 then some "invalid manifest state"
  else if physicalRecordCount < m.recordCount then some "manifest recordCount exceeds physical record count"
  else if m.recordCount = 0 then
    if m.committedTipId ≠ 0 then some "empty manifest must have invalid committedTipId"
    else if m.committedTipHeight ≠ -1 then some "empty manifest must have committedTipHeight -1"
    else if m.committedTipHash ≠ ByteArr.zero 32 then some "empty manifest must have null committedTipHash"
    else none
  else if m.committedTipId = 0 then some "non-empty manifest must have committedTipId"
  else if m.recordCount < m.committedTipId then some "committedTipId exceeds recordCount"
  else if m.committedTipHeight < 0 then some "non-empty manifest must have non-negative committedTipHeight"
  else if m.committedTipHash = ByteArr.zero 32 then some "non-empty manifest must have non-zero committedTipHash"
  else none

/-- `FixedBlockIndexStore::OpenReadOnly`, with the manifest and the number of whole records. -/
def openReadOnly (requireComplete : Bool) : Except String (FixedManifest × Nat) := do
  match d.manifest with
  | none => throw "missing MANIFEST"
  | some m =>
    let physical ← d.loadRecordsHeader m.generation
    match manifestFault m m.generation physical with
    | some fault => throw fault
    | none =>
      refuse (requireComplete ∧ m.state ≠ 2) "MANIFEST is not COMPLETE"
      return (m, physical)

/-- The entry of `width` bytes at `index` past the header, if the file has it. -/
def entryAt (file : Bytes) (header width index : Nat) : Option Bytes :=
  if file.length < header + index * width + width then none else some (Bytes.slice file (header + index * width) width)

/-- `FixedBlockIndexStore::Read`. -/
def readRecord (id : Nat) : Except String Record :=
  match d.manifest, d.records with
  | some m, some file =>
    if id = 0 then .error "RecordId 0 is invalid"
    else if m.recordCount < id then .error "RecordId exceeds committed record count"
    else
      match entryAt file 40 228 (id - 1) with
      | none => .error "truncated record bytes"
      | some bytes => decodeRecord bytes
  | _, _ => .error "store is not open"

/-! ## The active index -/

/-- `BlockIndexActiveIndex::Open`: the number of entries. -/
def openActive (generation : Nat) : Except String Nat := do
  match d.active with
  | none => throw "missing active.dat"
  | some file =>
    refuse (file.length < 40) "truncated active.dat header"
    refuse ((file.length - 40) % 8 ≠ 0) "invalid active.dat file size (not a dense multiple)"
    let fileGeneration ← activeHeader.decode (file.take 40)
    refuse (fileGeneration ≠ generation) "active.dat generation mismatch"
    return (file.length - 40) / 8

/-- `BlockIndexActiveIndex::ReadEntry`. -/
def readEntry (height : Int) : Except String Nat :=
  match d.active with
  | none => .error "active index is not open"
  | some file =>
    if height < 0 then .error "active entry height outside physical range"
    else
      match entryAt file 40 8 height.toNat with
      | none => .error "active entry height outside physical range"
      | some bytes => decodeActiveEntry bytes

/-! ## The hash index -/

/-- `LevelDbGet`. -/
def dbGet (db : Bytes → Except String (Option Bytes)) (key : Bytes) : Except String (Option Bytes) :=
  (db key).mapError fun status => "LevelDB get failure: " ++ status

def decodeUint (width : Nat) (value : Bytes) : Except String Nat :=
  if value.length ≠ width then .error ("invalid uint" ++ toString (8 * width) ++ " value length") else
    .ok (Bytes.toNat value)

/-- `BlockIndexHashIndex::Open`. -/
def openHashIndex (generation : Nat) : Except String (Bytes → Except String (Option Bytes)) := do
  match d.hashIndex with
  | none => throw "missing hashindex directory"
  | some (.error status) => throw ("hashindex open failure: " ++ status)
  | some (.ok db) =>
    match ← dbGet db (ascii "meta:kind") with
    | none => throw "missing hashindex metadata kind key"
    | some kind =>
      refuse (kind ≠ ascii "INNBHIX1") "unsupported hashindex kind"
      match ← dbGet db (ascii "meta:schema_version") with
      | none => throw "missing hashindex schema version key"
      | some schema =>
        let version ← decodeUint 4 schema
        refuse (version ≠ 1) "unsupported hashindex schema version"
        match ← dbGet db (ascii "meta:generation") with
        | none => throw "missing hashindex generation key"
        | some value =>
          let stored ← decodeUint 8 value
          refuse (stored = 0) "invalid hashindex generation 0"
          refuse (stored ≠ generation) "hashindex generation mismatch"
          return db

/-- `EncodeBlockIndexHashKey`. -/
def hashKey (h : Hash) : Bytes := ascii "h" ++ hashBytes h

/-- `DecodeBlockIndexRecordIdValue`. -/
def decodeRecordIdValue (value : Bytes) : Except String Nat := do
  let id ← decodeUint 8 value
  refuse (id = 0) "decoded RecordId 0 is invalid"
  return id

/-- `BlockIndexHashIndex::Lookup` of an open index. -/
def lookupIn (db : Bytes → Except String (Option Bytes)) (h : Hash) : Except String (Option Nat) := do
  match ← dbGet db (hashKey h) with
  | none => return none
  | some value => return some (← decodeRecordIdValue value)

def lookup (h : Hash) : Except String (Option Nat) :=
  match d.hashIndex with
  | some (.ok db) => lookupIn db h
  | _ => .error "hashindex is not open"

/-! ## The derived store -/

def derivedHeaderWidths : List Nat := [8, 4, 4, 4, 4, 8, 8, 32, 8]

def derivedHeaderFields (generation entryCount : Nat) (binding : Hash) : List Bytes :=
  [ascii "INNBDRV1", Bytes.le 4 2, Bytes.le 4 2, Bytes.le 4 80, Bytes.le 4 56, Bytes.le 8 generation,
    Bytes.le 8 entryCount,
    binding.val, Bytes.le 8 0]

/-- `EncodeDerivedHeaderV2`. -/
def encodeDerivedHeader (generation entryCount : Nat) (binding : Hash) : Bytes :=
  (derivedHeaderFields generation entryCount binding).flatten

/-- The field of the header that holds the root. -/
def contentBinding (file : Bytes) : Hash := ByteArr.read 32 file 40

/-- `DecodeDerivedHeader` and `ValidateHeader`: the entry count. -/
def decodeDerivedHeader (data : Bytes) (generation : Nat) : Except String Nat :=
  let f := fun i => (Bytes.cut derivedHeaderWidths data).getD i []
  if f 0 ≠ ascii "INNBDRV1" then .error "invalid derived magic"
  else if Bytes.toNat (f 1) ≠ 2 then .error "unsupported derived format version (expected V2)"
  else if Bytes.toNat (f 2) ≠ 2 then .error "unsupported derived schema version (expected V2)"
  else if Bytes.toNat (f 3) ≠ 80 then .error "invalid derived header size (expected 80)"
  else if Bytes.toNat (f 4) ≠ 56 then .error "invalid derived entry size (expected 56)"
  else if Bytes.toNat (f 8) ≠ 0 then .error "non-zero reserved derived header bytes"
  else if Bytes.toNat (f 5) = 0 then .error "derived generation 0 is invalid"
  else if Bytes.toNat (f 5) ≠ generation then .error "derived generation mismatch"
  else .ok (Bytes.toNat (f 6))

/-- `BlockIndexDerivedStateStore::OpenReadOnly`: the entry count. -/
def openDerived (generation : Nat) : Except String Nat := do
  match d.derived with
  | none => throw "missing derived.dat"
  | some file =>
    refuse (file.length < 80) "truncated derived.dat header"
    let entryCount ← decodeDerivedHeader (file.take 80) generation
    refuse (2 ^ 64 ≤ 80 + entryCount * 56) "derived entry region overflow"
    refuse (file.length < 80 + entryCount * 56) "derived.dat truncated within entry region"
    refuse (80 + entryCount * 56 < file.length) "derived.dat has trailing data beyond entry region"
    return entryCount

inductive DerivedReply where
  | found (entry : Derived)
  | notFound
  | corrupt (text : String)
  | notOpen
deriving DecidableEq

/-- `BlockIndexDerivedStateStore::Read` of the store of the manifest's generation. -/
def readDerived (id : Nat) : DerivedReply :=
  match d.manifest, d.derived with
  | some m, some file =>
    match d.openDerived m.generation with
    | .error _ => .notOpen
    | .ok entryCount =>
      if id = 0 ∨ entryCount < id then .notFound
      else
        match entryAt file 80 56 (id - 1) with
        | none => .corrupt "truncated entry bytes"
        | some bytes =>
          match decodeDerivedEntry bytes with
          | .error text => .corrupt text
          | .ok entry => .found entry
  | _, _ => .notOpen

/-! ## Lookups -/

/-- The stores as the reader uses them. -/
def files : GenerationFiles where
  manifest := (d.manifest.map FixedManifest.toGenerationManifest).getD {}
  readRecord := d.readRecord
  readEntry := d.readEntry
  lookup := d.lookup

/-- An open reader with nothing cached. -/
def reader : Reader where
  isOpen := true
  files := d.files
  derived := some fun id =>
    match d.readDerived id with
    | .found entry => some entry
    | _ => none

inductive Lookup where
  | hash (h : Hash)
  | record (id : Nat)
  | height (height : Int)
  | derived (id : Nat)

inductive Reply where
  | block (reply : ReadReply)
  | derived (reply : DerivedReply)
deriving DecidableEq

def answer : Lookup → Reply
  | .hash h => .block ((Reader.lookupByHash h).run d.reader).1
  | .record id => .block ((Reader.getRecordById id).run d.reader).1
  | .height height => .block ((Reader.getActiveByHeight height).run d.reader).1
  | .derived id => .derived (d.readDerived id)

/-! ## What the answers depend on -/

/-- The `count` entries of `width` bytes past the header, if the file has them all. -/
def entryRegion (file : Option Bytes) (header width count : Nat) : Option Bytes :=
  file.bind fun file => if file.length < header + count * width then none else
    some (Bytes.slice file header (count * width))

section
variable (read : entryRegion (some file) header width count = some bytes)
include read

theorem entryRegion_length : bytes.length = count * width := by
  simp only [entryRegion, Option.bind_some] at read
  split at read
  · cases read
  · cases read
    exact Bytes.slice_length (by omega)

/-- An entry of a region is read from the region. -/
theorem entryAt_entryRegion (inside : i < count) :
    entryAt file header width i = some (Bytes.slice bytes (i * width) width) := by
  simp only [entryRegion, Option.bind_some] at read
  split at read
  · cases read
  · next room =>
    cases read
    have within : i * width + width ≤ count * width := by
      rw [← Nat.succ_mul]
      exact Nat.mul_le_mul_right width inside
    rw [entryAt, if_neg (by omega)]
    simp only [Bytes.slice, List.drop_take, List.drop_drop, List.take_take]
    congr 2
    omega

/-- Files with one region read alike inside it. -/
theorem entryAt_eq (read' : entryRegion (some file') header width count = some bytes) (inside : i < count) :
    entryAt file header width i = entryAt file' header width i := by
  rw [entryAt_entryRegion read inside, entryAt_entryRegion read' inside]

end

end GenerationDir
end Innova.BlockIndex
