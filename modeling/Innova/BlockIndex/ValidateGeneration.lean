import Innova.BlockIndex.GenerationDir
import Innova.Lib.Outcome
import Innova.Lib.Together
import Mathlib.Data.List.Sort

/-! Validation of a generation (`blockindex_generation_lifecycle.cpp`, `ValidateGeneration`) and the
writer whose root it checks (`blockindex_generation_writer.cpp`). The root binds records.dat,
active.dat, derived.dat and candidate-leaves.dat. The digest that stands for the hash index in it is
computed from records.dat, so nothing binds what the hash index answers. -/
namespace Innova.BlockIndex
open Lib Chainstate

namespace GenerationDir
variable [Digest] (d : GenerationDir)

/-! ## Candidate leaves -/

def hashLeaves (leaves : List Hash) : Hash := Digest.sha256 (leaves.flatMap Subtype.val)

/-- Hashes compare as numbers, the last byte first. -/
def leafLe (a b : Hash) : Prop := Bytes.toNat a.val ≤ Bytes.toNat b.val

instance : DecidableRel leafLe := fun a b => inferInstanceAs (Decidable (Bytes.toNat a.val ≤ Bytes.toNat b.val))

/-- The blocks no record names as its parent, in order. -/
def leavesOf (records : List Record) : List Hash :=
  let parents := (records.map Record.hashPrev).filter (· ≠ ByteArr.zero 32)
  ((records.map Record.hash).filter (· ∉ parents)).insertionSort leafLe

def leavesWidths : List Nat := [8, 4, 8, 8, 32]

def encodeLeaves (generation : Nat) (leaves : List Hash) : Bytes :=
  [ascii "INNBLF1" ++ [0], Bytes.le 4 1, Bytes.le 8 generation, Bytes.le 8 leaves.length,
    (hashLeaves leaves).val].flatten ++
    leaves.flatMap Subtype.val

/-- `ReadCandidateLeafMetadata`. A missing file sets no text. -/
def readCandidateLeafMetadata (generation : Nat) : Except String (List Hash) :=
  match d.leaves with
  | none => .error ""
  | some file =>
    if file.length < 60 then .error "candidate leaves truncated"
    else
      let f := fun i => (Bytes.cut leavesWidths file).getD i []
      let count := Bytes.toNat (f 3)
      if f 0 ≠ ascii "INNBLF1" ++ [0] ∨ Bytes.toNat (f 1) ≠ 1 ∨ Bytes.toNat (f 2) ≠ generation then
        .error "candidate leaves binding mismatch"
      else if 60 + count * 32 ≠ file.length then .error "candidate leaves size mismatch"
      else
        let leaves := (List.range count).map fun i => ByteArr.read 32 file (60 + i * 32)
        if (hashLeaves leaves).val ≠ f 4 then .error "candidate leaves digest mismatch"
        else if ¬ leaves.IsChain leafLe then .error "candidate leaves unsorted"
        else .ok leaves

/-- `EnsureCandidateLeafMetadata`: a missing file is made anew from every record of records.dat. -/
def ensureCandidateLeafMetadata (generation : Nat) : Except String GenerationDir :=
  if d.leaves.isSome then .ok d
  else do
    let (_, physical) ← d.openReadOnly false
    let records ← (List.range physical).mapM fun i =>
      (d.readRecord (i + 1)).mapError fun text => "candidate leaves record read failed: " ++ text
    return { d with leaves := some (encodeLeaves generation (leavesOf records)) }

/-! ## The root -/

/-- What the digest named after the hash index is made of: the hash and the id of every record. -/
def hashIndexBytes (records : Bytes) (count : Nat) : Bytes :=
  (List.range count).flatMap fun i => (Bytes.slice records (i * 228) 32).reverse ++ Bytes.le 8 (i + 1)

/-- `ComputeCandidateLeavesBinding`. -/
def candidateLeavesBinding (generation : Nat) (leaves : List Hash) : Hash :=
  Digest.sha256 (ascii "INNOVA_CANDIDATE_LEAVES_BINDING_V1" ++ Bytes.le 8 generation ++ (hashLeaves leaves).val)

/-- `MixCandidateLeavesIntoGenerationDigest`. -/
def mixCandidateLeaves (input binding : Hash) : Hash :=
  Digest.sha256 (ascii "INNOVA_GENERATION_BINDING_V2" ++ input.val ++ binding.val)

/-- The bytes the root covers, as they are read back. -/
structure Covered where
  records : Bytes
  active : Bytes
  derived : Bytes
  leaves : List Hash

/-- What `ComputeGenerationRoot` hashes. -/
def Covered.rootInput (c : Covered) (generation : Nat) (m : FixedManifest) : Bytes :=
  [ascii "GENROOT" ++ [0], Bytes.le 4 1, Bytes.le 8 generation, m.committedTipHash.val, Bytes.le 8 m.recordCount,
    (Digest.sha256 c.records).val, (Digest.sha256 c.active).val,
      (Digest.sha256 (hashIndexBytes c.records m.recordCount)).val,
    (Digest.sha256 c.derived).val,
    (mixCandidateLeaves m.generationInputDigest (candidateLeavesBinding generation c.leaves)).val].flatten

/-- The reads of `RecomputeGenerationRootFromFiles`. -/
def readCovered (generation recordCount : Nat) : Except String Covered :=
  match entryRegion d.records 40 228 recordCount with
  | none =>
    .error (if d.records.isNone then "cannot open records.dat for root recomputation"
      else "records.dat truncated during root recomputation")
  | some records =>
    match d.openActive generation with
    | .error text => .error text
    | .ok entries =>
      if entries = 0 then .error "active.dat empty during root recomputation"
      else
        match entryRegion d.active 40 8 entries with
        | none => .error "active.dat truncated during root recomputation"
        | some active =>
          match entryRegion d.derived 80 56 recordCount with
          | none =>
            .error (if d.derived.isNone then "cannot open derived.dat for root recomputation"
              else "derived.dat truncated during root recomputation")
          | some derived =>
            (d.readCandidateLeafMetadata generation).map fun leaves => ⟨records, active, derived, leaves⟩

def recomputedRoot (generation : Nat) (m : FixedManifest) : Except String Hash :=
  (d.readCovered generation m.recordCount).map fun c => Digest.sha256 (c.rootInput generation m)

/-! ## Validation -/

/-- The committed tip as the manifest, active.dat and records.dat have it. -/
def tipFault (m : FixedManifest) (entries : Nat) : Option String :=
  if m.committedTipHeight < 0 then none
  -- compared as `uint64_t`, where the height of an empty active.dat is the largest number
  else if entries ≠ 0 ∧ (entries : Int) - 1 < m.committedTipHeight then
    some "committed tip height exceeds active.dat physical height"
  else if m.committedTipId = 0 ∨ m.recordCount < m.committedTipId then
    some "committed tip RecordId invalid/beyond count"
  else
    match d.readEntry m.committedTipHeight with
    | .error text => some text
    | .ok activeTipId =>
      if activeTipId ≠ m.committedTipId then some "active.dat tip RecordId not coherent with MANIFEST committedTipId"
      else
        match d.readRecord m.committedTipId with
        | .error text => some text
        | .ok tip =>
          if tip.hash ≠ m.committedTipHash ∨ tip.height ≠ m.committedTipHeight then
            some "committed tip record/hash/height incoherent with MANIFEST"
          else none

/-- `ValidateGenerationDir` up to derived.dat. -/
def validateStructure (path : String) (generation : Nat) : Except String FixedManifest := do
  refuse (generation = 0) "generation 0 is invalid"
  refuse (d.records.isNone ∨ d.manifest.isNone ∨ d.active.isNone ∨ d.hashIndex.isNone)
    ("generation missing required component: " ++ path)
  let (m, _) ← d.openReadOnly true
  refuse (m.generation ≠ generation) "generation id bound mismatch (MANIFEST)"
  let entries ← d.openActive generation
  let _ ← d.openHashIndex generation
  match d.tipFault m entries with
  | some fault => throw fault
  | none => return m

/-- `ComputeDerivedContentBinding`: the binding of a shadow generation. -/
def derivedContentBinding (m : FixedManifest) (generation : Nat) : Hash :=
  Digest.sha256 (m.committedTipHash.val ++ Bytes.le 8 m.recordCount ++ Bytes.le 8 generation)

/-- derived.dat of a generation, with the root it stores. -/
def validateDerived (generation : Nat) (m : FixedManifest) : Except String Hash := do
  let entryCount ← d.openDerived generation
  refuse (entryCount ≠ m.recordCount) "derived.dat entry count does not match MANIFEST record count"
  return contentBinding (d.derived.getD [])

/-- The last part of `ValidateGenerationDir` for an authoritative generation. -/
def validateRoot (generation : Nat) (m : FixedManifest) : Except String Unit × GenerationDir :=
  if d.derived.isNone then (.error "authoritative generation missing derived.dat", d)
  else
    match d.validateDerived generation m with
    | .error text => (.error text, d)
    | .ok stored =>
      if stored = ByteArr.zero 32 then
        (.error "authoritative generation has zero content binding (incomplete build)", d)
      else
        match d.ensureCandidateLeafMetadata generation with
        | .error text => (.error text, d)
        | .ok d =>
          match d.recomputedRoot generation m with
          | .error text => (.error text, d)
          | .ok root =>
            if stored ≠ root then
              (.error ("authoritative generation root mismatch: derived header content binding does not match " ++
                "recomputed root from actual files"), d)
            else (.ok (), d)

/-- The last part of `ValidateGenerationDir` for a shadow generation. -/
def validateShadow (generation : Nat) (m : FixedManifest) : Except String Unit :=
  if d.derived.isNone then .ok ()
  else
    match d.validateDerived generation m with
    | .error text => .error text
    | .ok stored =>
      if stored ≠ derivedContentBinding m generation then .error "derived content binding mismatch" else .ok ()

/-- `ValidateGeneration` of a directory that exists, and the directory it leaves. -/
def validateGeneration (path : String) (generation : Nat) : Except String Unit × GenerationDir :=
  match d.validateStructure path generation with
  | .error text => (.error text, d)
  | .ok m =>
    if m.capability = 1 ∨ m.capability = 2 then d.validateRoot generation m
    else (d.validateShadow generation m, d)

end GenerationDir

/-! ## The writer -/

open GenerationDir

/-- What a generation is built from: every record has a derived entry, and the numbers are those of
the C++ types. -/
structure Contents where
  generation : Nat
  records : List Record
  active : List Nat
  derived : List Derived
  committedTipId : Nat
  committedTipHeight : Int
  committedTipHash : Hash
  generationInputDigest : Hash
  complete : derived.length = records.length
  generationSized : generation < 2 ^ 64
  sized : ∀ r ∈ records, r.Sized
  activeSized : ∀ id ∈ active, id < 2 ^ 64

/-- The keys `WriteMetadata` puts into a new hash index. -/
def newHashIndex (generation : Nat) (key : Bytes) : Option Bytes :=
  if key = ascii "meta:kind" then some (ascii "INNBHIX1")
  else if key = ascii "meta:schema_version" then some (Bytes.le 4 1)
  else if key = ascii "meta:generation" then some (Bytes.le 8 generation)
  else none

/-- `BlockIndexHashIndex::Put`. -/
def putHashIndex (db : Bytes → Option Bytes) (h : Hash) (id : Nat) : Except String (Bytes → Option Bytes) :=
  match db (hashKey h) with
  | none => .ok (Function.update db (hashKey h) (some (Bytes.le 8 id)))
  | some existing =>
    match decodeRecordIdValue existing with
    | .error text => .error text
    | .ok existingId => if existingId = id then .ok db else .error "conflicting hashindex mapping for hash"

/-- Every record is put under its hash, with ids from `id` on. -/
def putHashes : List Record → (id : Nat) → (Bytes → Option Bytes) → Except String (Bytes → Option Bytes)
  | [], _, db => .ok db
  | r :: rest, id, db => do putHashes rest (id + 1) (← putHashIndex db r.hash id)

namespace Contents
variable [Digest] (c : Contents)

/-- The manifest of the finished generation. -/
def manifest : FixedManifest :=
  { recordCount := c.records.length, committedTipHeight := c.committedTipHeight, committedTipId := c.committedTipId
    committedTipHash := c.committedTipHash, generation := c.generation, state := 2, capability := 1
    generationInputDigest := c.generationInputDigest }

/-- derived.dat around its entries. -/
def derivedFile (entryCount : Nat) (binding : Hash) : Bytes :=
  encodeDerivedHeader c.generation entryCount binding ++ (c.derived.map encodeDerivedEntry).flatten

/-- `BlockIndexGenerationWriter` from `OpenTarget` to `Finalize`, for an authoritative generation. -/
def write : Except String GenerationDir := do
  refuse (c.generation = 0) "generation 0 is invalid"
  let records ← c.records.mapM encodeRecord
  let index ← putHashes c.records 1 (newHashIndex c.generation)
  let active ← c.active.mapM encodeActiveEntry
  let staged : GenerationDir :=
    { manifest := some { c.manifest with state := 1, capability := 0, generationInputDigest := ByteArr.zero 32 }
      records := some (recordsHeader.encode c.generation ++ records.flatten)
      active := some (activeHeader.encode c.generation ++ active.flatten)
      hashIndex := some (.ok fun key => .ok (index key))
      derived := some (c.derivedFile 0 (ByteArr.zero 32)) }
  match manifestFault c.manifest c.generation c.records.length with
  | some fault => throw ("writer: pre-root MANIFEST write failed: " ++ fault)
  | none =>
    let staged ← (staged.ensureCandidateLeafMetadata c.generation).mapError fun text =>
      "writer: candidate leaves materialization failed: " ++ text
    let root ← (staged.recomputedRoot c.generation c.manifest).mapError fun text =>
      "writer: recompute generation root failed: " ++ text
    return { staged with manifest := some c.manifest, derived := some (c.derivedFile c.derived.length root) }

/-- The id a hash has in the generation. -/
def idOf (h : Hash) : Option Nat := (c.records.findIdx? fun r => r.hash = h).map (· + 1)

/-- The hash index still has the id of every record, and no other hash leads to one. -/
def IndexIntact (d : GenerationDir) : Prop :=
  ∀ h, match c.idOf h with
    | some id => d.lookup h = .ok (some id)
    | none => d.lookup h = .ok none ∨ ∃ id, d.lookup h = .ok (some id) ∧ c.records.length < id

end Contents

/-! ## What a successful step says -/

namespace GenerationDir
variable [Digest] {d d' : GenerationDir} {generation recordCount : Nat} {m : FixedManifest}

omit [Digest] in
private theorem openReadOnly_manifest (opened : d.openReadOnly complete = .ok (m, physical)) : d.manifest = some m := by
  unfold openReadOnly at opened
  split at opened
  · cases opened
  · next found =>
    obtain ⟨_, _, opened⟩ := except_bind_ok opened
    split at opened
    · cases opened
    · obtain ⟨_, _, opened⟩ := except_bind_ok opened
      cases opened
      exact found

omit [Digest] in
theorem openActive_ok (opened : d.openActive generation = .ok entries) :
    ∃ file, d.active = some file ∧ file.length = 40 + entries * 8 := by
  unfold openActive at opened
  split at opened
  · cases opened
  · next file found =>
    simp only [except_bind_ok_iff, refuse_ok] at opened
    obtain ⟨_, long, _, dense, _, -, _, -, opened⟩ := opened
    cases opened
    exact ⟨file, found, by omega⟩

omit [Digest] in
theorem openDerived_ok (opened : d.openDerived generation = .ok entries) :
    ∃ file, d.derived = some file ∧ file.length = 80 + entries * 56 ∧ 80 + entries * 56 < 2 ^ 64 := by
  unfold openDerived at opened
  split at opened
  · cases opened
  · next file found =>
    simp only [except_bind_ok_iff, refuse_ok] at opened
    obtain ⟨_, -, _, -, _, wide, _, short, _, long, opened⟩ := opened
    cases opened
    exact ⟨file, found, by omega, by omega⟩

/-- What the root was computed from is in the files. -/
structure Reads (d : GenerationDir) (generation recordCount : Nat) (c : Covered) : Prop where
  records : entryRegion d.records 40 228 recordCount = some c.records
  active : ∃ entries, d.openActive generation = .ok entries ∧ entryRegion d.active 40 8 entries = some c.active
  derived : entryRegion d.derived 80 56 recordCount = some c.derived

theorem readCovered_ok (read : d.readCovered generation recordCount = .ok c) : Reads d generation recordCount c := by
  unfold readCovered at read
  split at read
  · cases read
  next records readRecords =>
  split at read
  · cases read
  next entries opened =>
  split at read
  · cases read
  split at read
  · cases read
  next active readActive =>
  split at read
  · cases read
  next derived readDerived =>
  obtain ⟨leaves, -, rfl⟩ := ok_of_map read
  exact ⟨readRecords, ⟨entries, opened, readActive⟩, readDerived⟩

theorem recomputedRoot_ok (computed : d.recomputedRoot generation m = .ok root) :
    ∃ c, d.readCovered generation m.recordCount = .ok c ∧ root = Digest.sha256 (c.rootInput generation m) := by
  obtain ⟨c, read, rfl⟩ := ok_of_map computed
  exact ⟨c, read, rfl⟩

theorem ensureCandidateLeafMetadata_ok (ensured : d.ensureCandidateLeafMetadata generation = .ok d') :
    ∃ leaves, d' = { d with leaves } := by
  unfold ensureCandidateLeafMetadata at ensured
  split at ensured
  · cases ensured
    exact ⟨d.leaves, rfl⟩
  · obtain ⟨_, _, ensured⟩ := except_bind_ok ensured
    obtain ⟨_, _, ensured⟩ := except_bind_ok ensured
    cases ensured
    exact ⟨_, rfl⟩

/-- What holds of an authoritative generation that passed. -/
structure Validated (d d' : GenerationDir) (generation : Nat) (m : FixedManifest) : Prop where
  manifest : d.manifest = some m
  bound : m.generation = generation
  tip : ∃ entries, d.openActive generation = .ok entries ∧ (m.committedTipHeight < 0 ∨ m.committedTipHeight < entries)
  derived : d.openDerived generation = .ok m.recordCount
  leaves : ∃ leaves, d' = { d with leaves }
  root : ∃ c, d'.readCovered generation m.recordCount = .ok c ∧
    contentBinding (d.derived.getD []) = Digest.sha256 (c.rootInput generation m)

omit [Digest] in
private theorem tipFault_none (opened : d.openActive generation = .ok entries) (sound : d.tipFault m entries = none) :
    m.committedTipHeight < 0 ∨ m.committedTipHeight < entries := by
  rcases lt_or_ge m.committedTipHeight 0 with low | high
  · exact .inl low
  obtain ⟨file, found, length⟩ := openActive_ok opened
  right
  unfold tipFault at sound
  rw [if_neg (by omega)] at sound
  split at sound
  · cases sound
  next within =>
  split at sound
  · cases sound
  split at sound
  · cases sound
  next _ read =>
  simp only [readEntry, found, if_neg (show ¬ m.committedTipHeight < 0 by omega)] at read
  split at read
  · cases read
  next inside =>
  unfold entryAt at inside
  split at inside
  · cases inside
  · omega

omit [Digest] in
theorem validateStructure_ok (sound : d.validateStructure path generation = .ok m) :
    d.manifest = some m ∧ m.generation = generation ∧
      ∃ entries, d.openActive generation = .ok entries ∧
        (m.committedTipHeight < 0 ∨ m.committedTipHeight < entries) := by
  simp only [validateStructure, except_bind_ok_iff, refuse_ok] at sound
  obtain ⟨_, -, _, -, ⟨m', physical⟩, opened, _, same, entries, active, _, -, sound⟩ := sound
  split at sound
  · cases sound
  next tip =>
  cases sound
  exact ⟨openReadOnly_manifest opened, not_not.mp same, entries, active, tipFault_none active tip⟩

theorem validateGeneration_ok (valid : d.validateGeneration path generation = (.ok (), d'))
    (manifest : d.manifest = some m) (authoritative : m.capability = 1) : Validated d d' generation m := by
  unfold validateGeneration at valid
  split at valid
  · cases valid
  next m' sound =>
  obtain ⟨found, same, tip⟩ := validateStructure_ok sound
  obtain rfl : m' = m := Option.mem_unique found manifest
  rw [if_pos (.inl authoritative)] at valid
  unfold validateRoot at valid
  split at valid
  · cases valid
  split at valid
  · cases valid
  next stored checked =>
  split at valid
  · cases valid
  split at valid
  · cases valid
  next d₁ ensured =>
  split at valid
  · cases valid
  next root computed =>
  split at valid
  · cases valid
  next equal =>
  cases valid
  obtain ⟨entryCount, opened, checked⟩ := except_bind_ok checked
  obtain ⟨_, count, checked⟩ := except_bind_ok checked
  cases checked
  obtain rfl : entryCount = m'.recordCount := not_not.mp (refuse_ok.mp count)
  obtain ⟨c, read, made⟩ := recomputedRoot_ok computed
  exact
    { manifest := found
      bound := same
      tip := tip
      derived := opened
      leaves := ensureCandidateLeafMetadata_ok ensured
      root := ⟨c, read, by rw [← made]; simpa using equal⟩ }

end GenerationDir
end Innova.BlockIndex
