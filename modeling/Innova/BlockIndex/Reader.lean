import Innova.BlockIndex.Tip
import Innova.Lib.Relational

/-! The reader of one frozen block-index generation (`blockindex_v2_reader.cpp`): its queries and
the bounded cache in front of them, which no answer depends on.

The files of a published generation are never rewritten, so a read of one of its stores is a
function of what is asked. The paths, the generation number and the cached selection marker are
left out: the queries here do not read them. -/
namespace Innova.BlockIndex
open Lib Chainstate

/-! ## What a generation reads back -/

/-- What the queries and `Open` use of `FixedBlockIndexManifest`. -/
structure GenerationManifest where
  recordCount : Nat := 0
  committedTipHeight : Int := -1
  committedTipId : Nat := 0
  committedTipHash : Hash := ByteArr.zero 32

/-- The record store, the active index and the hash index of a generation, with its manifest. A
failed read is the text the store reports. -/
structure GenerationFiles where
  manifest : GenerationManifest := {}
  readRecord : Nat → Except String Record := fun _ => .error "store is not open"
  readEntry : Int → Except String Nat := fun _ => .error "active index is not open"
  lookup : Hash → Except String (Option Nat) := fun _ => .error "hashindex is not open"

/-- derived.dat as `Open` finds it. -/
inductive DerivedFile where
  | absent
  | intact (read : Nat → Option Derived)
  | corrupt (text : String)

/-- A generation as `Open` found it. -/
structure Generation extends GenerationFiles where
  derivedFile : DerivedFile
  /-- `RebuildAllDerivedFromAuthoritative` over the records. -/
  rebuild : Except String (List (Nat × Derived))

/-- The id `active.dat` holds at a height, when it can be one of a committed record. -/
def GenerationFiles.activeId (f : GenerationFiles) (height : Int) : Option Nat :=
  match f.readEntry height with
  | .ok id => if id = 0 ∨ f.manifest.recordCount < id then none else some id
  | .error _ => none

/-- Whether the record at `id` is the active one of its height. -/
def GenerationFiles.inActive (f : GenerationFiles) (id : Nat) (height : Int) : Except String Bool :=
  if 0 ≤ height ∧ height ≤ f.manifest.committedTipHeight then
    (f.readEntry height).map fun activeId => activeId == id
  else .ok false

/-! ## Replies -/

/-- `BlockIndexSnapshot`, of a block that was found: the fields the record gives, and those a
derived entry adds. -/
structure Snapshot where
  id : Nat
  record : Record
  hasParent : Bool
  fProofOfStake : Bool
  fInMainChain : Bool
  nChainTrust : Nat := 0
  nStakeModifierChecksum : Nat := 0
  hasStakeModifierChecksum : Bool := false
  nSize : Nat := 0
  hasBlockSize : Bool := false
deriving DecidableEq

/-- `ReadStatus`. -/
inductive ReadStatus where
  | found | notFound | corrupt | ioError | notOpen
deriving DecidableEq

/-- What a query does to its output argument. -/
inductive ReadOut where
  | untouched
  | cleared
  | filled (s : Snapshot)
deriving DecidableEq

/-- A status with what the query left in the output and in the error text (`none`: untouched). -/
structure ReadReply where
  status : ReadStatus
  out : ReadOut
  error : Option String
deriving DecidableEq

def ReadReply.closed : ReadReply := ⟨.notOpen, .untouched, some "reader is not open"⟩

def ReadReply.found (s : Snapshot) : ReadReply := ⟨.found, .filled s, some ""⟩

def ReadReply.snapshot? (reply : ReadReply) : Option Snapshot :=
  match reply.status, reply.out with
  | .found, .filled s => some s
  | _, _ => none

/-! ## The reader -/

/-- The counters of the cache. -/
structure CacheStats where
  entries : Nat := 0
  hits : Nat := 0
  misses : Nat := 0
  evictions : Nat := 0
  bytesEstimated : Nat := 0

/-- `BlockIndexV2Reader`. The cache and its list of recently used ids are one list, the latest use
in front. -/
structure Reader where
  isOpen : Bool := false
  files : GenerationFiles := {}
  /-- The opened derived.dat. -/
  derived : Option (Nat → Option Derived) := none
  derivedRebuilt : List (Nat × Derived) := []
  cacheCapacity : Nat := 0
  cache : List (Nat × Snapshot) := []
  stats : CacheStats := {}

/-- The bytes one cached snapshot counts for, on a 64-bit build. -/
def cacheEntryBytes : Nat := 736

namespace Reader

/-- The derived entry a snapshot is completed with: derived.dat first, then the rebuilt one. -/
def derivedEntry (r : Reader) (id : Nat) : Option Derived :=
  match r.derived.bind fun read => read id with
  | some entry => some entry
  | none => r.derivedRebuilt.lookup id

/-- The record with its derived entry. -/
def snapshotFromRecord (r : Reader) (id : Nat) (record : Record) (inActive : Bool) : Snapshot :=
  let plain : Snapshot :=
    { id, record, hasParent := record.hashPrev != ByteArr.zero 32, fProofOfStake := record.prevoutStake.isSome,
      fInMainChain := inActive }
  match r.derivedEntry id with
  | none => plain
  | some entry =>
    { plain with
      nChainTrust := entry.chainTrust
      nStakeModifierChecksum := entry.stakeModifierChecksum
      hasStakeModifierChecksum := true
      nSize := entry.nSize.getD 0
      hasBlockSize := entry.nSize.isSome }

/-- A record read from the files, past the cache. -/
def load (r : Reader) (id : Nat) : Except String Snapshot := do
  let record ← r.files.readRecord id
  let inActive ← r.files.inActive id record.height
  return r.snapshotFromRecord id record inActive

/-- The loop of `CachePut`: the least recently used entries go until the new one fits. -/
def evict (capacity : Nat) : Nat → List (Nat × Snapshot) → CacheStats → List (Nat × Snapshot) × CacheStats
  | 0, cache, stats => (cache, stats)
  | n + 1, cache, stats =>
    if cache.isEmpty || decide (stats.bytesEstimated + cacheEntryBytes ≤ capacity) then (cache, stats)
    else
      evict capacity n cache.dropLast
        { stats with
          entries := stats.entries - 1, evictions := stats.evictions + 1
          bytesEstimated := stats.bytesEstimated - cacheEntryBytes }

/-- Enters a snapshot; the least recent ones make room. -/
def cachePut (r : Reader) (s : Snapshot) : Reader :=
  if r.cacheCapacity = 0 then r
  else
    let (cache, stats) := evict r.cacheCapacity r.cache.length r.cache r.stats
    if r.cacheCapacity < cacheEntryBytes then { r with cache, stats }
    else
      { r with
        cache := (s.id, s) :: cache
        stats := { stats with entries := stats.entries + 1, bytesEstimated := stats.bytesEstimated + cacheEntryBytes } }

/-- A cache hit moves the entry to the front. -/
def hit (r : Reader) (id : Nat) (s : Snapshot) : Reader :=
  { r with cache := (id, s) :: r.cache.filter (·.1 ≠ id), stats := { r.stats with hits := r.stats.hits + 1 } }

def missed (r : Reader) : Reader := { r with stats := { r.stats with misses := r.stats.misses + 1 } }

/-! ## Queries -/

/-- `GetRecordById`. -/
def getRecordById (id : Nat) : StateM Reader ReadReply := fun r =>
  if !r.isOpen then (.closed, r)
  else if id = 0 ∨ r.files.manifest.recordCount < id then (⟨.notFound, .cleared, some ""⟩, r)
  else
    match r.cache.lookup id with
    | some s => (.found s, r.hit id s)
    | none =>
      match r.load id with
      | .error text => (⟨.corrupt, .untouched, some text⟩, r.missed)
      | .ok s => (.found s, r.missed.cachePut s)

/-- What a query reads of the reader besides its records. -/
def parts : StateM Reader (Bool × GenerationFiles) := (fun r => (r.isOpen, r.files)) <$> get

/-- `LookupByHash`. -/
def lookupByHash (h : Hash) : StateM Reader ReadReply := do
  let (isOpen, files) ← parts
  if !isOpen then return .closed
  match files.lookup h with
  | .error text => return ⟨.corrupt, .untouched, some text⟩
  | .ok none => return ⟨.notFound, .cleared, some ""⟩
  | .ok (some id) =>
    let reply ← getRecordById id
    match reply.snapshot? with
    | some s =>
      return if s.record.hash ≠ h then ⟨.corrupt, reply.out, some "hashindex/record hash mismatch"⟩ else reply
    | none => return reply

/-- The active record at an adjacent height, read for the link check. -/
def neighbour (files : GenerationFiles) (height : Int) : StateM Reader (Option Snapshot) :=
  match files.activeId height with
  | none => pure none
  | some id => do
    let reply ← getRecordById id
    return reply.snapshot?.filter fun s => s.record.height = height

/-- The active entries on both sides of a block link to it. -/
def linkedBelow (files : GenerationFiles) (s : Snapshot) : StateM Reader Bool :=
  if 0 < s.record.height then do
    let prev ← neighbour files (s.record.height - 1)
    return prev.any fun p => s.record.hashPrev == p.record.hash
  else pure true

@[inherit_doc linkedBelow]
def linkedAbove (files : GenerationFiles) (s : Snapshot) : StateM Reader Bool :=
  if s.record.height < files.manifest.committedTipHeight then do
    let next ← neighbour files (s.record.height + 1)
    return next.any fun n => n.record.hashPrev == s.record.hash
  else pure true

/-- `GetActiveByHeight`. -/
def getActiveByHeight (height : Int) : StateM Reader ReadReply := do
  let (isOpen, files) ← parts
  if !isOpen then return .closed
  if height < 0 ∨ files.manifest.committedTipHeight < height then return ⟨.notFound, .cleared, none⟩
  match files.activeId height with
  | none => return ⟨.corrupt, .untouched, some "active RecordId invalid/beyond committed count"⟩
  | some id =>
    let reply ← getRecordById id
    match reply.snapshot? with
    | none => return reply
    | some s =>
      if s.record.height ≠ height then return ⟨.corrupt, reply.out, some "active height/record mismatch"⟩
      let below ← linkedBelow files s
      if !below then return ⟨.corrupt, reply.out, some "active predecessor linkage mismatch"⟩
      let above ← linkedAbove files s
      if !above then return ⟨.corrupt, reply.out, some "active successor linkage mismatch"⟩
      return .found { s with fInMainChain := true }

/-- `GetParent`. -/
def getParent (id : Nat) : StateM Reader ReadReply := do
  let reply ← getRecordById id
  match reply.snapshot? with
  | none => return { reply with out := .untouched }
  | some child =>
    if !child.hasParent then return ⟨.notFound, .cleared, reply.error⟩
    let parent ← lookupByHash child.record.hashPrev
    match parent.snapshot? with
    | some s =>
      return if s.record.hash ≠ child.record.hashPrev then
        ⟨.corrupt, parent.out, some "parent hash mismatch"⟩ else parent
    | none => return parent

/-- The walk of `GetAncestor` through parents, `none` when `fuel` steps do not reach the height:
the source has no bound, and parents that never get lower keep it walking. -/
def climb (target : Int) : Nat → Snapshot → Option String → StateM Reader (Option ReadReply)
  | 0, _, _ => pure none
  | fuel + 1, s, error =>
    if s.record.height ≤ target then pure (some ⟨.found, .filled s, error⟩)
    else do
      let reply ← getParent s.id
      match reply.snapshot? with
      | some parent => climb target fuel parent reply.error
      | none => return some { reply with out := .untouched }

/-- Text a store leaves behind: its error, or nothing on success. -/
def errorText {α : Type} : Except String α → String
  | .error text => text
  | .ok _ => ""

/-- `GetAncestor`. -/
def getAncestor (fuel id : Nat) (target : Int) : StateM Reader (Option ReadReply) := do
  let reply ← getRecordById id
  match reply.snapshot? with
  | none => return some ⟨.notFound, .untouched, reply.error⟩
  | some s =>
    if s.record.height < target then return some ⟨.notFound, .cleared, reply.error⟩
    let (_, files) ← parts
    let entry := files.readEntry s.record.height
    if entry.toOption = some id then
      let active ← getActiveByHeight target
      return some { active with error := active.error <|> some "" }
    climb target fuel s (some (errorText entry))

structure SizeReply where
  status : ReadStatus
  size : Nat
  hasSize : Bool
  error : Option String
deriving DecidableEq

/-- `GetBlockSize`. -/
def getBlockSize (id : Nat) : StateM Reader SizeReply := do
  let reply ← getRecordById id
  match reply.snapshot? with
  | some s => return ⟨.found, s.nSize, s.hasBlockSize, some ""⟩
  | none => return ⟨reply.status, 0, false, reply.error⟩

/-! ## The cache never shows

Every cached snapshot is what the files would give, and each query keeps it so. -/

/-- The reply of `getRecordById` to a reader that has cached nothing. -/
def uncached (r : Reader) (id : Nat) : ReadReply :=
  if !r.isOpen then .closed
  else if id = 0 ∨ r.files.manifest.recordCount < id then ⟨.notFound, .cleared, some ""⟩
  else
    match r.load id with
    | .error text => ⟨.corrupt, .untouched, some text⟩
    | .ok s => .found s

/-- A cached snapshot of `id` that the files would give again. -/
def Fresh (r : Reader) (id : Nat) (s : Snapshot) : Prop :=
  0 < id ∧ id ≤ r.files.manifest.recordCount ∧ r.load id = .ok s

/-- Every cached snapshot is the one of its record. -/
def Coherent (r : Reader) : Prop := ∀ id s, (id, s) ∈ r.cache → r.Fresh id s

/-- Readers of the same files that complete records alike. -/
structure SameSource (r t : Reader) : Prop where
  isOpen : r.isOpen = t.isOpen
  files : r.files = t.files
  derived : r.derived = t.derived
  derivedRebuilt : r.derivedRebuilt = t.derivedRebuilt

variable {r t : Reader} {id : Nat}

private theorem SameSource.refl (r : Reader) : SameSource r r := ⟨rfl, rfl, rfl, rfl⟩

private theorem SameSource.trans (same : SameSource r t) (next : SameSource t u) : SameSource r u :=
  ⟨same.isOpen.trans next.isOpen, same.files.trans next.files, same.derived.trans next.derived,
    same.derivedRebuilt.trans next.derivedRebuilt⟩

private theorem SameSource.load (same : SameSource r t) : r.load id = t.load id := by
  have completes : r.snapshotFromRecord id = t.snapshotFromRecord id := by
    funext record inActive
    simp only [snapshotFromRecord, derivedEntry, same.derived, same.derivedRebuilt]
  simp only [Reader.load, same.files, completes]

private theorem SameSource.coherent (same : SameSource r t) (coherent : r.Coherent)
    (cached : ∀ entry ∈ t.cache, entry ∈ r.cache ∨ r.Fresh entry.1 entry.2) : t.Coherent := by
  intro id s member
  have fresh : r.Fresh id s := (cached (id, s) member).elim (coherent id s) fun fresh => fresh
  rw [Fresh, ← same.files, ← same.load]
  exact fresh

theorem load_id (loaded : r.load id = .ok s) : s.id = id := by
  simp only [load, bind, Except.bind, pure, Except.pure] at loaded
  split at loaded
  · cases loaded
  split at loaded
  · cases loaded
  cases loaded
  simp only [snapshotFromRecord]
  split <;> rfl

private theorem evict_subset (capacity n : Nat) (cache : List (Nat × Snapshot)) (stats : CacheStats) :
    (evict capacity n cache stats).1 ⊆ cache := by
  induction n generalizing cache stats with
  | zero => exact fun _ member => member
  | succ n ih =>
    rw [evict]
    split
    · exact fun _ member => member
    · exact fun _ member => List.dropLast_subset _ (ih _ _ member)

private theorem sameSource_missed : SameSource r r.missed := ⟨rfl, rfl, rfl, rfl⟩

private theorem sameSource_cachePut (s : Snapshot) : SameSource r (r.cachePut s) := by
  unfold cachePut
  split
  · exact ⟨rfl, rfl, rfl, rfl⟩
  · dsimp only
    split <;> exact ⟨rfl, rfl, rfl, rfl⟩

private theorem mem_cachePut (member : entry ∈ (r.cachePut s).cache) : entry ∈ r.cache ∨ entry = (s.id, s) := by
  unfold cachePut at member
  split at member
  · exact .inl member
  · dsimp only at member
    split at member
    · exact .inl (evict_subset _ _ _ _ member)
    · rcases List.mem_cons.mp member with new | old
      · exact .inr new
      · exact .inl (evict_subset _ _ _ _ old)

private theorem mem_of_lookup {cache : List (Nat × Snapshot)} (cached : cache.lookup id = some s) :
    (id, s) ∈ cache := by
  obtain ⟨before, rest, rfl, -⟩ := List.lookup_eq_some_iff.mp cached
  simp

/-- A query of one record answers as if nothing were cached, and leaves the cache right. -/
theorem getRecordById_spec (coherent : r.Coherent) (id : Nat) :
    ((getRecordById id).run r).1 = r.uncached id ∧ SameSource r ((getRecordById id).run r).2 ∧
      ((getRecordById id).run r).2.Coherent := by
  show (getRecordById id r).1 = _ ∧ SameSource r (getRecordById id r).2 ∧ (getRecordById id r).2.Coherent
  unfold getRecordById uncached
  split
  · exact ⟨rfl, .refl r, coherent⟩
  split
  · exact ⟨rfl, .refl r, coherent⟩
  cases cached : r.cache.lookup id with
  | some s =>
    have member := mem_of_lookup cached
    rw [(coherent id s member).2.2]
    have same : SameSource r (r.hit id s) := ⟨rfl, rfl, rfl, rfl⟩
    refine ⟨rfl, same, same.coherent coherent fun entry held => ?_⟩
    rcases List.mem_cons.mp held with rfl | old
    · exact .inl member
    · exact .inl (List.mem_of_mem_filter old)
  | none =>
    cases loaded : r.load id with
    | error text => exact ⟨rfl, sameSource_missed, sameSource_missed.coherent coherent fun _ held => .inl held⟩
    | ok s =>
      have same : SameSource r (r.missed.cachePut s) := sameSource_missed.trans (sameSource_cachePut s)
      refine ⟨rfl, same, same.coherent coherent fun entry held => ?_⟩
      rcases mem_cachePut held with old | rfl
      · exact .inl old
      · rw [load_id loaded]
        exact .inr ⟨by omega, by omega, loaded⟩

private theorem SameSource.uncached (same : SameSource r t) : r.uncached id = t.uncached id := by
  simp only [Reader.uncached, same.isOpen, same.files, same.load]

/-- Readers no query can tell apart: they read the same files and serve the same records. -/
structure Alike (r t : Reader) : Prop where
  isOpen : r.isOpen = t.isOpen
  files : r.files = t.files
  serves : ∀ id, r.uncached id = t.uncached id

private theorem Alike.refl (r : Reader) : Alike r r := ⟨rfl, rfl, fun _ => rfl⟩

/-- Two readers as queries have left them, with the readers they started from. -/
structure Tracks (start start' r t : Reader) : Prop where
  left : SameSource start r
  right : SameSource start' t
  coherent : r.Coherent
  coherent' : t.Coherent

/-- What `getActiveByHeight` does with the files it has read. -/
def activeReply (isOpen : Bool) (files : GenerationFiles) (height : Int) : StateM Reader ReadReply := do
  if !isOpen then return .closed
  if height < 0 ∨ files.manifest.committedTipHeight < height then return ⟨.notFound, .cleared, none⟩
  match files.activeId height with
  | none => return ⟨.corrupt, .untouched, some "active RecordId invalid/beyond committed count"⟩
  | some id =>
    let reply ← getRecordById id
    match reply.snapshot? with
    | none => return reply
    | some s =>
      if s.record.height ≠ height then return ⟨.corrupt, reply.out, some "active height/record mismatch"⟩
      let below ← linkedBelow files s
      if !below then return ⟨.corrupt, reply.out, some "active predecessor linkage mismatch"⟩
      let above ← linkedAbove files s
      if !above then return ⟨.corrupt, reply.out, some "active successor linkage mismatch"⟩
      return .found { s with fInMainChain := true }

section Records
variable {start start' : Reader} (serves : ∀ id, start.uncached id = start'.uncached id)
include serves

private theorem blind_getRecordById (id : Nat) : Blind (Tracks start start') (getRecordById id) := by
  intro r t tracks
  obtain ⟨answer, same, coherent⟩ := getRecordById_spec tracks.coherent id
  obtain ⟨answer', same', coherent'⟩ := getRecordById_spec tracks.coherent' id
  refine ⟨?_, tracks.left.trans same, tracks.right.trans same', coherent, coherent'⟩
  rw [answer, answer', ← tracks.left.uncached, ← tracks.right.uncached]
  exact serves id

private theorem blind_neighbour (files : GenerationFiles) (height : Int) :
    Blind (Tracks start start') (neighbour files height) := by
  unfold neighbour
  split
  · exact blind_pure _
  · exact (blind_getRecordById serves _).bind fun reply => blind_pure _

private theorem blind_linkedBelow (files : GenerationFiles) (s : Snapshot) :
    Blind (Tracks start start') (linkedBelow files s) := by
  unfold linkedBelow
  split
  · exact (blind_neighbour serves _ _).bind fun prev => blind_pure _
  · exact blind_pure _

private theorem blind_linkedAbove (files : GenerationFiles) (s : Snapshot) :
    Blind (Tracks start start') (linkedAbove files s) := by
  unfold linkedAbove
  split
  · exact (blind_neighbour serves _ _).bind fun next => blind_pure _
  · exact blind_pure _

private theorem blind_activeReply (isOpen : Bool) (files : GenerationFiles) (height : Int) :
    Blind (Tracks start start') (activeReply isOpen files height) := by
  unfold activeReply
  split
  · exact blind_pure _
  split
  · exact blind_pure _
  split
  · exact blind_pure _
  apply (blind_getRecordById serves _).bind
  intro reply
  split
  · exact blind_pure _
  split
  · exact blind_pure _
  apply (blind_linkedBelow serves _ _).bind
  intro below
  split
  · exact blind_pure _
  apply (blind_linkedAbove serves _ _).bind
  intro above
  split <;> exact blind_pure _

end Records

section Queries
variable {start start' : Reader} (alike : Alike start start')
include alike

private theorem blind_parts : Blind (Tracks start start') parts := by
  apply blind_gets
  intro r t tracks
  rw [← tracks.left.isOpen, ← tracks.right.isOpen, ← tracks.left.files, ← tracks.right.files, alike.isOpen, alike.files]

private theorem blind_lookupByHash (h : Hash) : Blind (Tracks start start') (lookupByHash h) := by
  apply (blind_parts alike).bind
  rintro ⟨isOpen, files⟩
  dsimp only
  split
  · exact blind_pure _
  split
  · exact blind_pure _
  · exact blind_pure _
  · apply (blind_getRecordById alike.serves _).bind
    intro reply
    split <;> exact blind_pure _

private theorem blind_getActiveByHeight (height : Int) : Blind (Tracks start start') (getActiveByHeight height) := by
  exact (blind_parts alike).bind fun p => blind_activeReply alike.serves p.1 p.2 height

private theorem blind_getParent (id : Nat) : Blind (Tracks start start') (getParent id) := by
  apply (blind_getRecordById alike.serves id).bind
  intro reply
  split
  · exact blind_pure _
  split
  · exact blind_pure _
  apply (blind_lookupByHash alike _).bind
  intro parent
  split <;> exact blind_pure _

private theorem blind_climb (target : Int) (fuel : Nat) (s : Snapshot) (error : Option String) :
    Blind (Tracks start start') (climb target fuel s error) := by
  induction fuel generalizing s error with
  | zero => exact blind_pure _
  | succ fuel ih =>
    unfold climb
    split
    · exact blind_pure _
    apply (blind_getParent alike _).bind
    intro reply
    split
    · exact ih _ _
    · exact blind_pure _

private theorem blind_getAncestor (fuel id : Nat) (target : Int) :
    Blind (Tracks start start') (getAncestor fuel id target) := by
  apply (blind_getRecordById alike.serves id).bind
  intro reply
  split
  · exact blind_pure _
  split
  · exact blind_pure _
  apply (blind_parts alike).bind
  rintro ⟨isOpen, files⟩
  dsimp only
  split
  · exact (blind_getActiveByHeight alike target).bind fun active => blind_pure _
  · exact blind_climb alike target fuel _ _

private theorem blind_getBlockSize (id : Nat) : Blind (Tracks start start') (getBlockSize id) := by
  apply (blind_getRecordById alike.serves id).bind
  intro reply
  split <;> exact blind_pure _

end Queries

/-! ## One query after another -/

/-- The questions. -/
inductive Query where
  | record (id : Nat)
  | hash (h : Hash)
  | height (height : Int)
  | parent (id : Nat)
  | ancestor (id : Nat) (target : Int)
  | size (id : Nat)

/-- The answers. -/
inductive Answer where
  | snapshot (reply : ReadReply)
  | size (reply : SizeReply)
deriving DecidableEq

/-- The answer to a query, `none` while an ancestor walk has not ended within `fuel` steps. -/
def ask (fuel : Nat) : Query → StateM Reader (Option Answer)
  | .record id => (fun reply => some (.snapshot reply)) <$> getRecordById id
  | .hash h => (fun reply => some (.snapshot reply)) <$> lookupByHash h
  | .height height => (fun reply => some (.snapshot reply)) <$> getActiveByHeight height
  | .parent id => (fun reply => some (.snapshot reply)) <$> getParent id
  | .ancestor id target => (fun reply => reply.map Answer.snapshot) <$> getAncestor fuel id target
  | .size id => (fun reply => some (.size reply)) <$> getBlockSize id

/-- The reader after a sequence of queries. -/
def after (r : Reader) (fuel : Nat) (queries : List Query) : Reader := ((queries.mapM (ask fuel)).run r).2

def answer (r : Reader) (fuel : Nat) (q : Query) : Option Answer := ((ask fuel q).run r).1

private theorem blind_ask (alike : Alike r t) (fuel : Nat) (q : Query) : Blind (Tracks r t) (ask fuel q) := by
  cases q with
  | record id => exact (blind_getRecordById alike.serves id).map _
  | hash h => exact (blind_lookupByHash alike h).map _
  | height height => exact (blind_getActiveByHeight alike height).map _
  | parent id => exact (blind_getParent alike id).map _
  | ancestor id target => exact (blind_getAncestor alike fuel id target).map _
  | size id => exact (blind_getBlockSize alike id).map _

theorem Alike.answer (alike : Alike r t) (coherent : r.Coherent) (coherent' : t.Coherent) (fuel : Nat) (q : Query) :
    r.answer fuel q = t.answer fuel q :=
  (blind_ask alike fuel q r t ⟨.refl r, .refl t, coherent, coherent'⟩).1

/-- Queries change nothing but the cache, and leave it right. -/
theorem after_spec (coherent : r.Coherent) (fuel : Nat) (queries : List Query) :
    SameSource r (r.after fuel queries) ∧ (r.after fuel queries).Coherent := by
  have tracks := (Blind.mapM (blind_ask (.refl r) fuel) queries r r ⟨.refl r, .refl r, coherent, coherent⟩).2
  exact ⟨tracks.left, tracks.coherent⟩

/-! ## Lookups of one kind -/

/-- The reply of `lookupByHash` to a reader that has cached nothing. -/
def uncachedHash (r : Reader) (h : Hash) : ReadReply :=
  if !r.isOpen then .closed
  else
    match r.files.lookup h with
    | .error text => ⟨.corrupt, .untouched, some text⟩
    | .ok none => ⟨.notFound, .cleared, some ""⟩
    | .ok (some id) =>
      match (r.uncached id).snapshot? with
      | some s =>
        if s.record.hash ≠ h then
          ⟨.corrupt, (r.uncached id).out, some "hashindex/record hash mismatch"⟩ else r.uncached id
      | none => r.uncached id

theorem lookupByHash_reply (coherent : r.Coherent) (h : Hash) : ((lookupByHash h).run r).1 = r.uncachedHash h := by
  have read : parts.run r = ((r.isOpen, r.files), r) := rfl
  unfold lookupByHash uncachedHash
  rw [run_bind_state, read]
  dsimp only
  split
  · rfl
  cases found : r.files.lookup h with
  | error text => rfl
  | ok entry =>
    cases entry with
    | none => rfl
    | some id =>
      dsimp only
      rw [run_bind_state, (getRecordById_spec coherent id).1]
      split <;> rfl

/-- A lookup by height uses of the files only the manifest, the active index and the records. -/
theorem getActiveByHeight_same (coherent : r.Coherent) (coherent' : t.Coherent) (isOpen : r.isOpen = t.isOpen)
    (manifest : r.files.manifest = t.files.manifest) (entries : r.files.readEntry = t.files.readEntry)
    (serves : ∀ id, r.uncached id = t.uncached id) (height : Int) :
    ((getActiveByHeight height).run r).1 = ((getActiveByHeight height).run t).1 := by
  have program : activeReply r.isOpen r.files height = activeReply t.isOpen t.files height := by
    rw [isOpen]
    obtain ⟨⟩ := r
    obtain ⟨⟩ := t
    rename_i f _ _ _ _ _ _ f' _ _ _ _ _
    obtain ⟨⟩ := f
    obtain rfl := manifest
    obtain rfl := entries
    rfl
  show ((activeReply r.isOpen r.files height).run r).1 = ((activeReply t.isOpen t.files height).run t).1
  rw [program]
  exact (blind_activeReply serves _ _ height r t ⟨.refl r, .refl t, coherent, coherent'⟩).1

theorem SameSource.alike (same : SameSource r t) : Alike r t := ⟨same.isOpen, same.files, fun _ => same.uncached⟩

end Reader
end Innova.BlockIndex
