import Innova.BlockIndex.Reader

/-! Opening, closing and moving the reader of a generation (`blockindex_v2_reader.cpp`). Startup
opens one reader and hands it on by move, so a member that a move leaves behind is lost to every
later query. -/
namespace Innova.BlockIndex
open Lib Chainstate

namespace Reader

/-! ## Opening, closing and moving -/

/-- The tip check of `Open`. -/
def tipCoherent (f : GenerationFiles) : Bool :=
  if 0 ≤ f.manifest.committedTipHeight then
    match f.readEntry f.manifest.committedTipHeight with
    | .error _ => false
    | .ok id =>
      id == f.manifest.committedTipId &&
        match f.readRecord id with
        | .error _ => false
        | .ok tip => tip.hash == f.manifest.committedTipHash && tip.height == f.manifest.committedTipHeight
  else true

/-- `ReadAllSequential` with a visitor that asks nothing. -/
def readAllSequential (f : GenerationFiles) : Except String Unit :=
  (List.range f.manifest.recordCount).forM fun i => do
    let _ ← f.readRecord (i + 1)

/-- `Open` on a selected generation whose stores opened. A corrupt derived.dat is replayed from the
records, an absent one leaves the chain trust at zero. -/
def openOn (g : Generation) (capacity : Nat) : Except String Reader :=
  match readAllSequential g.toGenerationFiles with
  | .error text => .error ("authoritative records integrity failure: " ++ text)
  | .ok _ =>
    if !tipCoherent g.toGenerationFiles then .error "reader manifest/active tip coherence failure"
    else
      let plain : Reader := { isOpen := true, files := g.toGenerationFiles, cacheCapacity := capacity }
      match g.derivedFile with
      | .absent => .ok plain
      | .intact read => .ok { plain with derived := some read }
      | .corrupt _ =>
        match g.rebuild with
        | .error text =>
          .error ("derived.dat present but unreadable (corrupt) and authoritative rebuild failed: " ++ text)
        | .ok entries => .ok { plain with derivedRebuilt := entries }

def close (r : Reader) : Reader :=
  { r with
    isOpen := false, files := { r.files with manifest := {} }, derived := none, derivedRebuilt := [], cache := [] }

/-- Move assignment: the destination and what is left of the source. The opened derived.dat is the
one member that stays behind. -/
def moveAssign (dst src : Reader) : Reader × Reader :=
  ({ dst.close with
      isOpen := src.isOpen, files := src.files, derivedRebuilt := src.derivedRebuilt
      cacheCapacity := src.cacheCapacity, cache := src.cache, stats := src.stats },
    { src with isOpen := false, derivedRebuilt := [], cache := [], stats := {} })

def moveConstruct (src : Reader) : Reader × Reader := moveAssign {} src

end Reader

/-- The stores of the generation serve the record: it reads back, and so does the active entry of
its height. -/
def Generation.Serves (g : Generation) (id : Nat) : Prop :=
  0 < id ∧ id ≤ g.manifest.recordCount ∧
    ∃ record inActive, g.readRecord id = .ok record ∧ g.inActive id record.height = .ok inActive

/-- No served record has its derived entry in derived.dat: the file is absent, is corrupt, or ends
before it. -/
def Generation.DerivedFree (g : Generation) : Prop :=
  ∀ read, g.derivedFile = .intact read → ∀ id, g.Serves id → read id = none

namespace Reader
variable {g : Generation} {capacity id : Nat} {r t : Reader}

/-- What `Open` leaves behind. -/
structure Opened (g : Generation) (r : Reader) : Prop where
  isOpen : r.isOpen = true
  files : r.files = g.toGenerationFiles
  cache : r.cache = []
  derived : ∀ read, r.derived = some read ↔ g.derivedFile = .intact read
  rebuilt : ∀ read, g.derivedFile = .intact read → r.derivedRebuilt = []

private theorem openOn_ok (ran : openOn g capacity = .ok r) : Opened g r := by
  unfold openOn at ran
  split at ran
  · cases ran
  split at ran
  · cases ran
  split at ran
  · next file =>
    cases ran
    exact ⟨rfl, rfl, rfl, by simp [file], by simp [file]⟩
  · next file =>
    cases ran
    exact ⟨rfl, rfl, rfl, by simp [file], by simp [file]⟩
  · next file =>
    split at ran
    · cases ran
    cases ran
    exact ⟨rfl, rfl, rfl, by simp [file], by simp [file]⟩

private theorem Opened.coherent (opened : Opened g r) : r.Coherent := by
  intro id s member
  simp [opened.cache] at member

private theorem load_ok : r.load id = .ok s ↔ ∃ record inActive, r.files.readRecord id = .ok record ∧
    r.files.inActive id record.height = .ok inActive ∧ s = r.snapshotFromRecord id record inActive := by
  simp only [load, bind, Except.bind, pure, Except.pure]
  cases read : r.files.readRecord id with
  | error text => simp
  | ok record =>
    dsimp only
    cases active : r.files.inActive id record.height with
    | error text => simp [active]
    | ok inActive =>
      constructor
      · rintro ⟨⟩
        exact ⟨record, inActive, rfl, active, rfl⟩
      · rintro ⟨_, inActive', ⟨⟩, active', rfl⟩
        cases active.symm.trans active'
        rfl

section Move
variable (opened : Opened g r) (same : SameSource r t)
include opened same

section
variable (free : g.DerivedFree) (dst : Reader)
include free dst

/-- Where derived.dat has nothing to say, leaving it behind changes no record. -/
theorem derivedEntry_moved (serves : g.Serves id) :
    (moveAssign dst t).1.derivedEntry id = t.derivedEntry id := by
  have silent : (t.derived.bind fun read => read id) = none := by
    rw [← same.derived]
    cases file : r.derived with
    | none => rfl
    | some read => exact free read ((opened.derived read).mp file) id serves
  simp only [derivedEntry, silent]
  rfl

private theorem load_moved (above : 0 < id)
    (within : id ≤ t.files.manifest.recordCount) : (moveAssign dst t).1.load id = t.load id := by
  have files : t.files = g.toGenerationFiles := same.files.symm.trans opened.files
  have moved : (moveAssign dst t).1.files = t.files := rfl
  simp only [load, bind, Except.bind, pure, Except.pure, moved]
  cases read : t.files.readRecord id with
  | error text => rfl
  | ok record =>
    dsimp only
    cases active : t.files.inActive id record.height with
    | error text => rfl
    | ok inActive =>
      rw [files] at read active within
      have entry := derivedEntry_moved opened same free dst ⟨above, within, record, inActive, read, active⟩
      simp only [snapshotFromRecord, entry]

private theorem alike_moved : Alike (moveAssign dst t).1 t := by
  refine ⟨rfl, rfl, fun id => ?_⟩
  have moved : (moveAssign dst t).1.files = t.files := rfl
  have isOpen : (moveAssign dst t).1.isOpen = t.isOpen := rfl
  simp only [uncached, moved, isOpen]
  by_cases outside : id = 0 ∨ t.files.manifest.recordCount < id
  · simp only [if_pos outside]
  · rw [load_moved opened same free dst (by omega) (by omega)]

end

private theorem coherent_moved (coherent : t.Coherent) (free : g.DerivedFree) (dst : Reader) :
    (moveAssign dst t).1.Coherent := by
  intro id s member
  obtain ⟨above, within, loaded⟩ := coherent id s member
  exact ⟨above, within, by rw [load_moved opened same free dst above within, loaded]⟩

end Move

/-- The reply on a served record tells whether a derived entry was there. -/
theorem uncached_serves (isOpen : r.isOpen = true) (files : r.files = g.toGenerationFiles) (serves : g.Serves id) :
    ∃ s, r.uncached id = .found s ∧ s.hasStakeModifierChecksum = (r.derivedEntry id).isSome := by
  obtain ⟨above, within, record, inActive, read, active⟩ := serves
  rw [← files] at read active within
  refine ⟨r.snapshotFromRecord id record inActive, ?_, ?_⟩
  · have outside : ¬ (id = 0 ∨ r.files.manifest.recordCount < id) := by omega
    simp only [uncached, isOpen, if_neg outside, load_ok.mpr ⟨record, inActive, read, active, rfl⟩]
    rfl
  · unfold snapshotFromRecord
    cases entry : r.derivedEntry id <;> rfl

private theorem answer_record (coherent : r.Coherent) (fuel : Nat) :
    r.answer fuel (.record id) = some (.snapshot (r.uncached id)) := by
  rw [← (getRecordById_spec coherent id).1]
  rfl

/-- A move of an open reader changes no answer, whatever was cached, exactly when the derived file
it leaves behind says nothing about the records it serves. -/
theorem move_keeps_answers_iff (ran : openOn g capacity = .ok r) : (∀ fuel earlier q,
      (∀ dst, (moveAssign dst (r.after fuel earlier)).1.answer fuel q = (r.after fuel earlier).answer fuel q) ∧
      (moveConstruct (r.after fuel earlier)).1.answer fuel q = (r.after fuel earlier).answer fuel q ∧
      (r.after fuel earlier).answer fuel q = r.answer fuel q) ↔ g.DerivedFree := by
  have opened := openOn_ok ran
  constructor
  · intro keeps read file id serves
    have moved := (keeps 0 [] (.record id)).2.1
    have start : r.after 0 [] = r := rfl
    have nothing : (moveConstruct r).1.Coherent := by
      intro id s member
      simp [moveConstruct, moveAssign, opened.cache] at member
    rw [start, answer_record nothing, answer_record opened.coherent] at moved
    obtain ⟨s, found, marked⟩ := uncached_serves opened.isOpen opened.files serves
    obtain ⟨s', found', marked'⟩ := uncached_serves (r := (moveConstruct r).1) opened.isOpen opened.files serves
    rw [found, found'] at moved
    have equal : s' = s := by
      simpa [ReadReply.found] using moved
    rw [equal, marked] at marked'
    have left : (moveConstruct r).1.derivedEntry id = none := by
      have rebuilt := opened.rebuilt read file
      simp only [derivedEntry, moveConstruct, moveAssign, close, rebuilt]
      rfl
    have kept : r.derivedEntry id = none := by simpa [left] using marked'
    simp only [derivedEntry, (opened.derived read).mpr file, Option.bind_some] at kept
    split at kept
    · cases kept
    · next silent => exact silent
  · intro free fuel earlier q
    obtain ⟨same, coherent⟩ := after_spec opened.coherent fuel earlier
    have moves := fun dst => (alike_moved opened same free dst).answer
      (coherent_moved opened same coherent free dst) coherent fuel q
    exact ⟨moves, moves {}, (same.alike.answer opened.coherent coherent fuel q).symm⟩

/-- A generation of one record, with the chain trust of that record in derived.dat as given. -/
def genesisGeneration (file : DerivedFile) : Generation where
  manifest := { recordCount := 1, committedTipHeight := 0, committedTipId := 1, committedTipHash := genesis.hash }
  readRecord id := if id = 1 then .ok genesis else .error "RecordId exceeds committed record count"
  readEntry height := if height = 0 then .ok 1 else .error "active entry height outside physical range"
  lookup h := .ok (if h = genesis.hash then some 1 else none)
  derivedFile := file
  rebuild := .ok [(1, { chainTrust := 5, stakeModifierChecksum := 9 })]
where
  genesis : Record := { hash := ByteArr.filled 32 1, hashPrev := ByteArr.zero 32, height := 0 }

/-- With a corrupt derived.dat the replayed entries move along. -/
theorem rebuilt_reader_moves : ∃ r, openOn (genesisGeneration (.corrupt "bad checksum")) 4096 = .ok r ∧
    ∀ fuel earlier q,
      (∀ dst, (moveAssign dst (r.after fuel earlier)).1.answer fuel q = (r.after fuel earlier).answer fuel q) ∧
      (moveConstruct (r.after fuel earlier)).1.answer fuel q = (r.after fuel earlier).answer fuel q ∧
      (r.after fuel earlier).answer fuel q = r.answer fuel q := by
  obtain ⟨r, ran⟩ : ∃ r, openOn (genesisGeneration (.corrupt "bad checksum")) 4096 = .ok r := ⟨_, rfl⟩
  refine ⟨r, ran, (move_keeps_answers_iff ran).mpr ?_⟩
  intro read file
  cases file

def servedGenesis (trust : Nat) (checked : Bool) : Snapshot :=
  { id := 1, record := genesisGeneration.genesis, hasParent := false, fProofOfStake := false, fInMainChain := true,
    nChainTrust := trust, hasStakeModifierChecksum := checked }

/-- The genesis record was served with its chain trust before the move and is served without it
afterwards, unless it was cached. -/
theorem moved_reader_forgets_trust :
    ∃ r, openOn (genesisGeneration (.intact fun id => if id = 1 then some { chainTrust := 5 } else none)) 4096 = .ok r ∧
      r.answer 0 (.record 1) = some (.snapshot (.found (servedGenesis 5 true))) ∧
      (moveConstruct r).1.answer 0 (.record 1) = some (.snapshot (.found (servedGenesis 0 false))) ∧
      (moveConstruct (r.after 0 [.record 1])).1.answer 0 (.record 1) =
        some (.snapshot (.found (servedGenesis 5 true))) := by
  refine ⟨_, rfl, ?_⟩
  decide +kernel

end Reader
end Innova.BlockIndex
