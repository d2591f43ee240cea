import Innova.TxLoc.KeepFirst
import Mathlib.Data.List.Nodup
import Mathlib.Data.List.Pairwise

/-! Looking a confirmed transaction up (`main.cpp`): blocks are appended to the archive files when they
are accepted, the locator takes in the positions of a block's transactions when the block is connected,
and nothing is taken out when it is disconnected. -/
namespace Innova.TxLoc
open Lib Chainstate Locator

/-! ## Blocks and where they stand -/

/-- A transaction and the size of its serialisation. -/
structure Tx where
  txid : Hash
  size : Nat
  size_pos : 0 < size

instance : DecidableEq Tx := fun a b =>
  decidable_of_iff (a.txid = b.txid ∧ a.size = b.size) (by cases a; cases b; simp)

/-- `GetSizeOfCompactSize`. -/
def compactSize (n : Nat) : Nat := if n < 253 then 1 else if n ≤ 0xffff then 3 else if n ≤ 0xffffffff then 5 else 9

/-- Serialised header, transactions and signature. -/
def serializeSize (vtx : List Tx) (sigSize : Nat) : Nat := 80 + compactSize vtx.length + (vtx.map Tx.size).sum + sigSize

/-- A block as `CheckBlock` lets it pass: no larger than `ADAPTIVE_BLOCK_CEILING` and without a
repeated transaction. -/
structure Block where
  hash : Hash
  hashPrev : Hash
  vtx : List Tx
  sigSize : Nat
  distinct : (vtx.map Tx.txid).Nodup
  fits : serializeSize vtx sigSize ≤ 8000000

/-- A block on disk with its block index entry. -/
structure Stored where
  nFile : Nat
  nBlockPos : Nat
  height : Nat
  block : Block

namespace Stored

/-- The end of the block in its file. -/
def stop (p : Stored) : Nat := p.nBlockPos + serializeSize p.block.vtx p.block.sigSize

/-- Each transaction with its position, from `nTxPos` on. -/
def positions (nTxPos : Nat) : List Tx → List (Tx × Nat)
  | [] => []
  | tx :: rest => (tx, nTxPos) :: positions (nTxPos + tx.size) rest

/-- `vPos` of `ConnectBlock`: an empty block is 82 bytes, two of them the sizes of its lists. -/
def vPos (p : Stored) : List (Tx × Nat) :=
  positions (p.nBlockPos + 82 - 2 * compactSize 0 + compactSize p.block.vtx.length) p.block.vtx

def loc (p : Stored) (nTxPos : Nat) : Loc :=
  ⟨UInt32.ofNat p.nFile, UInt32.ofNat p.nBlockPos, UInt32.ofNat nTxPos, Int32.ofNat p.height⟩

end Stored

/-! ## The archive -/

/-- The block files, with the one being written and its size. -/
structure Archive where
  stored : List Stored := []
  nCurrentBlockFile : Nat := 1
  fileEnd : Nat := 0

namespace Archive

/-- `CBlock::WriteToDisk`: behind the message start and the size, in a new file when the current one
has reached its limit. -/
def write (a : Archive) (height : Nat) (block : Block) : Archive :=
  let (file, fileEnd) := if a.fileEnd < 0x7F000000 - 0x02000000 then (a.nCurrentBlockFile, a.fileEnd) else
    (a.nCurrentBlockFile + 1, 0)
  let p : Stored := ⟨file, fileEnd + 8, height, block⟩
  ⟨p :: a.stored, file, p.stop⟩

/-- `CBlock::ReadFromDisk` of a header. -/
def readBlock (a : Archive) (nFile nBlockPos : Nat) : Option Stored :=
  a.stored.find? fun p => p.nFile = nFile ∧ p.nBlockPos = nBlockPos

/-- `CTransaction::ReadFromDisk`. -/
def readTx (a : Archive) (nFile nTxPos : Nat) : Option Tx :=
  a.stored.findSome? fun p =>
    if p.nFile = nFile then (p.vPos.find? fun pos => pos.2 = nTxPos).map Prod.fst else none

def lookup (a : Archive) (h : Hash) : Option Stored := a.stored.find? fun p => p.block.hash = h

end Archive

/-! ## The node -/

/-- The archive, the locator and the active chain, its tip first. -/
structure Node where
  archive : Archive := {}
  locator : Locator
  active : List Stored := []

/-- The ingest loop of `ConnectBlock`. -/
def ingest (p : Stored) : List (Tx × Nat) → LocM Unit
  | [] => return
  | (tx, nTxPos) :: rest => do
    Locator.add tx.txid (p.loc nTxPos)
    ingest p rest

namespace Node
variable (n : Node)

/-- `AcceptBlock`: a new block whose parent is known is stored. The first one is genesis. -/
def accept (b : Block) : Option Node :=
  if b.hash = ByteArr.zero 32 ∨ (n.archive.lookup b.hash).isSome ∨ 2 ^ 32 ≤ n.archive.nCurrentBlockFile + 1 then none
  else if n.archive.stored.isEmpty then
    if b.hashPrev = ByteArr.zero 32 then some { n with archive := n.archive.write 0 b } else none
  else (n.archive.lookup b.hashPrev).map fun parent => { n with archive := n.archive.write (parent.height + 1) b }

/-- `ConnectBlock` of a stored block on the tip. -/
def connect (h : Hash) : Option Node :=
  match n.archive.lookup h with
  | none => none
  | some p =>
    if p.block.hashPrev = (n.active.head?.map fun tip => tip.block.hash).getD (ByteArr.zero 32) then
      match ingest p p.vPos n.locator with
      | .ok _ l => some { n with locator := l, active := p :: n.active }
      | .error _ _ => none
    else none

/-- `DisconnectBlock` of the tip. -/
def disconnect : Option Node :=
  match n.active with
  | [] => none
  | _ :: rest => some { n with active := rest }

/-- The node is stopped and started again. -/
def reopen : Option Node :=
  match Locator.openDir { n.locator.close with mem := none } with
  | .ok _ l => some { n with locator := l }
  | .error _ _ => none

/-- `s16_V2ReadTxIndex`. -/
def readTxIndex (txid : Hash) : Option Loc :=
  match n.locator.get txid with
  | .ok found => found
  | .error _ => none

/-- The height of an active block. -/
def activeHeight (h : Hash) : Option Nat := (n.active.find? fun p => p.block.hash = h).map Stored.height

/-- `CTxIndex::GetDepthInMainChain`, with `nBestHeight` the height of the tip. -/
def getDepthInMainChain (pos : Loc) : Int :=
  match n.archive.readBlock pos.nFile.toNat pos.nBlockPos.toNat with
  | none => 0
  | some p =>
    match n.activeHeight p.block.hash with
    | none => 0
    | some height => 1 + ((n.active.length : Int) - 1) - height

/-- `GetTransaction`: the transaction and, when it was found in a block, the hash of that block. The
pool is asked only with `s`. -/
def getTransaction (mempool : Hash → Option Tx) (s : Bool) (txid : Hash) : Option (Tx × Option Hash) :=
  match (if s then mempool txid else none) with
  | some tx => some (tx, none)
  | none => do
    let pos ← n.readTxIndex txid
    let tx ← n.archive.readTx pos.nFile.toNat pos.nTxPos.toNat
    return (tx, (n.archive.readBlock pos.nFile.toNat pos.nBlockPos.toNat).map fun p => p.block.hash)

end Node

/-! ## Runs -/

/-- What happens to a node. -/
inductive Event where
  | accept (b : Block)
  | connect (h : Hash)
  | disconnect
  | reopen

def Event.run (n : Node) : Event → Option Node
  | .accept b => n.accept b
  | .connect h => n.connect h
  | .disconnect => n.disconnect
  | .reopen => n.reopen

/-- A new node, its locator open over a new directory. -/
def Node.start : Node := { locator := endState Locator.openDir fresh }

/-- The states of a node. A reorganisation is a number of disconnections and connections. -/
inductive Node.Run (can : Node → Event → Prop) : Node → Prop where
  | start : Run can Node.start
  | step {n n' : Node} {e : Event} (before : Run can n) (may : can n e) (ran : e.run n = some n') : Run can n'

/-- Every confirmed transaction is looked up in its active block and has its depth there. A
confirmed transaction has left the pool, if the pool is asked at all. -/
def Node.Answers (n : Node) : Prop :=
  ∀ (k : Nat) (p : Stored), n.active[k]? = some p → ∀ tx ∈ p.block.vtx,
    (∀ mempool s, (s = true → mempool tx.txid = none) → n.getTransaction mempool s tx.txid =
      some (tx, some p.block.hash)) ∧
    ∃ pos, n.readTxIndex tx.txid = some pos ∧ n.getDepthInMainChain pos = k + 1

/-- A block may be connected when the locator knows its transactions at no other position. -/
def Unmoved (n : Node) : Event → Prop
  | .connect h => ∀ p, n.archive.lookup h = some p → ∀ pos ∈ p.vPos, ∀ known,
      n.locator.get pos.1.txid = .ok (some known) → known = p.loc pos.2
  | _ => True

private theorem Node.readTxIndex_iff {n : Node} : n.readTxIndex txid = some known ↔
    n.locator.get txid = .ok (some known) := by
  rw [readTxIndex]
  cases n.locator.get txid <;> simp

instance (n : Node) : (e : Event) → Decidable (Unmoved n e)
  | .connect h =>
    decidable_of_iff (∀ p ∈ n.archive.lookup h, ∀ pos ∈ p.vPos, ∀ known ∈ n.readTxIndex pos.1.txid, known = p.loc pos.2)
      (by simp only [Unmoved, ← Node.readTxIndex_iff, Option.mem_def])
  | .accept _ | .disconnect | .reopen => .isTrue trivial

/-! ## Positions do not overlap -/

namespace Stored
variable {p : Stored}

private theorem positions_bounds (member : pos ∈ positions start vtx) :
    start ≤ pos.2 ∧ pos.2 + pos.1.size ≤ start + (vtx.map Tx.size).sum := by
  induction vtx generalizing start with
  | nil => cases member
  | cons tx rest ih =>
    simp only [List.map_cons, List.sum_cons]
    rcases List.mem_cons.mp member with rfl | later
    · exact ⟨le_rfl, by simp only; omega⟩
    · have := ih later
      omega

private theorem positions_inj (left : a ∈ positions start vtx) (right : b ∈ positions start vtx)
    (same : a.2 = b.2) : a = b := by
  induction vtx generalizing start with
  | nil => cases left
  | cons tx rest ih =>
    have pos := tx.size_pos
    rcases List.mem_cons.mp left with rfl | left <;> rcases List.mem_cons.mp right with rfl | right
    · rfl
    · have := positions_bounds right
      omega
    · have := positions_bounds left
      omega
    · exact ih left right

private theorem positions_txs (start : Nat) (vtx : List Tx) : (positions start vtx).map Prod.fst = vtx := by
  induction vtx generalizing start with
  | nil => rfl
  | cons tx rest ih => simp [positions, ih]

/-- A transaction stands inside its block. -/
theorem vPos_bounds (member : pos ∈ p.vPos) : p.nBlockPos ≤ pos.2 ∧ pos.2 + pos.1.size ≤ p.stop := by
  have bounds := positions_bounds member
  have one : compactSize 0 = 1 := rfl
  simp only [stop, serializeSize]
  omega

private theorem mem_vPos (member : tx ∈ p.block.vtx) : ∃ nTxPos, (tx, nTxPos) ∈ p.vPos := by
  rw [← positions_txs (p.nBlockPos + 82 - 2 * compactSize 0 + compactSize p.block.vtx.length) p.block.vtx] at member
  obtain ⟨⟨tx', nTxPos⟩, inside, rfl⟩ := List.mem_map.mp member
  exact ⟨nTxPos, inside⟩

private theorem vPos_distinct (p : Stored) : (p.vPos.map fun pos => pos.1.txid).Nodup := by
  have same : p.vPos.map (fun pos => pos.1.txid) = p.block.vtx.map Tx.txid := by
    rw [← positions_txs (p.nBlockPos + 82 - 2 * compactSize 0 + compactSize p.block.vtx.length)
      p.block.vtx, List.map_map]
    rfl
  rw [same]
  exact p.block.distinct

private theorem start_lt_stop (p : Stored) : p.nBlockPos < p.stop := by
  simp only [stop, serializeSize]
  omega

end Stored

/-- A block stored after another does not touch it. -/
def Behind (q p : Stored) : Prop := p.nFile < q.nFile ∨ p.nFile = q.nFile ∧ p.stop ≤ q.nBlockPos

/-- The archive files as writing leaves them. -/
structure Archive.Laid (a : Archive) : Prop where
  apart : a.stored.Pairwise Behind
  inside : ∀ p ∈ a.stored, p.nFile < a.nCurrentBlockFile ∨ p.nFile = a.nCurrentBlockFile ∧ p.stop ≤ a.fileEnd
  small : ∀ p ∈ a.stored, p.nFile < 2 ^ 32 ∧ p.stop < 2 ^ 32

namespace Archive
variable {a : Archive}

private theorem Laid.apart_of_ne (laid : a.Laid) (left : p ∈ a.stored) (right : q ∈ a.stored) (differ : p ≠ q) :
    Behind p q ∨ Behind q p := by
  have either : a.stored.Pairwise fun x y => Behind x y ∨ Behind y x := laid.apart.imp Or.inl
  have : Std.Symm fun x y => Behind x y ∨ Behind y x := ⟨fun _ _ => Or.symm⟩
  exact either.forall left right differ

/-- Two stored blocks that share a position of one file are one. -/
theorem Laid.eq_of_overlap (laid : a.Laid) (left : p ∈ a.stored) (right : q ∈ a.stored)
    (file : p.nFile = q.nFile) (x : Nat)
    (inLeft : p.nBlockPos ≤ x ∧ x < p.stop) (inRight : q.nBlockPos ≤ x ∧ x < q.stop) : p = q := by
  by_contra differ
  rcases laid.apart_of_ne left right differ with behind | behind
  · rcases behind with file' | ⟨_, ends⟩ <;> omega
  · rcases behind with file' | ⟨_, ends⟩ <;> omega

private theorem Laid.readBlock (laid : a.Laid) (member : p ∈ a.stored) : a.readBlock p.nFile p.nBlockPos = some p := by
  cases read : a.readBlock p.nFile p.nBlockPos with
  | none => exact absurd (List.find?_eq_none.mp read p member) (by simp)
  | some q =>
    have same : q.nFile = p.nFile ∧ q.nBlockPos = p.nBlockPos := by simpa using List.find?_some read
    have here := p.start_lt_stop
    have there := q.start_lt_stop
    rw [laid.eq_of_overlap (List.mem_of_find?_eq_some read) member same.1 q.nBlockPos ⟨le_rfl, there⟩ (by omega)]

private theorem Laid.readTx (laid : a.Laid) (member : p ∈ a.stored) (inside : (tx, nTxPos) ∈ p.vPos) :
    a.readTx p.nFile nTxPos = some tx := by
  have bounds := Stored.vPos_bounds inside
  have pos := tx.size_pos
  cases read : a.readTx p.nFile nTxPos with
  | none =>
    have missing := List.findSome?_eq_none_iff.mp read p member
    rw [if_pos rfl, Option.map_eq_none_iff, List.find?_eq_none] at missing
    exact absurd (missing _ inside) (by simp)
  | some tx' =>
    obtain ⟨q, inArchive, found⟩ := List.exists_of_findSome?_eq_some read
    by_cases file : q.nFile = p.nFile
    · rw [if_pos file, Option.map_eq_some_iff] at found
      obtain ⟨⟨tx'', nTxPos'⟩, here, rfl⟩ := found
      have same : nTxPos' = nTxPos := by simpa using List.find?_some here
      subst same
      have there := List.mem_of_find?_eq_some here
      have bounds' := Stored.vPos_bounds there
      have pos' := tx''.size_pos
      simp only at bounds bounds'
      obtain rfl : q = p := laid.eq_of_overlap inArchive member file nTxPos' (by omega) (by omega)
      have equal := Stored.positions_inj there inside rfl
      rw [(Prod.mk.inj equal).1]
    · rw [if_neg file] at found
      cases found

/-- A block placed behind everything in its file. -/
theorem Laid.place (laid : a.Laid) {file fileEnd : Nat} (before : ∀ p ∈ a.stored, p.nFile < file ∨
    p.nFile = file ∧ p.stop ≤ fileEnd)
    (files : file < 2 ^ 32) (room : fileEnd < 0x7F000000) (height : Nat) (b : Block) :
    Archive.Laid ⟨⟨file, fileEnd + 8, height, b⟩ :: a.stored, file, Stored.stop ⟨file, fileEnd + 8, height, b⟩⟩ := by
  have size := b.fits
  have stop : Stored.stop ⟨file, fileEnd + 8, height, b⟩ = fileEnd + 8 + serializeSize b.vtx b.sigSize := rfl
  refine ⟨List.pairwise_cons.mpr ⟨fun p member => ?_, laid.apart⟩, fun p member => ?_, fun p member => ?_⟩
  · exact (before p member).imp_right fun inside => ⟨inside.1, Nat.le_add_right_of_le inside.2⟩
  · rcases List.mem_cons.mp member with rfl | earlier
    · exact .inr ⟨rfl, le_rfl⟩
    · exact (before p earlier).imp_right fun inside => ⟨inside.1, by simp only; omega⟩
  · rcases List.mem_cons.mp member with rfl | earlier
    · exact ⟨files, by omega⟩
    · exact laid.small p earlier

/-- Where the next block goes. -/
theorem write_eq (a : Archive) (height : Nat) (b : Block) : ∃ file fileEnd, a.write height b =
        ⟨⟨file, fileEnd + 8, height, b⟩ :: a.stored, file, Stored.stop ⟨file, fileEnd + 8, height, b⟩⟩ ∧
      fileEnd < 0x7F000000 - 0x02000000 ∧
      (file = a.nCurrentBlockFile ∧ fileEnd = a.fileEnd ∨ file = a.nCurrentBlockFile + 1 ∧ fileEnd = 0) := by
  by_cases room : a.fileEnd < 0x7F000000 - 0x02000000
  · exact ⟨a.nCurrentBlockFile, a.fileEnd, by simp only [Archive.write, if_pos room], room, .inl ⟨rfl, rfl⟩⟩
  · exact ⟨a.nCurrentBlockFile + 1, 0, by simp only [Archive.write, if_neg room], by decide, .inr ⟨rfl, rfl⟩⟩

private theorem Laid.write (laid : a.Laid) (files : a.nCurrentBlockFile + 1 < 2 ^ 32) (height : Nat) (b : Block) :
    (a.write height b).Laid := by
  obtain ⟨file, fileEnd, written, room, place⟩ := a.write_eq height b
  rw [written]
  refine laid.place (fun p member => ?_) (by omega) (by omega) height b
  rcases place with ⟨rfl, rfl⟩ | ⟨rfl, rfl⟩
  · exact laid.inside p member
  · rcases laid.inside p member with older | ⟨same, _⟩
    · exact .inl (by omega)
    · exact .inl (by omega)

end Archive

/-! ## The ingest -/

section Ingest
variable {l : Locator} {first : Hash → Option Loc}

/-- The locator is open and answers with `first`. -/
def Holds (l : Locator) (first : Hash → Option Loc) : Prop :=
  l.walOpen = true ∧ ∃ table pending, Kept l first table pending

private theorem Holds.get (holds : Holds l first) (txid : Hash) : l.get txid = .ok (first txid) := by
  obtain ⟨opened, table, pending, kept⟩ := holds
  exact kept.get opened txid

private theorem Holds.agrees (holds : Holds l first) (same : ∀ known, first txid = some known → known = loc) :
    Agrees l txid loc := by
  intro mem held absent known found
  have got := holds.get txid
  simp only [Locator.get, held, absent, found] at got
  exact same known (Except.ok.inj got).symm

private theorem writeMergedTrimWAL_walOpen (opened : l.walOpen = true) :
    Ends writeMergedTrimWAL l (fun _ l' => l'.walOpen = true) (fun _ _ => True) := by
  refine Ends.get ?_
  cases l.mainRecords with
  | error e => trivial
  | ok table =>
    dsimp only
    split
    · trivial
    · exact opened

private theorem add_walOpen (txid : Hash) (loc : Loc) (opened : l.walOpen = true) :
    Ends (Locator.add txid loc) l (fun _ l' => l'.walOpen = true) (fun _ _ => True) := by
  refine Ends.get ?_
  rw [opened]
  cases l.mem with
  | none => trivial
  | some mem =>
    dsimp only
    split
    · exact opened
    · refine (appendWal_spec l _).seqMono ?_ fun _ _ _ => trivial
      rintro _ _ rfl
      split
      · exact writeMergedTrimWAL_walOpen opened
      · exact opened

/-- A transaction taken in with the location it is known at, if it is known. -/
theorem Holds.add (holds : Holds l first) (same : ∀ known, first txid = some known → known = loc) :
    Ends (Locator.add txid loc) l (fun _ l' => Holds l' (Function.update first txid (some loc))) (fun _ _ => True) := by
  have agrees := holds.agrees same
  obtain ⟨opened, table, pending, kept⟩ := holds
  have learned : (Call.add txid loc).record first = Function.update first txid (some loc) := by
    rw [Call.record]
    split
    · next known =>
      obtain ⟨old, found⟩ := Option.isSome_iff_exists.mp known
      rw [← same old found, ← found, Function.update_eq_self]
    · rfl
  refine ((add_spec kept agrees).and (add_walOpen txid loc opened)).mono ?_ fun _ _ _ => trivial
  rintro _ l' ⟨⟨table', pending', kept'⟩, opened'⟩
  rw [learned] at kept'
  exact ⟨opened', table', pending', kept'⟩

/-- The ingest of a block makes its positions known and forgets nothing. -/
theorem ingest_spec (p : Stored) (positions : List (Tx × Nat)) (holds : Holds l first)
    (distinct : (positions.map fun pos => pos.1.txid).Nodup)
    (same : ∀ pos ∈ positions, ∀ known, first pos.1.txid = some known → known = p.loc pos.2) :
    Ends (ingest p positions) l
      (fun _ l' => ∃ first', Holds l' first' ∧ (∀ pos ∈ positions, first' pos.1.txid = some (p.loc pos.2)) ∧
        ∀ txid known, first txid = some known → first' txid = some known) (fun _ _ => True) := by
  induction positions generalizing l first with
  | nil => exact ⟨first, holds, by simp, fun _ _ => id⟩
  | cons pos rest ih =>
    obtain ⟨new, distinct⟩ := List.nodup_cons.mp distinct
    have here := same pos List.mem_cons_self
    refine (holds.add here).seqMono (fun _ l' holds' => ?_) fun _ _ _ => trivial
    have others : ∀ q ∈ rest, q.1.txid ≠ pos.1.txid := fun q member equal =>
      new (List.mem_map.mpr ⟨q, member, equal⟩)
    refine (ih holds' distinct fun q member known found => ?_).mono ?_ fun _ _ _ => trivial
    · rw [Function.update_of_ne (others q member)] at found
      exact same q (List.mem_cons_of_mem _ member) known found
    · rintro _ l'' ⟨first', holds'', learned, keeps⟩
      refine ⟨first', holds'', fun q member => ?_, fun txid known found => ?_⟩
      · rcases List.mem_cons.mp member with rfl | later
        · exact keeps _ _ (Function.update_self ..)
        · exact learned q later
      · apply keeps
        by_cases equal : txid = pos.1.txid
        · subst equal
          rw [Function.update_self, here known found]
        · rw [Function.update_of_ne equal, found]

private theorem openDir_walOpen (l : Locator) : Ends openDir l (fun _ l' => l'.walOpen = true) (fun _ _ => True) := by
  refine Ends.bind ?_
  exact ends_true.seq (fun _ _ _ => rfl)

private theorem opens (kept : Kept l first table pending) : ∃ l', Locator.openDir l = .ok () l' ∧ Holds l' first := by
  obtain ⟨_, l', ran, kept'⟩ := (openDir_spec kept).returns
  exact ⟨l', ran, (openDir_walOpen l).of_ok ran, table, pending, kept'⟩

end Ingest

/-! ## What a run keeps -/

/-- Each block of the list stands on the rest. -/
def Heights : List Stored → Prop
  | [] => True
  | p :: rest => p.height = rest.length ∧ Heights rest

private theorem Heights.getElem? (heights : Heights active) (at_ : active[k]? = some p) :
    k + p.height + 1 = active.length := by
  induction active generalizing k with
  | nil => cases at_
  | cons q rest ih =>
    cases k with
    | zero =>
      cases at_
      simp [heights.1]
    | succ k =>
      have := ih heights.2 at_
      simp only [List.length_cons]
      omega

/-- What every event keeps. -/
structure Node.Sound (n : Node) : Prop where
  laid : n.archive.Laid
  hashes : (n.archive.stored.map fun p => p.block.hash).Nodup
  named : ∀ p ∈ n.archive.stored, p.block.hash ≠ ByteArr.zero 32
  linked : ∀ p ∈ n.archive.stored, (p.height = 0 ∧ p.block.hashPrev = ByteArr.zero 32) ∨
    ∃ q ∈ n.archive.stored, q.block.hash = p.block.hashPrev ∧ p.height = q.height + 1
  active : ∀ p ∈ n.active, p ∈ n.archive.stored
  heights : Heights n.active
  known : ∃ first, Holds n.locator first ∧ ∀ p ∈ n.active, ∀ pos ∈ p.vPos, first pos.1.txid = some (p.loc pos.2)

namespace Node.Sound
variable {n : Node}

private theorem eq_of_hash (sound : n.Sound) (left : p ∈ n.archive.stored) (right : q ∈ n.archive.stored)
    (same : p.block.hash = q.block.hash) : p = q :=
  List.inj_on_of_nodup_map sound.hashes left right same

private theorem start : Node.start.Sound := by
  obtain ⟨l, ran, holds⟩ := opens Kept.fresh
  have opened : Node.start.locator = l := by simp [Node.start, endState, ran]
  exact
    { laid := ⟨List.Pairwise.nil, by simp [Node.start], by simp [Node.start]⟩
      hashes := List.nodup_nil
      named := by simp [Node.start]
      linked := by simp [Node.start]
      active := by simp [Node.start]
      heights := trivial
      known := ⟨_, opened ▸ holds, by simp [Node.start]⟩ }

section
variable (sound : n.Sound)
include sound

/-- A new block changes nothing that is known. -/
theorem store (named : b.hash ≠ ByteArr.zero 32) (new : n.archive.lookup b.hash = none)
    (files : n.archive.nCurrentBlockFile + 1 < 2 ^ 32) (linked : (height = 0 ∧ b.hashPrev = ByteArr.zero 32) ∨
      ∃ q ∈ n.archive.stored, q.block.hash = b.hashPrev ∧ height = q.height + 1) :
    Node.Sound { n with archive := n.archive.write height b } := by
  have laid := sound.laid.write files height b
  have absent : ∀ q ∈ n.archive.stored, q.block.hash ≠ b.hash := by simpa using List.find?_eq_none.mp new
  refine { laid, hashes := ?_, named := ?_, linked := ?_, active := ?_, heights := sound.heights, known := sound.known }
  · refine List.nodup_cons.mpr ⟨fun member => ?_, sound.hashes⟩
    obtain ⟨q, inside, same⟩ := List.mem_map.mp member
    exact absent q inside same
  · exact List.forall_mem_cons.mpr ⟨named, sound.named⟩
  · refine List.forall_mem_cons.mpr ⟨?_, fun p member => ?_⟩
    · exact linked.imp_right fun ⟨q, inside, same⟩ => ⟨q, List.mem_cons_of_mem _ inside, same⟩
    · exact (sound.linked p member).imp_right fun ⟨q, inside, same⟩ => ⟨q, List.mem_cons_of_mem _ inside, same⟩
  · exact fun p member => List.mem_cons_of_mem _ (sound.active p member)

private theorem accept (ran : n.accept b = some n') : n'.Sound := by
  rw [Node.accept] at ran
  split at ran
  · cases ran
  · next fine =>
    simp only [not_or] at fine
    obtain ⟨named, new, files⟩ := fine
    have new : n.archive.lookup b.hash = none := by simpa using new
    split at ran
    · split at ran
      · next root =>
        cases ran
        exact sound.store named new (by omega) (.inl ⟨rfl, root⟩)
      · cases ran
    · obtain ⟨parent, found, rfl⟩ := Option.map_eq_some_iff.mp ran
      have same : parent.block.hash = b.hashPrev := by simpa using List.find?_some found
      exact sound.store named new (by omega) (.inr ⟨parent, List.mem_of_find?_eq_some found, same, rfl⟩)

/-- A block on the tip is one higher. -/
theorem height_next (member : p ∈ n.archive.stored)
    (onTip : p.block.hashPrev = (n.active.head?.map fun tip => tip.block.hash).getD (ByteArr.zero 32)) :
    p.height = n.active.length := by
  cases chain : n.active with
  | nil =>
    rw [chain] at onTip
    rcases sound.linked p member with root | ⟨q, inside, same, _⟩
    · exact root.1
    · exact absurd (same.trans onTip) (sound.named q inside)
  | cons tip rest =>
    rw [chain] at onTip
    have inside : tip ∈ n.archive.stored := sound.active tip (by simp [chain])
    have heights := sound.heights
    rw [chain] at heights
    rcases sound.linked p member with root | ⟨q, inside', same, above⟩
    · exact absurd (onTip.symm.trans root.2) (sound.named tip inside)
    · rw [above, sound.eq_of_hash inside' inside (same.trans onTip), heights.1]
      rfl

private theorem connect (unmoved : Unmoved n (.connect h)) (ran : n.connect h = some n') : n'.Sound := by
  rw [Node.connect] at ran
  cases found : n.archive.lookup h with
  | none => simp [found] at ran
  | some p =>
    rw [found] at ran
    dsimp only at ran
    split at ran
    · next onTip =>
      obtain ⟨first, holds, known⟩ := sound.known
      have member : p ∈ n.archive.stored := List.mem_of_find?_eq_some found
      have same : ∀ pos ∈ p.vPos, ∀ old, first pos.1.txid = some old → old = p.loc pos.2 := fun pos inside old before =>
        unmoved p found pos inside old (by rw [holds.get, before])
      have ingested := ingest_spec p p.vPos holds p.vPos_distinct same
      cases taken : ingest p p.vPos n.locator with
      | error e l => simp [taken] at ran
      | ok u l =>
        rw [taken] at ran
        cases ran
        obtain ⟨first', holds', learned, keeps⟩ := ingested.of_ok taken
        refine { sound with
          active := ?_, heights := ⟨sound.height_next member onTip, sound.heights⟩, known := ⟨first', holds', ?_⟩ }
        · exact List.forall_mem_cons.mpr ⟨member, sound.active⟩
        · exact List.forall_mem_cons.mpr ⟨learned, fun q inside pos here => keeps _ _ (known q inside pos here)⟩
    · cases ran

private theorem disconnect (ran : n.disconnect = some n') : n'.Sound := by
  rw [Node.disconnect] at ran
  cases chain : n.active with
  | nil => simp [chain] at ran
  | cons tip rest =>
    rw [chain] at ran
    cases ran
    obtain ⟨first, holds, known⟩ := sound.known
    have heights := sound.heights
    have active := sound.active
    rw [chain] at heights active known
    exact { sound with
      active := (List.forall_mem_cons.mp active).2
      heights := heights.2
      known := ⟨first, holds, (List.forall_mem_cons.mp known).2⟩ }

private theorem reopen (ran : n.reopen = some n') : n'.Sound := by
  obtain ⟨first, ⟨_, table, pending, kept⟩, known⟩ := sound.known
  obtain ⟨l, opened, holds⟩ := opens kept.restart
  rw [Node.reopen, opened] at ran
  cases ran
  exact { sound with known := ⟨first, holds, known⟩ }

private theorem run (may : Unmoved n e) (ran : e.run n = some n') : n'.Sound := by
  cases e with
  | accept b => exact sound.accept ran
  | connect h => exact sound.connect may ran
  | disconnect => exact sound.disconnect ran
  | reopen => exact sound.reopen ran

private theorem activeHeight (member : p ∈ n.active) : n.activeHeight p.block.hash = some p.height := by
  rw [Node.activeHeight]
  cases found : n.active.find? fun q => q.block.hash = p.block.hash with
  | none => exact absurd (List.find?_eq_none.mp found p member) (by simp)
  | some q =>
    have same : q.block.hash = p.block.hash := by simpa using List.find?_some found
    have inside := sound.active q (List.mem_of_find?_eq_some found)
    rw [sound.eq_of_hash inside (sound.active p member) same]
    rfl

private theorem answers : n.Answers := by
  intro k p here tx confirmed
  obtain ⟨first, holds, known⟩ := sound.known
  have member : p ∈ n.active := List.mem_of_getElem? here
  have stored := sound.active p member
  obtain ⟨nTxPos, inside⟩ := Stored.mem_vPos confirmed
  have bounds := Stored.vPos_bounds inside
  have small := sound.laid.small p stored
  have index : n.readTxIndex tx.txid = some (p.loc nTxPos) := by
    rw [Node.readTxIndex, holds.get, known p member _ inside]
  have file : (p.loc nTxPos).nFile.toNat = p.nFile := UInt32.toNat_ofNat_of_lt' small.1
  have block : (p.loc nTxPos).nBlockPos.toNat = p.nBlockPos :=
    UInt32.toNat_ofNat_of_lt' (by simp only [UInt32.size]; omega)
  have offset : (p.loc nTxPos).nTxPos.toNat = nTxPos := UInt32.toNat_ofNat_of_lt' (by simp only [UInt32.size]; omega)
  have header := sound.laid.readBlock stored
  refine ⟨fun mempool s left => ?_, p.loc nTxPos, index, ?_⟩
  · have pool : (if s then mempool tx.txid else none) = none := by
      split
      · next asked => exact left asked
      · rfl
    rw [Node.getTransaction, pool, index]
    simp only [Option.bind_eq_bind, Option.bind_some]
    rw [file, block, offset, header, sound.laid.readTx stored inside]
    rfl
  · have level := sound.heights.getElem? here
    rw [Node.getDepthInMainChain, file, block, header]
    simp only [sound.activeHeight member]
    omega

end

end Node.Sound

private theorem Node.Run.sound (ran : Node.Run Unmoved n) : n.Sound := by
  induction ran with
  | start => exact .start
  | step _ may ran ih => exact ih.run may ran

namespace Remined

def name (k : UInt8) : Hash := ByteArr.filled 32 k

def paid : Tx := ⟨name 9, 100, by decide⟩

def coinbase (k : UInt8) : Tx := ⟨name k, 60, by decide⟩

def genesis : Block := ⟨name 1, name 0, [coinbase 11], 1, by decide, by decide⟩
def left : Block := ⟨name 2, name 1, [coinbase 12, paid], 1, by decide, by decide⟩
def right : Block := ⟨name 3, name 1, [coinbase 13, paid], 1, by decide, by decide⟩
def next : Block := ⟨name 4, name 3, [coinbase 14], 1, by decide, by decide⟩
def empty : Block := ⟨name 5, name 1, [coinbase 15], 1, by decide, by decide⟩

def mined : List Event := [.accept genesis, .connect (name 1), .accept left, .connect (name 2)]

/-- The chain moves to a branch that pays in another block. -/
def moved : List Event := [.accept right, .accept next, .disconnect, .connect (name 3), .connect (name 4)]

def after (n : Node) (events : List Event) : Node := events.foldl (fun n e => (e.run n).getD n) n

section
variable (can : Node → Event → Prop) [∀ n e, Decidable (can n e)]

variable {can}

end

def reorganised : Node := after (after Node.start mined) moved

end Remined

end Innova.TxLoc
