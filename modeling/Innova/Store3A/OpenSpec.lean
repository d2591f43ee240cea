import Innova.Store3A.OpenStore
import Innova.Store3A.CommitSpec
import Innova.Store3A.TreeRuns

/-! What opening does to the tree: it sets the page count and the root, and nothing
else. The allocator starts with no reusable page, no batch is open, and the root is the
one a manifest names, or an empty leaf. -/
namespace Innova.Store3A
open Lib Lib.PagedTree Chainstate

/-- The page file is within the limit. -/
def Dir.Within (d : Dir) (limit : Nat) : Prop := ∀ f ∈ d.tree, f.count ≤ limit

section
variable [Digest]

/-- The page file as a tree without root. -/
def TreeFile.tree (f : TreeFile) (limit : Nat) : BTree :=
  { BTree.create limit [] with pages := f.pages, nextId := UInt32.ofNat f.count, writes := [] }

/-- Every manifest of the directory names a well-formed tree of its page file. -/
def Dir.Whole (d : Dir) (limit : Nat) : Prop :=
  ∀ bytes m f, (d.manifest = some bytes ∨ d.bak = some bytes) → Manifest.decode bytes = .ok m → d.tree = some f →
    BTree.Standing (f.tree limit) m.root

end

namespace Store
open BTree

/-- Nothing is free for reuse, no batch is open, and the file is the one of the directory. -/
structure Idle (d : Dir) (limit : Nat) (s : Store) : Prop where
  closed : Closed s.tree
  pages : ∀ f ∈ d.tree, s.tree.pages = f.pages ∧ s.tree.writes = []
  freeList : s.tree.freeList = []
  count : s.tree.nextId.toNat ≤ limit
  fileLimit : s.tree.fileLimit = limit
  batchOpen : s.batchOpen = false

variable {d : Dir} {limit : Nat} {s : Store}

/-- The free pages of a tree that is only opened are in order. -/
theorem Idle.alloc (idle : Idle d limit s) (small : limit < 2 ^ 32) : Alloc s.tree := by
  constructor
  · rw [idle.freeList]; exact List.nodup_nil
  · rw [idle.freeList]; simp
  · rw [idle.fileLimit]; exact idle.count
  · rw [idle.fileLimit]; exact small

private theorem Idle.congr (idle : Idle d limit s) (same : core t = core s) : Idle d limit t := by
  simp only [core, Prod.mk.injEq] at same
  obtain ⟨tree, opened, -⟩ := same
  constructor
  · rw [tree]; exact idle.closed
  · rw [tree]; exact idle.pages
  · rw [tree]; exact idle.freeList
  · rw [tree]; exact idle.count
  · rw [tree]; exact idle.fileLimit
  · rw [opened]; exact idle.batchOpen

private theorem Idle.ends {α : Type} {x : StoreM α} (idle : Idle d limit s) (kept : Keeps core x) :
    Ends x s (fun _ t => Idle d limit t) (fun _ t => Idle d limit t) :=
  (kept s).mono (fun _ _ same => idle.congr same) fun _ _ same => idle.congr same

/-- An attempt answers with what was established, or with what its failure left. -/
theorem ends_attempt {α : Type} {Q : α → Store → Prop} {x : StoreM α} (ends : Ends x s Q E) :
    Ends (attempt x) s (fun answer t => match answer with | .ok a => Q a t | .error e => E (.failed e) t) E := by
  unfold Ends attempt at *
  split at ends
  · next ran => rw [ran]; exact ends
  · next stop t ran =>
    rw [ran]
    cases stop with
    | failed e => exact ends
    | crashed => exact ends

/-! ## Loading the undo log -/

section Loading
variable {I : Store → Prop} (blind : Bookkept I)
include blind

private theorem Bookkept.foldl_recentPush (metas : List UndoMeta) (held : I s) :
    I (metas.foldl Store.recentPush s) := by
  induction metas generalizing s with
  | nil => exact held
  | cons m metas ih => exact ih (blind.recentPush held m)

private theorem Bookkept.collectHeaders (limit : UInt64) (bound : Nat) (off : UInt64) (found : List UndoMeta) :
    Preserves I (collectHeaders limit bound off found) := by
  induction bound generalizing off found with
  | zero => exact preserves_fail
  | succ bound ih =>
    unfold Store.collectHeaders
    split
    · split
      · exact preserves_fail
      · exact .bind (blind.csReadRange _ _) fun _ => .bind (preserves_orStop _) fun _ => ih _ _
    · split
      · exact preserves_pure
      · exact preserves_fail

private theorem Bookkept.loadSegment (size : Nat) (g : CommittedSegment) : Preserves I (loadSegment size g) := by
  refine .bind (blind.csReadRange _ _) fun _ => .bind (preserves_orStop _) fun metas => ?_
  split
  · exact preserves_fail
  · exact preserves_update fun _ => blind.foldl_recentPush metas

private theorem Bookkept.loadSegments (size : Nat) (segments : List CommittedSegment) :
    Preserves I (loadSegments size segments) := by
  induction segments with
  | nil => exact preserves_pure
  | cons g segments ih => exact .bind (blind.loadSegment size g) fun _ => ih

private theorem Bookkept.loadUndoForIndexed (undoSize : UInt64) (ix : UndoIndex) :
    Preserves I (loadUndoForIndexed undoSize ix) := by
  refine .bind (preserves_update fun s => blind.books s _ _ _ s.undoCommittedBytes) fun _ =>
    .bind (blind.collectHeaders _ _ _ _) fun tail =>
      .bind (preserves_update fun s => blind.books s s.undoSegments s.undoRecent _ s.undoCommittedBytes) fun _ =>
        .bind (blind.loadSegments _ _) fun _ => preserves_update fun s held => ?_
  have folded := blind.foldl_recentPush tail held
  exact blind.books _ (tail.foldl Store.recentPush s).undoSegments (tail.foldl Store.recentPush s).undoRecent
    (tail.foldl Store.recentPush s).undoRecordCount undoSize folded

omit blind in
private theorem preserves_attempt {α : Type} {x : StoreM α} (kept : Preserves I x) : Preserves I (attempt x) := by
  intro s held
  refine (ends_attempt (kept s held)).imp ?_
  intro answer t held
  cases answer <;> exact held

/-- Loading through the index touches the bookkeeping only. -/
theorem Bookkept.loadFast (undoSize : UInt64) : Preserves I (loadFast undoSize) := by
  refine .bind preserves_get fun s => ?_
  split
  · split
    · refine .bind (preserves_attempt (blind.loadUndoForIndexed _ _)) fun loaded => ?_
      split
      · exact preserves_pure
      · exact preserves_pure
    · exact preserves_pure
  · exact preserves_pure

private theorem Bookkept.scanned (held : I s) (m : UndoMeta) : I (scanned m s) :=
  blind.books s _ _ _ s.undoCommittedBytes held

/-- So does the full scan. -/
theorem Bookkept.scanUndo (undoSize : UInt64) : Preserves I (scanUndo undoSize) :=
  .bind (preserves_update fun s => blind.books s _ _ _ _) fun _ =>
    .bind (blind.walkHeaders (fun m _ held => blind.scanned held m) _ _ _ _) fun _ =>
      preserves_update fun s => blind.books s s.undoSegments s.undoRecent s.undoRecordCount _

private theorem Bookkept.loadUndoFor (m : Manifest) : Preserves I (loadUndoFor m) := by
  refine .bind (preserves_update fun s => blind.books s _ _ _ _) fun _ => ?_
  split
  · exact preserves_pure
  · refine .bind preserves_get fun s => ?_
    split
    · exact preserves_fail
    · refine .bind (blind.loadFast _) fun fast => ?_
      split
      · exact preserves_pure
      · exact blind.scanUndo _

end Loading

private theorem loadUndoFor_keeps (m : Manifest) : Keeps core (loadUndoFor m) :=
  keeps_of_preserves fun c => (core_bookkept c).loadUndoFor m

private theorem classifyAndNormalizeUndoIndex_keeps : Keeps core classifyAndNormalizeUndoIndex := by
  have republish (ix : UndoIndex) : Keeps core (do publishUndoIndex ix; csFsyncDir) :=
    .bind (core_blind.publishUndoIndex ix) fun _ => core_blind.csFsyncDir
  refine .bind keeps_get fun s => .bind (core_blind.syscall _) fun _ => ?_
  dsimp only
  split
  · split
    · exact keeps_pure
    · exact republish _
  · refine .bind (keeps_orStop _) fun onDisk => ?_
    split
    · exact keeps_pure
    · exact republish _

/-! ## The tree file -/

private theorem truncateTail_keeps (f : TreeFile) : Keeps core (truncateTail f) := by
  unfold truncateTail
  split
  · exact .bind (core_blind.syscall _) fun _ => core_blind.syscall _
  · exact keeps_pure

private theorem openTree_spec (within : d.Within limit) (idle : Idle d limit s) :
    Ends (openTree d) s (fun _ t => Idle d limit t ∧ ∃ f, d.tree = some f ∧ t.tree.nextId = UInt32.ofNat f.count)
      (fun _ t => Idle d limit t) := by
  refine Ends.get ?_
  split
  · exact idle
  · next f tree =>
    refine (idle.ends (core_blind.syscall _)).seq ?_
    intro _ s1 idle1
    refine (idle1.ends (truncateTail_keeps f)).seq ?_
    intro _ s2 idle2
    split
    · exact idle2
    · exact ⟨⟨idle2.closed, idle2.pages, rfl, (Nat.mod_le _ _).trans (within f tree), idle2.fileLimit, idle2.batchOpen⟩,
        f, tree, rfl⟩

private theorem publishInitialGeneration_keeps : Keeps core publishInitialGeneration :=
  .bind (core_blind.fsyncTree) fun _ => .bind keeps_get fun _ =>
    .bind (core_blind.csWriteFile _) fun _ => .bind (core_blind.syscall _) fun _ =>
      .bind (keeps_update fun _ => rfl) fun _ => .bind (core_blind.csFsyncDir) fun _ =>
        .bind (core_blind.writeAck _) fun _ => keeps_update fun _ => rfl

private theorem acceptPrimary_keeps (pg : UInt64) : Keeps core (acceptPrimary pg) := by
  refine .bind keeps_get fun s => ?_
  split
  · exact keeps_fail
  · split
    · exact .bind (core_blind.writeAck _) fun _ => keeps_update fun _ => rfl
    · exact keeps_pure

section
variable [Digest]

/-- Idle over a root that stands. -/
def Ready (d : Dir) (limit : Nat) (s : Store) : Prop := Idle d limit s ∧ Standing s.tree s.tree.root

private theorem Ready.congr (ready : Ready d limit s) (same : core t = core s) : Ready d limit t := by
  have tree : t.tree = s.tree := congrArg Prod.fst same
  refine ⟨ready.1.congr same, ?_⟩
  rw [tree]
  exact ready.2

private theorem setRoot_spec (idle : Idle d limit s) (r : PageRef) : Ends (onTree (setRoot r)) s
      (fun _ t => Idle d limit t ∧ t.tree.nextId = s.tree.nextId ∧ t.tree.root = r) (fun _ t => Idle d limit t) := by
  have kept : Keeps id (BTree.read r) := read_keeps r
  have set : Ends (setRoot r) s.tree
      (fun _ t => SameFile s.tree t ∧ overlayView t = overlayView s.tree ∧ t.root = r) (fun _ t => t = s.tree) := by
    refine (kept s.tree).seq ?_
    rintro n t rfl
    exact ends_modifyGet.mpr ⟨⟨rfl, rfl, rfl, rfl, rfl⟩, rfl, rfl⟩
  refine ends_onTree set ?_ ?_
  · rintro _ t ⟨same, view, root⟩
    exact ⟨⟨idle.closed.of_view view, fun f found =>
      ⟨same.pages.trans (idle.pages f found).1, same.writes.trans (idle.pages f found).2⟩,
      same.freeList.trans idle.freeList, same.nextId ▸ idle.count, same.fileLimit.trans idle.fileLimit, idle.batchOpen⟩,
      same.nextId, root⟩
  · rintro _ t rfl
    exact idle

/-- A manifest that loads names the root that stands afterwards. -/
theorem tryLoadManifest_spec (within : d.Within limit) (whole : d.Whole limit)
    (named : d.manifest = some bytes ∨ d.bak = some bytes) (idle : Idle d limit s) :
    Ends (tryLoadManifest d bytes) s (fun _ t => Ready d limit t) (fun _ t => Idle d limit t) := by
  unfold tryLoadManifest
  cases decoded : Manifest.decode bytes with
  | error e => exact idle
  | ok m =>
    refine Ends.bind (ends_pure.mpr ((openTree_spec within idle).seq ?_))
    rintro _ s1 ⟨idle1, f, tree, count⟩
    refine (setRoot_spec idle1 m.root).seq ?_
    rintro _ s2 ⟨idle2, nextId, root⟩
    have same : SameFile (f.tree limit) s2.tree :=
      ⟨(idle2.pages f tree).1, nextId.trans count, idle2.freeList, idle2.fileLimit, (idle2.pages f tree).2⟩
    have ready : Ready d limit s2 := by
      refine ⟨idle2, ?_⟩
      rw [root]
      exact same.standing (whole bytes m f named decoded tree)
    refine (loadUndoFor_keeps m s2).seqMono ?_ fun _ _ same => idle2.congr same
    intro _ s3 same
    exact ends_update_then (ends_pure.mpr (ready.congr same))

/-- An empty leaf in page 0. -/
theorem standing_emptyLeaf {t : BTree} (read : t.disk ⟨0, leafHash []⟩ = some (.leaf [])) (live : ¬Free t 0) :
    Standing t ⟨0, leafHash []⟩ :=
  ⟨0, ⟨[], [⟨0, leafHash []⟩]⟩, ⟨[], read, .nil, by simp, rfl⟩, by simpa using live, by simp⟩

section
variable (within : d.Within limit) (room : 0 < limit) (small : limit < 2 ^ 32)
include within room small

private theorem adoptTree_spec (idle : Idle d limit s) :
    Ends (adoptTree d) s (fun _ t => Ready d limit t) (fun _ _ => True) := by
  unfold adoptTree
  split
  · next absent =>
    refine (idle.ends (core_blind.syscall _)).seqMono ?_ fun _ _ _ => trivial
    intro _ s1 idle1
    have created : Represents (BTree.create limit s1.tree.faults) fun _ => none := create_represents room small
    obtain ⟨-, d', x, rooted, -⟩ := created
    refine ends_update.mpr ⟨⟨⟨rfl, rfl⟩, by simp [absent], rfl, room, idle1.fileLimit, idle1.batchOpen⟩, ?_⟩
    exact rooted.standing
  · next f tree =>
    refine (openTree_spec within idle).seqMono ?_ fun _ _ _ => trivial
    rintro _ s1 ⟨idle1, f', tree', count⟩
    obtain rfl : f = f' := Option.mem_unique tree tree'
    split
    · trivial
    · next single =>
      split
      · next decoded =>
        have one : f.count = 1 := by simpa using single
        have live : ¬Free s1.tree 0 := by
          rintro (member | past)
          · rw [idle1.freeList] at member; cases member
          · rw [count, one] at past; exact absurd past (by decide)
        refine ends_update.mpr
          ⟨⟨idle1.closed, idle1.pages, idle1.freeList, idle1.count, idle1.fileLimit, idle1.batchOpen⟩, ?_⟩
        refine standing_emptyLeaf (t := { s1.tree with
          rootId := 0, rootHash := leafHash [], rootIsLeaf := true, rootCount := some 0 }) ?_ live
        have page : s1.tree.pages 0 = f.pages 0 := by rw [(idle1.pages f tree).1]
        exact disk_of_decoded (t := { s1.tree with
          rootId := 0, rootHash := leafHash [], rootIsLeaf := true, rootCount := some 0 }) live (page ▸ decoded) rfl
      · trivial
      · trivial

private theorem openFresh_spec (idle : Idle d limit s) :
    Ends (openFresh d) s (fun _ t => Ready d limit t) (fun _ _ => True) := by
  refine Ends.get ?_
  split
  · trivial
  · refine ends_update_then ((adoptTree_spec within room small ?_).seq ?_)
    · exact idle.congr rfl
    intro _ s1 ready
    refine ends_update_then ((publishInitialGeneration_keeps _).mono ?_ fun _ _ _ => trivial)
    intro _ s2 same
    exact ready.congr same

omit within room small in
private theorem recoverBackup_spec (within : d.Within limit) (whole : d.Whole limit)
    (idle : Idle d limit s) (why : ChainError) :
    Ends (recoverBackup d why) s (fun _ t => Ready d limit t) (fun _ _ => True) := by
  have backup : Ends (loadBackup d) s (fun _ t => Ready d limit t) (fun _ t => Idle d limit t) := by
    unfold loadBackup
    split
    · next named => exact tryLoadManifest_spec within whole (.inr named) idle
    · exact idle
  refine (ends_attempt backup).seqMono ?_ fun _ _ _ => trivial
  intro loaded s1 held
  split
  · trivial
  · have ready : Ready d limit s1 := held
    refine Ends.get ?_
    split
    · trivial
    · refine ends_update_then ((core_blind.csWriteFile _ _).seqMono ?_ fun _ _ _ => trivial)
      intro _ s2 same
      refine ends_update_then ((core_blind.csFsyncDir _).mono ?_ fun _ _ _ => trivial)
      intro _ s3 later
      exact ready.congr (later.trans same)

private theorem loadDir_spec (whole : d.Whole limit)
    (idle : Idle d limit s) : Ends (loadDir d) s (fun _ t => Ready d limit t) (fun _ _ => True) := by
  unfold loadDir
  split
  · exact openFresh_spec within room small idle
  · next bytes named =>
    refine (ends_attempt (tryLoadManifest_spec within whole (.inl named) idle)).seqMono ?_ fun _ _ _ => trivial
    intro primary s1 held
    refine Ends.seqMono (Q := fun _ t => Ready d limit t) ?_ ?_ fun _ _ => id
    · cases primary with
      | ok m => exact (acceptPrimary_keeps _ s1).mono (fun _ _ same => held.congr same) fun _ _ _ => trivial
      | error why => exact recoverBackup_spec within whole held why
    · intro _ s2 ready
      exact (classifyAndNormalizeUndoIndex_keeps s2).mono (fun _ _ same => ready.congr same) fun _ _ _ => trivial

/-- A store that was just opened is idle over a root that stands. -/
theorem openStore_spec (whole : d.Whole limit)
    (idle : Idle d limit s) : Ends (openStore d) s (fun _ t => Ready d limit t) (fun _ _ => True) := by
  refine Ends.get ?_
  split
  · trivial
  · have ack : Keeps core (readAck d) := by
      unfold readAck
      split
      · exact keeps_update fun _ => rfl
      · exact .bind (keeps_orStop _) fun _ => keeps_update fun _ => rfl
    refine (core_blind.syscall _ s).seqMono ?_ fun _ _ _ => trivial
    intro _ s1 first
    refine (core_blind.syscall _ s1).seqMono ?_ fun _ _ _ => trivial
    intro _ s2 second
    refine (ack s2).seqMono ?_ fun _ _ _ => trivial
    intro _ s3 third
    have idle3 := idle.congr (third.trans (second.trans first))
    refine (loadDir_spec within room small whole idle3).seq ?_
    intro _ s4 ready
    exact ends_update.mpr (ready.congr rfl)

end

end

/-- A store before its first open. -/
theorem unopened_idle (path : String) (d : Dir) (ixSegmentSize : UInt32) (limit : Nat) (faults : List (Option Bytes))
    (script : List Outcome) : Idle d limit (unopened path d ixSegmentSize limit faults script) :=
  ⟨⟨rfl, rfl⟩, fun f found => ⟨by simp_all [unopened], rfl⟩, rfl, Nat.zero_le _, rfl, rfl⟩

end Store
end Innova.Store3A
