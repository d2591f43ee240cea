import Innova.Store3A.OpenSpec

/-! Free-page safety. In every run in which a call meets no batch but one it can work
on, the allocator never offers a page that the current root or the root of the last
acknowledged manifest needs. A publication that fails after its batch was applied
restores the root and leaves the batch marked open; the next one then frees pages that
are in use. -/
namespace Innova.Store3A
open Lib Lib.PagedTree Chainstate

namespace BTree
private theorem mem_sortUnique {ids : List PageId} {id : PageId} : id ∈ sortUnique ids ↔ id ∈ ids := by
  simp [sortUnique]

private theorem free_retireMovedToFree (t : BTree) (id : PageId) : Free t.retireMovedToFree id ↔
    Free t id ∨ id ∈ t.commitRetired := by
  simp only [Free, retireMovedToFree, List.mem_append, mem_sortUnique]
  tauto

/-- Staged pages join the free ones. -/
theorem Alloc.retireMovedToFree (alloc : Alloc t) (staged : Staged t refs) : Alloc t.retireMovedToFree := by
  refine ⟨?_, fun id member => ?_, alloc.reach, alloc.small⟩
  · refine List.nodup_append.mpr ⟨alloc.nodup, List.nodup_dedup _, fun a free b retired same => ?_⟩
    exact (staged b (mem_sortUnique.mp retired)).1 (.inl (same ▸ free))
  · rcases List.mem_append.mp member with free | retired
    · exact alloc.bound id free
    · have used : ¬Free t id := (staged id (mem_sortUnique.mp retired)).1
      exact not_free_lt (t := t) used

section
variable [Digest]

/-- A tree whose staged pages became free still stands on the pages it kept. -/
theorem Rooted.retireMovedToFree (rooted : Rooted t d x) (staged : Staged t x.refs) :
    Rooted t.retireMovedToFree d x := by
  refine ⟨rooted.alloc.retireMovedToFree staged, rooted.holds, fun s member free => ?_, rooted.nodup⟩
  rcases (free_retireMovedToFree t s.id).mp free with early | retired
  · exact rooted.live s member early
  · exact (staged _ retired).2 (mem_ids member)

/-- Setting a root that stands changes the root only. -/
theorem setRoot_standing (plain : Plain t) (standing : Standing t r) : ∃ t', setRoot r t = .ok () t' ∧
    SameFile t t' ∧ overlayView t' = overlayView t ∧ t'.root = r := by
  obtain ⟨d, x, holds, -, -⟩ := standing
  have found : ∃ n, t.disk r = some n := by
    cases d with
    | zero => obtain ⟨es, read, -⟩ := holds; exact ⟨_, read⟩
    | succ d => obtain ⟨rs, ks, xs, read, -⟩ := holds; exact ⟨_, read⟩
  obtain ⟨n, found⟩ := found
  have read : t.readNodeVerified r = .ok n := rd_eq_some.mp (by rw [rd_of_plain plain, found])
  simp only [setRoot, bind, EStateM.bind, BTree.read, read]
  exact ⟨_, rfl, ⟨rfl, rfl, rfl, rfl, rfl⟩, rfl, rfl⟩

/-- No page under a standing root is free. -/
theorem Standing.not_free (standing : Standing t r) (reaches : Reaches t.disk r s) : ¬Free t s.id := by
  obtain ⟨d, x, holds, live, -⟩ := standing
  exact live s (holds.reaches_iff.mp reaches)

end
end BTree

namespace Store
open BTree

theorem pushBatch_eq (off : UInt64) (batch : List BatchBlock) (s : Store) :
    (pushBatch off batch s).tree = s.tree ∧ (pushBatch off batch s).files = s.files := by
  induction batch generalizing off s with
  | nil => exact ⟨rfl, rfl⟩
  | cons b batch ih => exact ih _ _

section
variable [Digest]

/-! ## The invariant -/

/-- The pages of the current and of the last acknowledged root are in use. While a batch
is marked open, so are those of the root it started from. -/
structure Sound (s : Store) (acked : PageRef) : Prop where
  alloc : Alloc s.tree
  acked : Standing s.tree acked
  old : s.batchOpen = true → Standing s.tree s.batchOldRoot
  closed : s.tree.overlayOn = false → Closed s.tree ∧ Standing s.tree s.tree.root
  batch : s.tree.overlayOn = true → s.batchOpen = true ∧ ∃ d x, Overlaid s.tree d x ∧ Staged s.tree x.refs

variable {s : Store} {acked old : PageRef}

private theorem Sound.congr (sound : Sound s acked) (same : core s' = core s) : Sound s' acked := by
  simp only [core, Prod.mk.injEq] at same
  obtain ⟨tree, opened, root⟩ := same
  constructor
  · rw [tree]; exact sound.alloc
  · rw [tree]; exact sound.acked
  · rw [tree, opened, root]; exact sound.old
  · rw [tree]; exact sound.closed
  · rw [tree, opened]; exact sound.batch

/-- With no overlay on, soundness is about the tree alone. -/
theorem sound_of_closed (alloc : Alloc s.tree) (closed : Closed s.tree) (current : Standing s.tree s.tree.root)
    (before : Standing s.tree acked) (old : s.batchOpen = true → Standing s.tree s.batchOldRoot) : Sound s acked :=
  ⟨alloc, before, old, fun _ => ⟨closed, current⟩, fun on => by rw [closed.2] at on; cases on⟩

private theorem restoreRoot_batchOpen (old : PageRef) (s : Store) : (restoreRoot old s).batchOpen = s.batchOpen := by
  unfold restoreRoot
  split <;> rfl

/-- Putting a standing root back. -/
theorem restoreRoot_standing (closed : Closed s.tree) (standing : Standing s.tree old) :
    ∃ t, restoreRoot old s = { s with tree := t } ∧ SameFile s.tree t ∧ Closed t ∧ t.root = old := by
  obtain ⟨t, ran, same, view, root⟩ := setRoot_standing closed.plain standing
  exact ⟨t, by simp only [restoreRoot, ran], same, closed.of_view view, root⟩

private theorem sound_restoreRoot (alloc : Alloc s.tree) (closed : Closed s.tree) (standing : Standing s.tree old)
    (before : Standing s.tree acked) (start : s.batchOpen = true → Standing s.tree s.batchOldRoot) :
    Sound (restoreRoot old s) acked := by
  obtain ⟨t, restored, same, closed', root⟩ := restoreRoot_standing closed standing
  rw [restored]
  refine sound_of_closed (same.alloc alloc) closed' ?_ (same.standing before) fun opened => same.standing (start opened)
  rw [root]
  exact same.standing standing

/-- A call that acknowledged a generation. -/
def Acknowledged (s : Store) : Prop := ∃ r, manifestRoot s = some r ∧ Sound s r

private theorem acknowledged_of_manifest {m : Manifest} (current : m.formatVersion = 2)
    (named : manifestNow s = some m.encode) (sound : Sound s m.root) : Acknowledged s := by
  refine ⟨m.root, ?_, sound⟩
  have named : s.files.manifest.cur = some m.encode := named
  simp [manifestRoot, named, m.decode_encode current, Except.toOption]

/-! ## Committing -/

/-- What a commit starts from: a finished tree whose retired pages are staged, and the
root to go back to. -/
structure Committing (s : Store) (old acked : PageRef) : Prop where
  closed : Closed s.tree
  rooted : ∃ d x, Rooted s.tree d x ∧ Staged s.tree x.refs
  old : Standing s.tree old
  acked : Standing s.tree acked
  start : s.batchOpen = true → Standing s.tree s.batchOldRoot

section
variable (committing : Committing s old acked)
include committing

private theorem Committing.congr (same : core s' = core s) : Committing s' old acked := by
  simp only [core, Prod.mk.injEq] at same
  obtain ⟨tree, opened, root⟩ := same
  constructor
  · rw [tree]; exact committing.closed
  · rw [tree]; exact committing.rooted
  · rw [tree]; exact committing.old
  · rw [tree]; exact committing.acked
  · rw [tree, opened, root]; exact committing.start

private theorem Committing.sound : Sound s acked := by
  obtain ⟨d, x, rooted, -⟩ := committing.rooted
  exact sound_of_closed rooted.alloc committing.closed rooted.standing committing.acked committing.start

/-- The failure branch of a commit leaves either root standing. -/
theorem Committing.rollback : Sound (rollback old s) acked := by
  obtain ⟨d, x, rooted, -⟩ := committing.rooted
  have restored : Sound (restoreRoot old s) acked :=
    sound_restoreRoot rooted.alloc committing.closed committing.old committing.acked committing.start
  unfold Store.rollback
  split
  · exact committing.sound.congr rfl
  · dsimp only
    split
    · exact restored.congr rfl
    · exact restored

private theorem Committing.abortOverlay :
    Committing (onTreeState BTree.abortOverlay s) old acked := by
  have same : SameFile s.tree s.tree.abortOverlay := ⟨rfl, rfl, rfl, rfl, rfl⟩
  obtain ⟨d, x, rooted, staged⟩ := committing.rooted
  exact ⟨⟨rfl, rfl⟩, ⟨d, x, ⟨same.alloc rooted.alloc, rooted.holds, rooted.live, rooted.nodup⟩, staged⟩,
    same.standing committing.old, same.standing committing.acked, fun opened => same.standing (committing.start opened)⟩

/-- Sealing a generation frees the staged pages, or leaves everything in use. -/
theorem Committing.sealGeneration (current : m.formatVersion = 2)
    (root : m.root = s.tree.root) (cleaned : ∀ t, Committing t old acked → Sound (cleanup t) acked)
    (finished : ∀ t, core t = core s →
      (finish t).tree = t.tree.retireMovedToFree ∧ (finish t).batchOpen = false ∧
        manifestNow (finish t) = manifestNow t) :
    Ends (do sealGeneration m off raw recEnds cleanup; update finish) s (fun _ s' => Acknowledged s')
      (fun _ s' => Sound s' acked) := by
  refine Ends.bind (ends_sealGeneration ?_ ?_ ?_ ?_)
  · intro t same named
    have tree : t.tree = s.tree := congrArg Prod.fst (core_congr same)
    obtain ⟨freed, ended, still⟩ := finished t (core_congr same)
    obtain ⟨d, x, rooted, staged⟩ := committing.rooted
    have freely := rooted.retireMovedToFree staged
    refine ends_update.mpr (acknowledged_of_manifest current (still.trans named) ?_)
    rw [root]
    apply sound_of_closed
    · rw [freed, tree]; exact freely.alloc
    · rw [freed, tree]; exact committing.closed
    · rw [freed, tree]; exact freely.standing
    · rw [freed, tree]; exact freely.standing
    · rw [ended]; exact nofun
  · intro e t same
    exact cleaned t (committing.congr (core_congr same))
  · intro e t why same
    exact (committing.sound.congr (core_congr same)).congr rfl
  · intro t same
    exact committing.sound.congr (core_congr same)

end

section
variable (sound : Sound s acked) (idle : s.batchOpen = false)
include sound idle

/-- What the single-block calls start from. -/
theorem Sound.rooted :
    Closed s.tree ∧ ∃ d x, Rooted s.tree.clearRetired d x := by
  have off : s.tree.overlayOn = false := by
    cases on : s.tree.overlayOn with
    | false => rfl
    | true => rw [(sound.batch on).1] at idle; cases idle
  have same : SameFile s.tree s.tree.clearRetired := ⟨rfl, rfl, rfl, rfl, rfl⟩
  obtain ⟨closed, standing⟩ := sound.closed off
  exact ⟨closed, Standing.rooted (t := s.tree.clearRetired) standing (same.alloc sound.alloc)⟩

private theorem Sound.clearRetired :
    Sound (onTreeState BTree.clearRetired s) acked := by
  obtain ⟨closed, d, x, rooted⟩ := sound.rooted idle
  exact sound_of_closed (s := onTreeState BTree.clearRetired s) rooted.alloc closed rooted.standing sound.acked
    (by rw [show (onTreeState BTree.clearRetired s).batchOpen = false from idle]; exact nofun)

/-- The operations of a single-block call. -/
theorem applyPlainAll_sound (same : core t = core (onTreeState BTree.clearRetired s)) (ops : List (Key × Option Coin)) :
    Ends (onFailure (onTree (applyPlainAll ops)) (restoreRoot t.tree.root)) t
      (fun _ t' => Committing t' t.tree.root acked ∧ t'.batchOpen = false) (fun _ t' => Sound t' acked) := by
  have tree : t.tree = s.tree.clearRetired := congrArg Prod.fst same
  have still : t.batchOpen = false := (congrArg (fun c => c.2.1) same).trans idle
  obtain ⟨closed, d, x, rooted⟩ := sound.rooted idle
  rw [← tree] at rooted
  have closed : Closed t.tree := by rw [tree]; exact closed
  have before : Standing t.tree acked := by rw [tree]; exact sound.acked
  have staged : Staged t.tree x.refs := by rw [tree]; exact staged_clearRetired _ _
  refine ends_onTree_onFailure (applyPlainAll_spec rooted closed.plain ops) ?_ ?_
  · rintro _ t' ⟨view, d', x', rooted', moved⟩
    refine ⟨⟨closed.of_view view, ⟨d', x', rooted', moved.staged staged⟩, moved.grows.standing rooted.standing,
      moved.grows.standing before, fun opened => ?_⟩, still⟩
    exact absurd (still.symm.trans opened) (by decide)
  · rintro _ t' ⟨view, grows⟩
    refine sound_restoreRoot (s := { t with tree := t' }) grows.alloc (closed.of_view view)
      (grows.standing rooted.standing)
      (grows.standing before) fun opened => ?_
    exact absurd (still.symm.trans opened) (by decide)

/-! ## The calls -/

private theorem publish_sound (d : Delta) (blockHash : Hash) (height : Int32) :
    Ends (publish d blockHash height) s (fun _ s' => Acknowledged s') (fun _ s' => Sound s' acked) := by
  refine Ends.bind (ends_guardOpen ?_ fun _ => sound)
  refine (applyPlainAll_sound sound idle rfl (afters d)).seq ?_
  rintro _ t ⟨committing, idle'⟩
  refine Ends.get (committing.sealGeneration rfl rfl (fun _ => Committing.rollback) ?_)
  intro t' same
  exact ⟨rfl, (congrArg (fun c => c.2.1) same).trans idle', rfl⟩

private theorem revert_sound (same : core t = core (onTreeState BTree.clearRetired s))
    (record : UndoRecord) (last : UndoMeta)
    (parentTipHash : Hash) : Ends (revert record last parentTipHash) t (fun _ s' => Acknowledged s')
    (fun _ s' => Sound s' acked) := by
  refine Ends.get ((applyPlainAll_sound sound idle same (befores record.ops)).seq ?_)
  rintro _ t ⟨committing, idle'⟩
  refine Ends.get (committing.sealGeneration rfl rfl (fun _ => Committing.rollback) ?_)
  intro t' same
  exact ⟨rfl, (congrArg (fun c => c.2.1) same).trans idle', rfl⟩

private theorem disconnect_sound (blockHash parentTipHash : Hash) :
    Ends (disconnect blockHash parentTipHash) s (fun _ s' => Acknowledged s') (fun _ s' => Sound s' acked) := by
  have cleared := sound.clearRetired idle
  refine Ends.bind (ends_guardOpen ?_ fun _ => sound)
  refine ends_update_then ((lastRecord_keeps_core _).seqMono ?_ fun _ _ => cleared.congr)
  intro last t same
  split
  · exact cleared.congr same
  · refine (core_blind.csReadRange _ _ t).seqMono ?_ fun _ _ later => cleared.congr (later.trans same)
    intro body t' later
    have parsed : Keeps core (orStop (UndoRecord.decode body body.length 0)) := keeps_orStop _
    refine (parsed t').seqMono ?_ fun _ _ last => cleared.congr (last.trans (later.trans same))
    rintro ⟨record, stop⟩ t'' last
    exact revert_sound sound idle (last.trans (later.trans same)) record _ parentTipHash

end

/-- The durable part of a batch whose tree is finalized. -/
theorem commitBatch_sound (committing : Committing s old acked) (batch : List BatchBlock) (last : BatchBlock) :
    Ends (commitBatch batch last old) s (fun _ s' => Acknowledged s') (fun _ s' => Sound s' acked) := by
  refine Ends.get (committing.sealGeneration rfl rfl ?_ fun t _ => ?_)
  · intro t committing
    exact committing.abortOverlay.rollback
  · obtain ⟨tree, files⟩ := pushBatch_eq s.undoCommittedBytes batch t
    exact ⟨congrArg retireMovedToFree tree, rfl, congrArg (fun f => f.manifest.cur) files⟩

/-! ## Batches -/

/-- What a batch in progress works on. -/
structure Batching (s : Store) (old acked : PageRef) : Prop where
  overlaid : ∃ d x, Overlaid s.tree d x ∧ Staged s.tree x.refs
  old : Standing s.tree old
  acked : Standing s.tree acked
  start : s.batchOpen = true → Standing s.tree s.batchOldRoot

/-- A batch opened on an idle store. -/
theorem Sound.batching (sound : Sound s acked) (idle : s.batchOpen = false)
    (tree : t.tree = s.tree.clearRetired.beginOverlay) (start : t.batchOpen = true → t.batchOldRoot = s.tree.root) :
    Batching t s.tree.root acked := by
  obtain ⟨closed, d, x, rooted⟩ := sound.rooted idle
  have same : SameFile s.tree t.tree := by rw [tree]; exact ⟨rfl, rfl, rfl, rfl, rfl⟩
  have standing : Standing t.tree s.tree.root := same.standing rooted.standing
  refine ⟨⟨d, x, ?_, ?_⟩, standing, same.standing sound.acked, fun opened => start opened ▸ standing⟩
  · rw [tree]; exact rooted.beginOverlay.overlaid closed.1 rfl
  · rw [tree]; exact staged_clearRetired _ _

/-- The batch that is open. -/
theorem Sound.ongoing (sound : Sound s acked) (on : s.tree.overlayOn = true) : Batching s s.batchOldRoot acked := by
  obtain ⟨opened, overlaid⟩ := sound.batch on
  exact ⟨overlaid, sound.old opened, sound.acked, sound.old⟩

private theorem Batching.sound (batching : Batching s old acked) (opened : s.batchOpen = true) : Sound s acked := by
  obtain ⟨d, x, overlaid, staged⟩ := batching.overlaid
  refine ⟨overlaid.alloc, batching.acked, batching.start, fun off => ?_, fun _ => ⟨opened, d, x, overlaid, staged⟩⟩
  rw [overlaid.pending.on] at off
  cases off

/-- Applying operations to a batch keeps it going; a failure drops it and restores the root. -/
theorem Batching.applyOps (batching : Batching s old acked) (ops : List (Key × Option Coin))
    (cleaned : ∀ t, t.batchOpen = s.batchOpen → t.batchOldRoot = s.batchOldRoot →
      (cleanup t).tree = (restoreRoot old (onTreeState abortOverlay t)).tree ∧ (cleanup t).batchOpen = false) :
    Ends (onFailure (onTree (Store.applyOps ops)) cleanup) s
      (fun _ t => t.batchOpen = s.batchOpen ∧ Batching t old acked) (fun _ t => Sound t acked) := by
  obtain ⟨d, x, overlaid, staged⟩ := batching.overlaid
  refine ends_onTree_onFailure (applyOps_spec overlaid ops) ?_ ?_
  · rintro _ t ⟨d', x', overlaid', moved⟩
    exact ⟨rfl, ⟨d', x', overlaid', moved.staged staged⟩, moved.grows.standing batching.old,
      moved.grows.standing batching.acked, fun opened => moved.grows.standing (batching.start opened)⟩
  · intro _ t grows
    have same : SameFile t t.abortOverlay := ⟨rfl, rfl, rfl, rfl, rfl⟩
    obtain ⟨t', restored, file, closed, root⟩ :=
      restoreRoot_standing (s := onTreeState abortOverlay { s with tree := t })
      ⟨rfl, rfl⟩ (same.standing (grows.standing batching.old))
    obtain ⟨tree, ended⟩ := cleaned { s with tree := t } rfl rfl
    have tree : (cleanup { s with tree := t }).tree = t' := tree.trans (congrArg Store.tree restored)
    have standing {r : PageRef} (standing : Standing s.tree r) : Standing t' r :=
      file.standing (same.standing (grows.standing standing))
    apply sound_of_closed
    · rw [tree]; exact file.alloc (same.alloc grows.alloc)
    · rw [tree]; exact closed
    · rw [tree, root]; exact standing batching.old
    · rw [tree]; exact standing batching.acked
    · rw [ended]; exact nofun

/-- Finalizing a batch and committing it. -/
theorem Batching.commit (batching : Batching s old acked) (batch : List BatchBlock) (last : BatchBlock)
    (cleaned : ∀ t, t.batchOpen = s.batchOpen → (cleanup t).tree = t.tree.abortOverlay ∧
    (cleanup t).batchOpen = false) :
    Ends (do finalizeActive cleanup; commitBatch batch last old) s (fun _ s' => Acknowledged s')
      (fun _ s' => Sound s' acked) := by
  obtain ⟨d, x, overlaid, staged⟩ := batching.overlaid
  refine Ends.bind (Ends.get ?_)
  rw [if_pos overlaid.pending.on]
  refine ends_onTree_onFailure (finalizeOverlay_spec overlaid) ?_ ?_
  · rintro _ t ⟨closed, d', x', ret, rooted, entries, reworked⟩
    have committing : Committing { s with tree := t } old acked :=
      ⟨closed, ⟨d', x', rooted, reworked.staged overlaid.live staged⟩, reworked.grows.standing batching.old,
        reworked.grows.standing batching.acked, fun opened => reworked.grows.standing (batching.start opened)⟩
    exact commitBatch_sound committing batch last
  · rintro _ t ⟨closed, root, grows, -⟩
    have same : SameFile t t.abortOverlay := ⟨rfl, rfl, rfl, rfl, rfl⟩
    obtain ⟨tree, ended⟩ := cleaned { s with tree := t } rfl
    have standing := grows.standing overlaid.standing
    apply sound_of_closed
    · rw [tree]; exact same.alloc grows.alloc
    · rw [tree]; exact ⟨rfl, rfl⟩
    · rw [tree]; exact same.standing (root ▸ standing)
    · rw [tree]; exact same.standing (grows.standing batching.acked)
    · rw [ended]; exact nofun

section
variable (sound : Sound s acked) (ready : s.batchOpen = true → s.tree.overlayOn = true)
include sound ready

private theorem applyBatchBlock_sound (d : Delta) :
    Ends (applyBatchBlock d) s (fun _ s' => Sound s' acked) (fun _ s' => Sound s' acked) := by
  refine Ends.bind (ends_guardOpen (ends_update_then ?_) fun _ => sound)
  -- either way a batch is in progress over the root it started from
  have begun (t : Store) (opened : t.batchOpen = true) (batching : Batching t t.batchOldRoot acked) :
      Ends (onFailure (onTree (applyOps (afters d))) fun s =>
        { restoreRoot s.batchOldRoot (onTreeState abortOverlay s) with batchOpen := false }) t
        (fun _ s' => Sound s' acked) (fun _ s' => Sound s' acked) := by
    refine (batching.applyOps (afters d) ?_).imp ?_
    · intro t' _ root
      exact ⟨by rw [root], rfl⟩
    · rintro _ t' ⟨still, batching'⟩
      exact batching'.sound (still.trans opened)
  split
  · next opened => exact begun s opened (sound.ongoing (ready opened))
  · next idle => exact begun _ rfl (sound.batching (by simpa using idle) rfl fun _ => rfl)

private theorem publishBatch_sound (batch : List BatchBlock) :
    Ends (publishBatch batch) s (fun _ s' => if batch = [] then Sound s' acked else Acknowledged s')
      (fun _ s' => Sound s' acked) := by
  refine Ends.bind (ends_guardOpen ?_ fun _ => sound)
  split
  · next empty =>
    rw [List.getLast?_eq_none_iff] at empty
    exact ends_pure.mpr (by rw [if_pos empty]; exact sound)
  · next last found =>
    have some : batch ≠ [] := by rintro rfl; cases found
    refine Ends.get ?_
    split
    · next opened => exact (sound.ongoing (ready opened)).commit batch last fun _ _ => ⟨rfl, rfl⟩
    · next idle =>
      have idle : s.batchOpen = false := by simpa using idle
      have batching : Batching (onTreeState (fun t => t.clearRetired.beginOverlay) s) s.tree.root acked :=
        sound.batching idle rfl fun opened => absurd (idle.symm.trans opened) (by decide)
      refine ends_update_then ((batching.applyOps _ ?_).seq ?_)
      · intro t still _
        exact ⟨rfl, (restoreRoot_batchOpen _ _).trans (still.trans idle)⟩
      · rintro _ t ⟨still, batching'⟩
        exact batching'.commit batch last fun t' still' => ⟨rfl, still'.trans (still.trans idle)⟩

end

/-! ## Runs -/

/-- A call meets no open batch but one whose overlay is still on. -/
def Admits (s : Store) : Call → Prop
  | .publish .. | .disconnect .. => s.batchOpen = false
  | .applyBatchBlock _ | .publishBatch _ => s.batchOpen = true → s.tree.overlayOn = true

private theorem Call.run_sound (sound : Sound s acked) (c : Call) (may : Admits s c) :
    Ends c.run s (fun _ s' => if c.acknowledges then Acknowledged s' else Sound s' acked)
      (fun _ s' => Sound s' acked) := by
  cases c with
  | publish d blockHash height => exact publish_sound sound may d blockHash height
  | applyBatchBlock d => exact applyBatchBlock_sound sound may d
  | publishBatch batch =>
    refine (publishBatch_sound sound may batch).imp ?_
    intro _ s' held
    cases batch with
    | nil => exact held
    | cons b rest => exact held
  | disconnect blockHash parentTipHash => exact disconnect_sound sound may blockHash parentTipHash

variable {d : Dir} {limit : Nat}

private theorem Opened.sound (opened : Opened d limit s) (room : 0 < limit) (small : limit < 2 ^ 32)
    (within : d.Within limit) (whole : d.Whole limit) : Sound s s.tree.root := by
  obtain ⟨path, ixSegmentSize, faults, script, ran⟩ := opened
  have idle := unopened_idle path d ixSegmentSize limit faults script
  obtain ⟨idle', standing⟩ := (openStore_spec within room small whole idle).of_ok ran
  refine sound_of_closed (idle'.alloc small) idle'.closed standing standing ?_
  rw [idle'.batchOpen]
  exact nofun

/-- Over a whole run: what one call keeps, all of them keep. -/
theorem Run.sound (ran : Run Admits d limit s acked) (room : 0 < limit) (small : limit < 2 ^ 32)
    (within : d.Within limit) (whole : d.Whole limit) : Sound s acked := by
  induction ran with
  | opened opened => exact opened.sound room small within whole
  | @acknowledged s s' acked acked' c before may ran acks named ih =>
    have held := (Call.run_sound ih c may).of_ok ran
    rw [if_pos acks] at held
    obtain ⟨r, found, sound⟩ := held
    rw [named] at found
    obtain rfl := Option.some.inj found
    exact sound
  | @unacknowledged s s' acked c before may ran acks ih =>
    have held := (Call.run_sound ih c may).of_ok ran
    rwa [if_neg (by rw [acks]; decide)] at held
  | @failed s s' acked c e before may ran ih => exact (Call.run_sound ih c may).of_error ran

/-- No page on offer, from the free list or past the end of the file, is reached from the
current root or from the last acknowledged one; and the free list holds no page twice. -/
def FreePagesUnused (s : Store) (acked : PageRef) : Prop :=
  s.tree.freeList.Nodup ∧ ∀ id, Free s.tree id →
    (∀ r, Reaches s.tree.rd s.tree.root r → r.id ≠ id) ∧ ∀ r, Reaches s.tree.disk acked r → r.id ≠ id

private theorem Sound.unused (sound : Sound s acked) : FreePagesUnused s acked := by
  refine ⟨sound.alloc.nodup, fun id free => ⟨?_, ?_⟩⟩
  · rintro r reaches rfl
    cases on : s.tree.overlayOn with
    | true =>
      obtain ⟨-, d, x, overlaid, -⟩ := sound.batch on
      exact overlaid.live r (overlaid.edited.holds.reaches_iff.mp reaches) free
    | false =>
      obtain ⟨closed, standing⟩ := sound.closed on
      rw [rd_of_plain closed.plain] at reaches
      exact standing.not_free reaches free
  · rintro r reaches rfl
    exact sound.acked.not_free reaches free

private theorem not_unused_of_offered (offered : s.tree.rootId ∈ s.tree.freeList) :
    ¬FreePagesUnused s acked := fun unused =>
  (unused.2 s.tree.rootId (.inl offered)).1 s.tree.root (.here _) rfl

/-- Free-page safety over every run whose calls meet only batches they can work on. -/
theorem free_pages_unused (ran : Run Admits d limit s acked) (room : 0 < limit) (small : limit < 2 ^ 32)
    (within : d.Within limit) (whole : d.Whole limit) : FreePagesUnused s acked :=
  (ran.sound room small within whole).unused

end

/-! ## A batch that outlives its failure -/

/-- Whether a call returns false. -/
def fails (x : StoreM Unit) (s : Store) : Bool :=
  match x s with
  | .error (.failed _) _ => true
  | _ => false

theorem run_of_fails (failed : fails x s = true) : ∃ e, x s = .error (.failed e) (endState x s) := by
  unfold fails at failed
  unfold endState
  split at failed
  · next e t ran => exact ⟨e, by rw [ran]⟩
  · cases failed

/-- A directory in which no store was ever opened. -/
def emptyDir : Dir := ⟨none, none, none, none, none, none⟩

private theorem emptyDir_within (limit : Nat) : emptyDir.Within limit := by
  intro f found
  cases found

private theorem emptyDir_whole [Digest] (limit : Nat) : emptyDir.Whole limit := by
  intro bytes m f named decoded tree
  cases tree

/-- One coin made by the first output of the transaction with hash zero. -/
def coinOp : Op := ⟨⟨ByteArr.zero 32, 0⟩, none, some ⟨1, [], 0, 0, false, false⟩⟩

def coinBlock : BatchBlock := ⟨[coinOp], ByteArr.zero 32, 0⟩

/-- A new store with these outcomes of its system calls; `open` makes 18 of them. -/
def newStore (script : List Outcome) : Store :=
  endState (@openStore sha256Digest emptyDir) (unopened "store" emptyDir 0 16 [] script)

private theorem newStore_opened {script : List Outcome}
    (done : succeeds (@openStore sha256Digest emptyDir) (unopened "store" emptyDir 0 16 [] script) = true) :
    @Opened sha256Digest emptyDir 16 (newStore script) :=
  ⟨"store", 0, [], script, run_of_succeeds done⟩

/-- A new store with a block published. -/
def publishedStore : Store := endState (@publish sha256Digest [coinOp] (ByteArr.zero 32) 0) (newStore [])

/-- A published block satisfies the premises. -/
theorem free_pages_unused_published : ∃ acked, @Run sha256Digest Admits emptyDir 16 publishedStore acked ∧
    publishedStore.generation = 1 ∧ @FreePagesUnused sha256Digest publishedStore acked := by
  let := sha256Digest
  have opened : Opened emptyDir 16 (newStore []) := newStore_opened (by decide +kernel)
  have idle : (newStore []).batchOpen = false := by decide +kernel
  have published : publish [coinOp] (ByteArr.zero 32) 0 (newStore []) = .ok () publishedStore :=
    run_of_succeeds (by decide +kernel)
  obtain ⟨r, named⟩ := Option.isSome_iff_exists.mp (show publishedStore.manifestRoot.isSome = true by decide +kernel)
  have ran : Run Admits emptyDir 16 publishedStore r :=
    (Run.opened opened).acknowledged (c := .publish [coinOp] (ByteArr.zero 32) 0) idle published rfl named
  exact ⟨r, ran, by decide +kernel,
    free_pages_unused ran (by decide) (by decide) (emptyDir_within 16) (emptyDir_whole 16)⟩

/-- A batch of one block is applied, its publication fails at the first system call, the
fsync of the tree, and is tried again. -/
def failingStore : Store := newStore (List.replicate 18 .done ++ [.fails []])
def appliedStore : Store := endState (@applyBatchBlock sha256Digest [coinOp]) failingStore
def failedStore : Store := endState (@publishBatch sha256Digest [coinBlock]) appliedStore
def retriedStore : Store := endState (@publishBatch sha256Digest [coinBlock]) failedStore

private theorem failedStore_run : @applyBatchBlock sha256Digest [coinOp] failingStore = .ok () appliedStore ∧
    ∃ e, @publishBatch sha256Digest [coinBlock] appliedStore = .error (.failed e) failedStore :=
  ⟨run_of_succeeds (by decide +kernel), run_of_fails (by decide +kernel)⟩

private theorem retriedStore_run : ∃ acked, @Run sha256Digest (fun _ _ => True) emptyDir 16 retriedStore acked := by
  let := sha256Digest
  have opened : Opened emptyDir 16 failingStore := newStore_opened (by decide +kernel)
  obtain ⟨applied, e, failed⟩ := failedStore_run
  have retried : publishBatch [coinBlock] failedStore = .ok () retriedStore := run_of_succeeds (by decide +kernel)
  obtain ⟨r, named⟩ := Option.isSome_iff_exists.mp (show retriedStore.manifestRoot.isSome = true by decide +kernel)
  have ran := (Run.opened opened : Run (fun _ _ => True) emptyDir 16 failingStore _)
  have ran := ran.unacknowledged (c := .applyBatchBlock [coinOp]) trivial applied rfl
  have ran := ran.failed (c := .publishBatch [coinBlock]) trivial failed
  exact ⟨r, ran.acknowledged (c := .publishBatch [coinBlock]) trivial retried rfl named⟩

/-- After the retry page 0 is on offer and is the root. -/
theorem retried_batch_frees_root : ∃ acked, @Run sha256Digest (fun _ _ => True) emptyDir 16 retriedStore acked ∧
    ¬@FreePagesUnused sha256Digest retriedStore acked := by
  let := sha256Digest
  obtain ⟨acked, ran⟩ := retriedStore_run
  exact ⟨acked, ran, not_unused_of_offered (by decide +kernel)⟩

end Store
end Innova.Store3A
