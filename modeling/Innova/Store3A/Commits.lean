import Innova.Store3A.UndoCalls

/-! What the calls of an open store commit. A call that succeeds takes the store from a committed state
to the next one. One that fails leaves it at the state it was at or asks for a reopen; a batch may also
fail with the root where an earlier write of its overlay put it. -/
namespace Innova.Store3A
open Lib Lib.PagedTree Chainstate

/-- `disconnect`, which takes back only the last block published. -/
def Committed.disconnect (c : Committed) (blockHash parentTipHash : Hash) : Except ChainError Committed :=
  match c.log.getLast? with
  | none => .error ⟨.notFound, "no committed undo to disconnect"⟩
  | some r =>
    if r.blockHash ≠ blockHash then .error ⟨.notFound, "only the most recent block can be disconnected"⟩
    else .ok ((Store.Call.disconnect blockHash parentTipHash).next c)

def Committed.publishBatch (c : Committed) (batch : List Store.BatchBlock) : Committed :=
  (Store.Call.publishBatch batch).next c

/-- The generation and the block it ends with. -/
def Committed.tip (c : Committed) : UInt64 × Hash × Int32 := (c.generation, c.blockHash, c.tipHeight)

namespace Store
open BTree UndoLog

/-- What the store has in memory of it. -/
def tip (s : Store) : UInt64 × Hash × Int32 := (s.generation, s.blockHash, s.tipHeight)

section
variable [Digest] {s t : Store} {c c' : Committed}

/-- The tree and the tip in memory are those of a committed state. -/
structure Remembers (s : Store) (c : Committed) : Prop where
  closed : Closed s.tree
  coins : ∃ d x, Rooted s.tree d x ∧ Entries.find x.entries = c.coins
  tip : s.tip = c.tip

/-- The store is at a committed state: its undo log and the files are those of the state as well. -/
structure At (s : Store) (c : Committed) : Prop extends Standby s c.log, Remembers s c

/-! ## The tree -/

/-- Putting the root back. -/
private theorem Remembers.restoreRoot (held : Remembers s c) (grows : Grows s.tree t.tree) (closed : Closed t.tree)
    (same : t.tip = s.tip) : Remembers (restoreRoot s.tree.root t) c := by
  obtain ⟨d, x, rooted, coins⟩ := held.coins
  obtain ⟨tr, restored, file, closed', root⟩ := restoreRoot_standing closed (grows.standing rooted.standing)
  rw [restored]
  exact ⟨closed', ⟨d, x, rooted.grows (grows.sameFile file) root, coins⟩, same.trans held.tip⟩

private theorem Remembers.rollback (held : Remembers s c) (grows : Grows s.tree t.tree) (closed : Closed t.tree)
    (same : t.tip = s.tip) : (rollback s.tree.root t).needsReopen = true ∨ Remembers (rollback s.tree.root t) c := by
  unfold Store.rollback
  split
  · exact .inl rfl
  · dsimp only
    split
    · exact .inl rfl
    · exact .inr (held.restoreRoot grows closed same)

/-- Sealing a generation over a tree with the coins of the next state. -/
private theorem ends_sealGeneration_at (rooted : Rooted t.tree d x) (staged : Staged t.tree x.refs)
    (closed : Closed t.tree) (coins : Entries.find x.entries = c'.coins)
    (cleaned : ∀ u, u.tree = t.tree → u.tip = t.tip → (cleanup u).needsReopen = true ∨ Remembers (cleanup u) c)
    (finished : ∀ u, (finish u).tree = u.tree.retireMovedToFree ∧ (finish u).tip = c'.tip) :
    Ends (do sealGeneration m off raw recEnds cleanup; update finish) t (fun _ u => Remembers u c')
      fun stop u => stop ≠ .crashed → u.needsReopen = true ∨ Remembers u c := by
  refine Ends.bind (ends_sealGeneration ?_ ?_ (fun _ _ _ _ _ => .inl rfl) fun _ _ crashed => absurd rfl crashed)
  · intro u same _
    have tree : u.tree = t.tree := congrArg Prod.fst (core_congr same)
    obtain ⟨freed, tip⟩ := finished u
    rw [tree] at freed
    refine ends_update.mpr ⟨?_, ⟨d, x, ?_, coins⟩, tip⟩
    · rw [freed]; exact closed
    · rw [freed]; exact rooted.retireMovedToFree staged
  · intro e u same _
    have tip : (heart u).tip = (heart t).tip := by rw [same]
    exact cleaned u (congrArg Prod.fst (core_congr same)) tip

private theorem revert_remembers (held : Remembers s c) (staged : ∀ refs, Staged s.tree refs)
    (last : c.log.getLast? = some r) (entry : UndoMeta) (parentTipHash : Hash) :
    Ends (revert r entry parentTipHash) s (fun _ t => Remembers t (c.undo parentTipHash))
      fun stop t => stop ≠ .crashed → t.needsReopen = true ∨ Remembers t c := by
  obtain ⟨d, x, rooted, coins⟩ := held.coins
  obtain ⟨generation, -, tipHeight⟩ := Prod.ext_iff.mp held.tip |>.imp_right Prod.ext_iff.mp
  refine Ends.get (Ends.bind (ends_onTree_onFailure (applyPlainAll_spec rooted held.closed.plain _) ?_ ?_))
  · rintro _ tr ⟨view, d', x', rooted', moved⟩
    have closed := held.closed.of_view view
    refine Ends.get (ends_sealGeneration_at (t := { s with tree := tr }) rooted'
      (moved.staged (staged _)) closed ?_ ?_ ?_)
    · rw [moved.entries, find_setEntries rooted.holds.sorted, coins, Committed.undo, last]
    · intro u tree tip
      exact held.rollback (t := u) (by rw [tree]; exact moved.grows) (by rw [tree]; exact closed) tip
    · intro u
      refine ⟨rfl, ?_⟩
      rw [Committed.undo, last]
      exact Prod.ext (congrArg (· + 1) generation) (Prod.ext rfl (congrArg (· - 1) tipHeight))
  · rintro _ tr ⟨view, grows⟩ _
    exact .inr (held.restoreRoot (t := { s with tree := tr }) grows (held.closed.of_view view) rfl)

private theorem publishBatch_remembers (held : Remembers s c) (idle : s.batchOpen = false) (batch : List BatchBlock) :
    Ends (publishBatch batch) s (fun _ t => Remembers t (c.publishBatch batch)) fun stop t => stop ≠ .crashed →
      t.needsReopen = true ∨ Remembers t c ∨ t.tree.root ≠ s.tree.root := by
  obtain ⟨d, x, rooted, coins⟩ := held.coins
  refine Ends.bind (ends_guardOpen ?_ fun _ _ => .inr (.inl held))
  rw [Committed.publishBatch, Call.next]
  cases batch.getLast? with
  | none => exact ends_pure.mpr held
  | some last =>
    refine Ends.get ?_
    rw [if_neg (by simp [idle])]
    have begun : Grows s.tree s.tree.clearRetired.beginOverlay :=
      (Grows.refl rooted.alloc).sameFile ⟨rfl, rfl, rfl, rfl, rfl⟩
    have overlaid := (rooted.grows begun rfl).overlaid held.closed.1 rfl
    have staged := staged_clearRetired s.tree x.refs
    refine ends_update_then (Ends.bind (ends_onTree_onFailure (applyOps_spec overlaid _) ?_ ?_))
    · rintro _ tr ⟨d₁, x₁, overlaid₁, moved⟩
      have onward := begun.trans moved.grows
      refine Ends.bind (Ends.get ?_)
      rw [if_pos overlaid₁.pending.on]
      refine ends_onTree_onFailure (finalizeOverlay_spec overlaid₁) ?_ ?_
      · rintro _ tr' ⟨closed, d₂, x₂, ret, rooted₂, entries, reworked⟩
        have onward := onward.trans reworked.grows
        refine Ends.get ((ends_sealGeneration_at (t := { s with tree := tr' }) (c := c) rooted₂
          (reworked.staged overlaid₁.live (moved.staged staged)) closed ?_ ?_ ?_).mono (fun _ _ => id) ?_)
        · rw [entries, moved.entries, find_setEntries rooted.holds.sorted, coins]
          rfl
        · intro u tree tip
          have onward : Grows s.tree u.tree := by rw [tree]; exact onward
          exact held.rollback (t := onTreeState BTree.abortOverlay u)
            (onward.sameFile ⟨rfl, rfl, rfl, rfl, rfl⟩) ⟨rfl, rfl⟩ tip
        · intro u
          exact ⟨congrArg retireMovedToFree (pushBatch_eq _ batch u).1,
            Prod.ext (congrArg (· + 1) (congrArg Prod.fst held.tip)) rfl⟩
        · exact fun _ _ back alive => (back alive).imp_right .inl
      · -- the root is not put back here, and a finalize in the middle of the batch may have moved it
        rintro _ tr' ⟨-, -, grows, -⟩ _
        have onward := (onward.trans grows).sameFile (show SameFile tr' tr'.abortOverlay from ⟨rfl, rfl, rfl, rfl, rfl⟩)
        by_cases same : tr'.root = s.tree.root
        · exact .inr (.inl ⟨⟨rfl, rfl⟩, ⟨d, x, rooted.grows onward same, coins⟩, held.tip⟩)
        · exact .inr (.inr same)
    · intro _ tr grows _
      exact .inr (.inl (held.restoreRoot (t := { s with tree := tr.abortOverlay })
        ((begun.trans grows).sameFile ⟨rfl, rfl, rfl, rfl, rfl⟩) ⟨rfl, rfl⟩ rfl))

/-! ## The calls -/

private theorem At.of_rests (rests : Rests t c.log) (held : Remembers t c) : t.needsReopen = true ∨ t.At c := by
  cases fine : t.needsReopen with
  | true => exact .inl rfl
  | false => exact .inr ⟨⟨rests.working fine, rests.filed, rests.idle⟩, held⟩

/-- A batch takes the store to the next state. One that fails leaves the state, asks for a reopen, or
has moved the root. -/
theorem publishBatch_commits (held : s.At c) {batch : List BatchBlock} (orderly : s.Orderly batch) :
    Ends (publishBatch batch) s (fun _ t => t.At (c.publishBatch batch)) fun stop t => stop ≠ .crashed →
      t.needsReopen = true ∨ t.At c ∨ t.tree.root ≠ s.tree.root := by
  have logged : (c.publishBatch batch).log = extended c.log batch := by
    cases batch using List.reverseRecOn <;> simp [Committed.publishBatch, Call.next, Committed.append, extended]
  refine ((publishBatch_settles held.toStandby orderly).and
    (publishBatch_remembers held.toRemembers held.idle batch)).mono ?_ ?_
  · rintro _ t ⟨ready, remembers⟩
    rw [← logged] at ready
    exact ⟨ready, remembers⟩
  · rintro stop t ⟨rests, back⟩ alive
    rcases back alive with reopen | remembers | moved
    · exact .inl reopen
    · exact (At.of_rests (rests alive) remembers).imp_right .inl
    · exact .inr (.inr moved)

/-- A disconnect succeeds only where the state allows it. One that fails leaves the state or asks for
a reopen. -/
theorem disconnect_commits (held : s.At c) {blockHash parentTipHash : Hash}
    (tidy : (Call.disconnect blockHash parentTipHash).Orderly s) :
    Ends (disconnect blockHash parentTipHash) s
      (fun _ t => ∃ c', c.disconnect blockHash parentTipHash = .ok c' ∧ t.At c')
      fun stop t => stop ≠ .crashed → t.needsReopen = true ∨ t.At c := by
  have cleared := held.toStandby.withTree s.tree.clearRetired
  have remembers (recent : List UndoMeta) (script : List Outcome) :
      Remembers { s with tree := s.tree.clearRetired, undoRecent := recent, script := script } c := by
    obtain ⟨d, x, rooted, coins⟩ := held.coins
    have same : Grows s.tree s.tree.clearRetired := (Grows.refl rooted.alloc).sameFile ⟨rfl, rfl, rfl, rfl, rfl⟩
    exact ⟨held.closed, ⟨d, x, rooted.grows same rfl, coins⟩, held.tip⟩
  refine ends_disconnect held.toStandby tidy (fun _ _ => .inr held)
    (fun _ recent script cached _ => .inr ⟨cleared.withRecent cached script, remembers recent script⟩) ?_
  intro init r recent script cut same cached ends
  have last : c.log.getLast? = some r := by rw [cut, List.getLast?_concat]
  have ready := cleared.withRecent cached script
  rw [cut] at ready
  refine ((revert_settles ready ends parentTipHash).and (revert_remembers (remembers recent script)
    (staged_clearRetired s.tree) last _ parentTipHash)).mono ?_ ?_
  · rintro _ t ⟨ready, held'⟩
    refine ⟨c.undo parentTipHash, by simp [Committed.disconnect, last, same, Call.next], ?_, held'⟩
    rwa [show (c.undo parentTipHash).log = init by simp [Committed.undo, cut]]
  · rintro stop t ⟨rests, back⟩ alive
    rw [← cut] at rests
    exact (back alive).elim .inl (At.of_rests (rests alive))

end
end Store
end Innova.Store3A
