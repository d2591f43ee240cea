import Innova.Checkpoints.CheckSync

/-! When the checkpoint memos are transparent. Every verdict that is stored says whether one block of
the index descends from another, which no later growth changes. Two answers are stored that are of
another kind: that the checkpoint is not in the index, and that no active block is found at its height,
which is also the answer while that block waits in the window. -/
namespace Innova.Checkpoints
open Lib Chainstate BlockIndex

variable {w : Moment} {m : Memos} {t t' : BlockTree} {s p : Record} {c h hashBlock : Hash}

/-! ## Ancestors -/

section
variable (has : t.Has p) (found : t.find c = some s) (member : a ∈ t.lineage p) (level : a.height = s.height)
include has found member level

/-- The ancestor at the checkpoint's height is the checkpoint exactly for its descendants. -/
theorem hash_ancestor_iff : a.hash = c ↔ s ∈ t.lineage p := by
  constructor
  · intro same
    have here : t.find a.hash = some a := has.of_mem_lineage member
    rw [same, found] at here
    cases here
    exact member
  · intro descends
    have same : a = s := has.eq_of_height member descends (congrArg Int.toNat level)
    rw [same]
    exact t.hash_of_find found

private theorem ancestor_verdict :
    (decide (a.height = s.height) && a.hash == c) = decide (s ∈ t.lineage p) := by
  rw [Bool.eq_iff_iff]
  simp only [level, decide_true, Bool.true_and, beq_iff_eq, decide_eq_true_eq]
  exact hash_ancestor_iff has found member level

end

private theorem traceBack_ancestor (has : t.Has p) (low : 0 ≤ n) (below : n ≤ p.height)
    (enough : p.height.toNat ≤ left) :
    ∃ a ∈ t.lineage p, a.height = n ∧ traceBack t n left p = some a := by
  induction left generalizing p with
  | zero =>
    refine ⟨p, has.mem_lineage_self, by omega, ?_⟩
    rw [traceBack, if_neg (by omega)]
  | succ left ih =>
    by_cases above : p.height > n
    · rcases t.root_or_parent has with ⟨zero, -⟩ | ⟨q, found, -⟩
      · omega
      · have step := t.height_parent has found
        obtain ⟨a, member, level, reached⟩ := ih (LinkedTree.has_find found) (by omega) (by omega)
        refine ⟨a, BlockTree.parent_lineage_subset has found member, level, ?_⟩
        rw [traceBack, if_pos above, found]
        exact reached
    · refine ⟨p, has.mem_lineage_self, by omega, ?_⟩
      rw [traceBack, if_neg above]

/-- The pointer rule above the checkpoint: the parent descends from it. -/
theorem checkSync_above (found : w.tree.find w.hashSyncCheckpoint = some s) (has : w.tree.Has p)
    (above : s.height ≤ p.height) : checkSync w hashBlock p = decide (s ∈ w.tree.lineage p) := by
  obtain ⟨a, member, level, traced⟩ :=
    traceBack_ancestor has (w.tree.height_nonneg found) above (Nat.le_refl _)
  rw [← ancestor_verdict has found member level]
  simp only [checkSync, found, traced]
  rw [if_pos (by omega)]
  simp [level, bne]

/-! ## What the authority answers -/

private theorem read_cases (fault : Option Fault) (answer : Resolution) :
    fault.isSome = true ∧ (read fault answer = .authorityFailure ∨ read fault answer = .notFound) ∨
      fault = none ∧ read fault answer = answer := by
  rcases fault with _ | _ | _
  · exact .inr ⟨rfl, rfl⟩
  · exact .inl ⟨rfl, .inl rfl⟩
  · exact .inl ⟨rfl, .inr rfl⟩

private theorem readActive_cases (fault : Option Fault) (answer : Resolution) :
    fault.isSome = true ∧ readActive fault answer = .authorityFailure ∨ readActive fault answer = answer := by
  cases fault with
  | none => exact .inr rfl
  | some f => exact .inl ⟨rfl, rfl⟩

/-- The ancestor of an active block is found by height, unless it is above the durable tip. -/
theorem activeSnapshotByHeight_ancestor (has : w.tree.Has p) (active : p ∈ w.tree.lineage w.best) (low : 0 ≤ n)
    (below : n ≤ p.height) : (w.tipHeight < n ∧ activeSnapshotByHeight w n = .notFound) ∨
      ∃ a ∈ w.tree.lineage p, a.height = n ∧ activeSnapshotByHeight w n = .found a := by
  by_cases buffered : w.tipHeight < n
  · refine .inl ⟨buffered, ?_⟩
    rw [activeSnapshotByHeight, if_pos buffered]
  · obtain ⟨a, member, level⟩ := BlockTree.exists_ancestor has low below
    refine .inr ⟨a, member, level, ?_⟩
    have listed := w.tree.find_height w.has_best (w.has_best.lineage_subset active member)
    rw [level] at listed
    rw [activeSnapshotByHeight, if_neg buffered, listed]

/-- One step of the ancestry walk goes to the parent, or fails. -/
theorem checkpointAncestorAtHeight_step (fails : Site → Option Fault) (has : w.tree.Has b) (low : 0 ≤ n)
    (above : b.height > n) (found : w.tree.find b.hashPrev = some p) (left : Nat) :
    ((fails (.step left)).isSome = true ∧ checkpointAncestorAtHeight w fails n (left + 1) b = .broken true) ∨
      checkpointAncestorAtHeight w fails n (left + 1) b = checkpointAncestorAtHeight w fails n left p := by
  have level := w.tree.height_parent has found
  have named : ¬(b.hashPrev = ByteArr.zero 32 ∨ b.height ≤ 0) := by
    rintro (zero | root)
    · exact (w.tree.parent_iff has).mpr ⟨p, found⟩ zero
    · omega
  rw [checkpointAncestorAtHeight, if_pos above, if_neg named]
  rcases read_cases (fails (.step left)) (resolveBlockSnapshot w b.hashPrev) with ⟨broken, failed⟩ | ⟨-, answered⟩
  · exact .inl ⟨broken, by rcases failed with failed | failed <;> simp only [failed, broken]⟩
  · right
    rw [answered, resolveBlockSnapshot, found]
    by_cases active : p ∈ w.tree.lineage w.best
    · simp only [if_pos active]
      rw [if_neg (by omega)]
    · simp only [if_neg active]
      rw [if_neg (by omega)]

/-- The ancestry walk ends at the ancestor, or a step of it fails. -/
theorem checkpointAncestorAtHeight_ancestor (fails : Site → Option Fault) (has : w.tree.Has p) (low : 0 ≤ n)
    (below : n ≤ p.height) (enough : p.height.toNat ≤ left) :
    (∃ a ∈ w.tree.lineage p, a.height = n ∧ checkpointAncestorAtHeight w fails n left p = .reached a) ∨
      (∃ site, (fails site).isSome = true) ∧ checkpointAncestorAtHeight w fails n left p = .broken true := by
  induction left generalizing p with
  | zero =>
    refine .inl ⟨p, has.mem_lineage_self, by omega, ?_⟩
    rw [checkpointAncestorAtHeight, if_neg (by omega)]
  | succ left ih =>
    by_cases above : p.height > n
    · rcases w.tree.root_or_parent has with ⟨zero, -⟩ | ⟨q, found, -⟩
      · omega
      · have level := w.tree.height_parent has found
        rcases checkpointAncestorAtHeight_step fails has low above found left with ⟨failed, ends⟩ | next
        · exact .inr ⟨⟨_, failed⟩, ends⟩
        · rw [next]
          rcases ih (LinkedTree.has_find found) (by omega) (by omega) with ⟨a, member, level, reached⟩ | failed
          · exact .inl ⟨a, BlockTree.parent_lineage_subset has found member, level, reached⟩
          · exact .inr failed
    · refine .inl ⟨p, has.mem_lineage_self, by omega, ?_⟩
      rw [checkpointAncestorAtHeight, if_neg above]

/-! ## Stored answers -/

/-- Whether the block of hash `h` descends from the block of hash `c`. -/
def descends (t : BlockTree) (c h : Hash) : Bool :=
  match t.find c, t.find h with
  | some s, some p => decide (s ∈ t.lineage p)
  | _, _ => false

/-- The answers in the memos are those of the index. A failed lookup has stored no answer. -/
structure Memos.Right (m : Memos) (t : BlockTree) : Prop where
  sync : m.sync.resolved = true → m.sync.transientFailure = false → m.sync.snapshot = t.find m.sync.hashCheckpoint
  failed : m.sync.transientFailure = true → m.sync.snapshot = none
  best : ∀ {e}, m.best = some e → e.bestExtends = descends t e.epochCheckpoint e.bestTip
  verdict : ∀ {h v}, (h, v) ∈ m.verdicts → v = descends t m.epoch h

/-- The answers in the memos are right, and stay so however the index grows. -/
def Memos.Lasting (m : Memos) (t : BlockTree) : Prop := ∀ t' : BlockTree, t.Grows t'.toLinkedTree → m.Right t'

/-- Descent between two blocks of the index is settled for good. -/
theorem descends_grows (grows : t.Grows t'.toLinkedTree) (found : t.find c = some s) (has : t.Has p) :
    descends t' c p.hash = decide (s ∈ t.lineage p) := by
  have here : t'.find p.hash = some p := grows has
  rw [descends, grows found, here]
  simp only [grows.lineage_eq has]

namespace Memos.Lasting

private theorem start : ({} : Memos).Lasting t := fun _ _ =>
  { sync := fun resolved => absurd resolved (by decide)
    failed := fun _ => rfl
    best := fun stored => by cases stored
    verdict := fun stored => by cases stored }

section
variable (lasting : m.Lasting t)
include lasting

private theorem right : m.Right t := lasting t (LinkedTree.Grows.refl _)

private theorem grows (grows : t.Grows t'.toLinkedTree) : m.Lasting t' :=
  fun t'' grows' => lasting t'' (grows.trans grows')

private theorem enter : (m.enter c).Lasting t := by
  intro t' grows
  have right := lasting t' grows
  rw [Memos.enter]
  split
  · exact right
  · exact ⟨right.sync, right.failed, fun stored => (by cases stored), fun stored => (by cases stored)⟩

private theorem memoize (found : t.find m.epoch = some s) (has : t.Has p) :
    (m.memoize p.hash (decide (s ∈ t.lineage p))).Lasting t := by
  intro t' grows
  have right := lasting t' grows
  refine ⟨right.sync, right.failed, right.best, fun {h v} stored => ?_⟩
  rcases List.mem_cons.mp stored with new | old
  · cases new
    exact (descends_grows grows found has).symm
  · -- at the cap the old verdicts are dropped
    split at old
    · cases old
    · exact right.verdict old

private theorem keepBest (found : t.find c = some s) (has : t.Has p) :
    ({ m with best := some ⟨c, p.hash, decide (s ∈ t.lineage p)⟩ } : Memos).Lasting t := by
  intro t' grows
  have right := lasting t' grows
  refine ⟨right.sync, right.failed, fun stored => ?_, right.verdict⟩
  cases stored
  exact (descends_grows grows found has).symm

end

end Memos.Lasting

/-! ## Verdicts -/

/-- The call answers as the pointer rule does, or denies because one of its reads failed. -/
def Outcome.Meets (o : Outcome) (fails : Site → Option Fault) (rule : Bool) : Prop :=
  o.verdict = rule ∨ (o.verdict = false ∧ o.failed = true ∧ ∃ site, (fails site).isSome = true)

/-- What a call of a part of the rule leaves: a right verdict and lasting memos. -/
def Outcome.Sound (o : Outcome) (fails : Site → Option Fault) (rule : Bool) (t : BlockTree) : Prop :=
  o.Meets fails rule ∧ o.memos.Lasting t

private theorem Outcome.Sound.denied (lasting : m.Lasting t) (failed : (fails site).isSome = true) :
    Outcome.Sound ⟨false, m, true⟩ fails rule t :=
  ⟨.inr ⟨rfl, rfl, site, failed⟩, lasting⟩

section Parts
variable (lasting : m.Lasting w.tree) (epoch : m.epoch = w.hashSyncCheckpoint)
    (found : w.tree.find w.hashSyncCheckpoint = some s)
include lasting epoch found

private theorem settle_sound (has : w.tree.Has p) (member : a ∈ w.tree.lineage p) (level : a.height = s.height) :
    (settle w m s p.hash a).Sound fails (decide (s ∈ w.tree.lineage p)) w.tree := by
  rw [settle, ancestor_verdict has found member level]
  exact ⟨.inl rfl, lasting.memoize (epoch.symm ▸ found) has⟩

/-- The call asks for the active block at the checkpoint's height: the parent has no verdict, and it is
the best tip, which has no memo, or another active block above the checkpoint. -/
def Asks (w : Moment) (m : Memos) (s p : Record) : Prop :=
  s.height ≤ p.height ∧ m.verdicts.lookup p.hash = none ∧
    if p.hash = w.best.hash then m.bestFor w.hashSyncCheckpoint p.hash = none
    else p ∈ w.tree.lineage w.best ∧ p.height ≠ s.height

/-- The best tip by its memo or by the active block at the checkpoint's height: false while that block
waits in the window. -/
theorem checkBestTip_sound (above : s.height ≤ w.best.height)
    (visible : m.bestFor w.hashSyncCheckpoint w.best.hash = none → s ∈ w.tree.lineage w.best → s.height ≤ w.tipHeight) :
    (checkBestTip w fails m s w.best.hash).Sound fails (decide (s ∈ w.tree.lineage w.best)) w.tree := by
  have known : w.tree.find m.epoch = some s := epoch.symm ▸ found
  rw [checkBestTip]
  cases stored : m.bestFor w.hashSyncCheckpoint w.best.hash with
  | some e =>
    obtain ⟨stored, matching⟩ := Option.filter_eq_some_iff.mp stored
    simp only [Bool.and_eq_true, beq_iff_eq] at matching
    have right := lasting.right.best stored
    rw [matching.1, matching.2, descends_grows (LinkedTree.Grows.refl _) found w.has_best] at right
    simp only [right]
    exact ⟨.inl rfl, lasting.memoize known w.has_best⟩
  | none =>
    have kept := (lasting.keepBest found w.has_best).memoize known w.has_best
    rcases readActive_cases (fails .anchor) (activeSnapshotByHeight w s.height) with ⟨broken, failed⟩ | answered
    · simp only [failed]
      exact .denied lasting broken
    · rcases activeSnapshotByHeight_ancestor w.has_best w.has_best.mem_lineage_self (w.tree.height_nonneg found) above
        with ⟨buffered, missing⟩ | ⟨a, member, level, listed⟩
      · have stray : s ∉ w.tree.lineage w.best := fun member => by
          have := visible stored member
          omega
        simp only [stray, decide_false] at kept ⊢
        simp only [answered.trans missing]
        exact ⟨.inl rfl, kept⟩
      · simp only [answered.trans listed, ancestor_verdict w.has_best found member level]
        exact ⟨.inl rfl, kept⟩

private theorem checkParent_sound (has : w.tree.Has p) (above : s.height ≤ p.height)
    (visible : p ∈ w.tree.lineage w.best → p.height ≠ s.height → s ∈ w.tree.lineage w.best → s.height ≤ w.tipHeight) :
    (checkParent w fails m s p.hash).Sound fails (decide (s ∈ w.tree.lineage p)) w.tree := by
  have here : w.tree.find p.hash = some p := has
  have low := w.tree.height_nonneg found
  rw [checkParent]
  rcases read_cases (fails .parent) (resolveBlockSnapshot w p.hash) with ⟨broken, failed⟩ | ⟨-, answered⟩
  · rcases failed with failed | failed <;> simp only [failed, broken] <;> exact .denied lasting broken
  rw [answered, resolveBlockSnapshot, here]
  by_cases active : p ∈ w.tree.lineage w.best
  · simp only [if_pos active]
    split
    · next level => exact settle_sound lasting epoch found has has.mem_lineage_self level
    · next off =>
      rcases readActive_cases (fails .anchor) (activeSnapshotByHeight w s.height) with ⟨broken, failed⟩ | answered
      · simp only [failed]
        exact .denied lasting broken
      · rcases activeSnapshotByHeight_ancestor has active low above with
          ⟨buffered, missing⟩ | ⟨a, member, level, listed⟩
        · have stray : s ∉ w.tree.lineage p := fun member => by
            have := visible active off (w.has_best.lineage_subset active member)
            omega
          simp only [answered.trans missing, stray, decide_false]
          exact ⟨.inl rfl, lasting⟩
        · simp only [answered.trans listed]
          exact settle_sound lasting epoch found has member level
  · simp only [if_neg active]
    rcases checkpointAncestorAtHeight_ancestor fails has low above (Nat.le_refl _) with
      ⟨a, member, level, reached⟩ | ⟨⟨site, broken⟩, failed⟩
    · simp only [reached]
      exact settle_sound lasting epoch found has member level
    · simp only [failed]
      exact .denied lasting broken

private theorem checkDescendant_sound (has : w.tree.Has p) (above : s.height ≤ p.height)
    (visible : Asks w m s p → s ∈ w.tree.lineage w.best → s.height ≤ w.tipHeight) :
    (checkDescendant w fails m s p.hash).Sound fails (decide (s ∈ w.tree.lineage p)) w.tree := by
  rw [checkDescendant]
  cases stored : m.verdicts.lookup p.hash with
  | some verdict =>
    obtain ⟨before, after, split, -⟩ := List.lookup_eq_some_iff.mp stored
    have right := lasting.right.verdict (h := p.hash) (v := verdict) (by simp [split])
    rw [epoch, descends_grows (LinkedTree.Grows.refl _) found has] at right
    exact ⟨.inl right, lasting⟩
  | none =>
    by_cases tip : p.hash = w.best.hash
    · have same : p = w.best := LinkedTree.Has.eq_of_key has w.has_best tip
      subst same
      simp only [if_true]
      refine checkBestTip_sound lasting epoch found above fun free => visible ⟨above, stored, ?_⟩
      rw [if_pos rfl]
      exact free
    · simp only [if_neg tip]
      refine checkParent_sound lasting epoch found has above fun active off => visible ⟨above, stored, ?_⟩
      rw [if_neg tip]
      exact ⟨active, off⟩

end Parts

/-! ## The checkpoint's entry -/

private theorem fill_cases (w : Moment) (fault : Option Fault) :
    (fault = some .authority ∧ SyncCheckpointMemo.fill w fault =
      { hashCheckpoint := w.hashSyncCheckpoint, resolved := true, transientFailure := true }) ∨
    (fault = some .tail ∧ SyncCheckpointMemo.fill w fault =
      { hashCheckpoint := w.hashSyncCheckpoint, resolved := true }) ∨
    SyncCheckpointMemo.fill w fault =
      { hashCheckpoint := w.hashSyncCheckpoint, snapshot := w.tree.find w.hashSyncCheckpoint, resolved := true } := by
  rcases fault with _ | _ | _
  · right; right
    rw [SyncCheckpointMemo.fill, read, resolveBlockSnapshot]
    cases w.tree.find w.hashSyncCheckpoint with
    | none => rfl
    | some s => by_cases active : s ∈ w.tree.lineage w.best <;> simp [active]
  · exact .inl ⟨rfl, rfl⟩
  · exact .inr (.inl ⟨rfl, rfl⟩)

private theorem kept_of_fresh (right : m.Right w.tree) (fresh : m.sync.stale w = false) : m.sync =
    { hashCheckpoint := w.hashSyncCheckpoint, snapshot := w.tree.find w.hashSyncCheckpoint, resolved := true } := by
  have sync := right.sync
  have failed := right.failed
  generalize m.sync = memo at sync failed fresh
  obtain ⟨hash, snapshot, resolved, transientFailure⟩ := memo
  cases transientFailure with
  | true =>
    cases show snapshot = none from failed rfl
    cases resolved <;> simp [SyncCheckpointMemo.stale, bne] at fresh
    split at fresh <;> simp_all
  | false =>
    obtain ⟨rfl, rfl⟩ : resolved = true ∧ hash = w.hashSyncCheckpoint := by
      simpa [SyncCheckpointMemo.stale] using fresh
    rw [← sync rfl rfl]

/-- A call starts from what the index has under the checkpoint's hash, or from a read that failed. -/
theorem resolve_cases (right : m.Right w.tree) (fault : Option Fault) :
    (m.sync.stale w = true ∧ fault = some .authority ∧ m.sync.resolve w fault =
      { hashCheckpoint := w.hashSyncCheckpoint, resolved := true, transientFailure := true }) ∨
    (m.sync.stale w = true ∧ fault = some .tail ∧ m.sync.resolve w fault =
      { hashCheckpoint := w.hashSyncCheckpoint, resolved := true }) ∨
    m.sync.resolve w fault =
      { hashCheckpoint := w.hashSyncCheckpoint, snapshot := w.tree.find w.hashSyncCheckpoint, resolved := true } := by
  rw [SyncCheckpointMemo.resolve]
  cases stale : m.sync.stale w with
  | true => simpa using fill_cases w fault
  | false => exact .inr (.inr (kept_of_fresh right stale))

private theorem Memos.Lasting.keepSync (lasting : m.Lasting t) (memo : SyncCheckpointMemo)
    (stored : ∀ t' : BlockTree, t.Grows t'.toLinkedTree → memo.transientFailure = false →
      memo.snapshot = t'.find memo.hashCheckpoint)
    (failed : memo.transientFailure = true → memo.snapshot = none) : ({ m with sync := memo } : Memos).Lasting t := by
  intro t' grows
  have right := lasting t' grows
  exact ⟨fun _ => stored t' grows, failed, right.best, right.verdict⟩

private theorem enter_epoch (m : Memos) (c : Hash) : (m.enter c).epoch = c := by
  rw [Memos.enter]
  split
  · assumption
  · rfl

/-! ## One call -/

/-- The condition on a call: the checkpoint is in the index (or there is none), a read of it does not
fail in the tail, and where the call needs the active block at its height to find it, that block is
not still in the window. -/
def Clear (w : Moment) (m : Memos) (fails : Site → Option Fault) (p : Record) : Prop :=
  w.hashSyncCheckpoint = ByteArr.zero 32 ∨
    ∃ s, w.tree.find w.hashSyncCheckpoint = some s ∧ (m.sync.stale w = true → fails .checkpoint ≠ some .tail) ∧
      (Asks w (m.enter w.hashSyncCheckpoint) s p → s ∈ w.tree.lineage w.best → s.height ≤ w.tipHeight)

private theorem asks_enter : Asks w (({ m with sync := memo } : Memos).enter c) s p ↔ Asks w (m.enter c) s p := by
  by_cases same : m.epoch = c <;> simp [Memos.enter, same, Asks, Memos.bestFor]

private theorem checkKnown_sound (lasting : m.Lasting w.tree) :
    (checkKnown w fails m hashBlock).Sound fails (w.tree.find hashBlock).isSome w.tree := by
  rw [checkKnown]
  rcases read_cases (fails .record) (resolveBlockSnapshot w hashBlock) with ⟨broken, failed⟩ | ⟨quiet, answered⟩
  · rcases failed with failed | failed <;> simp only [failed, broken] <;> exact .denied lasting broken
  · rw [answered, resolveBlockSnapshot]
    cases w.tree.find hashBlock with
    | none => exact ⟨.inl rfl, lasting⟩
    | some b =>
      by_cases active : b ∈ w.tree.lineage w.best
      · simp only [if_pos active]
        exact ⟨.inl rfl, lasting⟩
      · simp only [if_neg active]
        exact ⟨.inl rfl, lasting⟩

/-- A clear call answers as the pointer rule does and leaves lasting memos. -/
theorem checkSyncByValue_sound (fails : Site → Option Fault) (hashBlock : Hash) (lasting : m.Lasting w.tree)
    (has : w.tree.Has p)
    (clear : Clear w m fails p) :
    (checkSyncByValue w fails hashBlock p m).Sound fails (checkSync w hashBlock p) w.tree := by
  rw [checkSyncByValue]
  have started : (m.sync.stale w = true ∧ fails .checkpoint = some .authority ∧ m.sync.resolve w (fails .checkpoint) =
        { hashCheckpoint := w.hashSyncCheckpoint, resolved := true, transientFailure := true }) ∨
      m.sync.resolve w (fails .checkpoint) =
        { hashCheckpoint := w.hashSyncCheckpoint, snapshot := w.tree.find w.hashSyncCheckpoint, resolved := true } := by
    rcases resolve_cases lasting.right (fails .checkpoint) with failed | ⟨stale, tail, missed⟩ | resolved
    · exact .inl failed
    · rcases clear with zero | ⟨s, -, kept, -⟩
      · exact .inr (by rw [missed, zero, w.tree.no_zero])
      · exact absurd tail (kept stale)
    · exact .inr resolved
  rcases started with ⟨stale, broken, failed⟩ | resolved
  · have site : (fails .checkpoint).isSome = true := congrArg Option.isSome broken
    simp only [failed, stale, site]
    exact .denied (lasting.keepSync _ (fun _ _ transient => by cases transient) fun _ => rfl) site
  simp only [resolved]
  cases found : w.tree.find w.hashSyncCheckpoint with
  | none =>
    have zero : w.hashSyncCheckpoint = ByteArr.zero 32 := by
      rcases clear with zero | ⟨s, found', -⟩
      · exact zero
      · rw [found] at found'
        cases found'
    refine ⟨.inl (by simp only [checkSync, found]), lasting.keepSync _ (fun t' _ _ => ?_) fun _ => rfl⟩
    -- no index has a block of hash zero
    simp only [zero, t'.no_zero]
  | some s =>
    have visible : Asks w (m.enter w.hashSyncCheckpoint) s p → s ∈ w.tree.lineage w.best → s.height ≤ w.tipHeight := by
      rcases clear with zero | ⟨s', found', -, visible⟩
      · rw [zero, w.tree.no_zero] at found
        cases found
      · rw [found] at found'
        cases found'
        exact visible
    have lasting' := (lasting.keepSync { hashCheckpoint := w.hashSyncCheckpoint, snapshot := some s, resolved := true }
      (fun _ grows _ => (grows found).symm) (fun transient => by cases transient)).enter (c := w.hashSyncCheckpoint)
    simp only
    by_cases lower : p.height + 1 < s.height
    · rw [if_pos lower]
      have rule : checkSync w hashBlock p = (w.tree.find hashBlock).isSome := by
        simp only [checkSync, found]
        rw [if_neg (by omega), if_neg (by omega)]
      rw [rule]
      exact checkKnown_sound lasting'
    · rw [if_neg lower]
      by_cases level : p.height + 1 = s.height
      · rw [if_pos level]
        refine ⟨.inl ?_, lasting'⟩
        simp only [checkSync, found]
        rw [if_neg (by omega), if_pos level]
      · rw [if_neg level, checkSync_above found has (by omega)]
        exact checkDescendant_sound lasting' (enter_epoch _ _) found has (by omega) fun asks =>
          visible (asks_enter.mp asks)

/-- At most the read of the checkpoint fails, and that one in the tail. -/
def Quiet (fails : Site → Option Fault) : Prop :=
  fails .checkpoint ≠ some .authority ∧ ∀ site, site ≠ .checkpoint → fails site = none

/-- While the checkpoint waits in the window, a call that asks for its height denies. -/
theorem checkDescendant_buffered (quiet : Quiet fails) (has : w.tree.Has p) (asks : Asks w m s p)
    (buffered : w.tipHeight < s.height) : (checkDescendant w fails m s p.hash).verdict = false ∧
      (checkDescendant w fails m s p.hash).failed = false := by
  obtain ⟨-, unsettled, asked⟩ := asks
  have missing : readActive (fails .anchor) (activeSnapshotByHeight w s.height) = .notFound := by
    rw [quiet.2 _ Site.noConfusion, activeSnapshotByHeight, if_pos buffered]
    rfl
  rw [checkDescendant, unsettled]
  by_cases tip : p.hash = w.best.hash
  · rw [if_pos tip] at asked
    simp only [if_pos tip, checkBestTip, asked, missing, and_self]
  · rw [if_neg tip] at asked
    have parent : read (fails .parent) (resolveBlockSnapshot w p.hash) = .found p := by
      have here : w.tree.find p.hash = some p := has
      rw [quiet.2 _ Site.noConfusion, resolveBlockSnapshot, here]
      exact if_pos asked.1
    simp only [if_neg tip, checkParent, parent, if_neg asked.2, missing, and_self]

private theorem asks_active (asks : Asks w m s p) (has : w.tree.Has p) : p ∈ w.tree.lineage w.best := by
  obtain ⟨-, -, asked⟩ := asks
  split at asked
  · next tip =>
    rw [LinkedTree.Has.eq_of_key has w.has_best tip]
    exact w.has_best.mem_lineage_self
  · exact asked.1

/-- That the checkpoint is missing is no lasting answer: its block may arrive. -/
theorem not_lasting_of_missed (named : w.hashSyncCheckpoint ≠ ByteArr.zero 32) (resolved : m.sync.resolved = true)
    (transient : m.sync.transientFailure = false) (missed : m.sync.snapshot = none)
    (same : m.sync.hashCheckpoint = w.hashSyncCheckpoint) : ¬m.Lasting w.tree := by
  intro lasting
  have absent := lasting.right.sync resolved transient
  rw [missed, same] at absent
  have arrived := (lasting _ (w.tree.addChild_grows w.has_best named absent.symm)).sync resolved transient
  rw [missed, same] at arrived
  exact w.tree.find_addChild w.has_best named absent.symm arrived.symm

/-- Only a clear call answers as the pointer rule does and leaves lasting memos. -/
theorem clear_of_sound (quiet : Quiet fails) (lasting : m.Lasting w.tree) (has : w.tree.Has p)
    (sound : (checkSyncByValue w fails hashBlock p m).Sound fails (checkSync w hashBlock p) w.tree) :
    Clear w m fails p := by
  by_cases zero : w.hashSyncCheckpoint = ByteArr.zero 32
  · exact .inl zero
  right
  obtain ⟨meets, after⟩ := sound
  rw [checkSyncByValue] at meets after
  rcases resolve_cases lasting.right (fails .checkpoint) with ⟨-, broken, -⟩ | ⟨-, -, missed⟩ | resolved
  · exact absurd broken quiet.1
  · simp only [missed] at after
    exact absurd after (not_lasting_of_missed zero rfl rfl rfl rfl)
  simp only [resolved] at meets after
  cases found : w.tree.find w.hashSyncCheckpoint with
  | none =>
    simp only [found] at after
    exact absurd after (not_lasting_of_missed zero rfl rfl rfl rfl)
  | some s =>
    refine ⟨s, rfl, fun stale tail => ?_, fun asks member => ?_⟩
    · rw [SyncCheckpointMemo.resolve, if_pos stale, tail] at resolved
      rw [found] at resolved
      cases resolved
    by_contra buffered
    have above := asks.1
    have descends : s ∈ w.tree.lineage p := by
      have active := asks_active asks has
      exact w.has_best.mem_lineage_of_le member active (Int.toNat_le_toNat above)
    simp only [found] at meets
    rw [if_neg (by omega), if_neg (by omega), checkSync_above found has above, decide_eq_true descends] at meets
    obtain ⟨denied, settled⟩ := checkDescendant_buffered quiet has (asks_enter.mpr asks) (by omega)
    rcases meets with passed | failed
    · exact Bool.false_ne_true (denied.symm.trans passed)
    · exact Bool.false_ne_true (settled.symm.trans failed.2.1)

/-! ## Every history -/

/-- The histories: the index grows, and with it the best chain, the durable tip and the checkpoint may
become any other; in between, clear calls are made, whatever reads fail in them. -/
inductive Run : Moment → Memos → Prop where
  | start (w : Moment) : Run w {}
  | move {w w' : Moment} {m : Memos} : Run w m → w.tree.Grows w'.tree.toLinkedTree → Run w' m
  | call {w : Moment} {m : Memos} {p : Record} (fails : Site → Option Fault) (hashBlock : Hash) :
      Run w m → w.tree.Has p → Clear w m fails p → Run w (checkSyncByValue w fails hashBlock p m).memos

private theorem Run.lasting (run : Run w m) : m.Lasting w.tree := by
  induction run with
  | start w => exact .start
  | move _ grows ih => exact ih.grows grows
  | call fails hashBlock _ has clear ih => exact (checkSyncByValue_sound fails hashBlock ih has clear).2

/-- In every history of clear calls each stored answer is right for good, and a clear call answers as
the pointer rule does at that moment, or denies because a read of its own failed, and stores only such
answers. A call of which no read fails, or only that of the checkpoint in the tail, does so only if it
is clear. -/
theorem memos_transparent_iff (run : Run w m) :
    m.Lasting w.tree ∧ ∀ {p : Record}, w.tree.Has p → ∀ (hashBlock : Hash) (fails : Site → Option Fault),
      (Clear w m fails p → (checkSyncByValue w fails hashBlock p m).Sound fails (checkSync w hashBlock p) w.tree) ∧
      (Quiet fails → (checkSyncByValue w fails hashBlock p m).Sound fails (checkSync w hashBlock p) w.tree →
        Clear w m fails p) := by
  have lasting := run.lasting
  refine ⟨lasting, fun {p} has hashBlock fails => ⟨?_, ?_⟩⟩
  · exact fun clear => checkSyncByValue_sound fails hashBlock lasting has clear
  · exact fun quiet sound => clear_of_sound quiet lasting has sound

namespace Arrival

def hash (n : UInt8) : Hash := ByteArr.filled 32 n

def genesis : Record := { hash := hash 1, hashPrev := ByteArr.zero 32, height := 0 }
def checkpoint : Record := { hash := hash 2, hashPrev := hash 1, height := 1 }
def next : Record := { hash := hash 3, hashPrev := hash 2, height := 2 }
def rival : Record := { hash := hash 4, hashPrev := hash 1, height := 1 }

def rootTree : BlockTree := .ofBlocks [genesis] (by decide +kernel)
def tree : BlockTree := .ofBlocks ([genesis] ++ [checkpoint]) (by decide +kernel)
def forkedTree : BlockTree := .ofBlocks ([genesis, checkpoint] ++ [next, rival]) (by decide +kernel)

private theorem has_checkpoint : tree.Has checkpoint :=
  show tree.find checkpoint.hash = some checkpoint by decide +kernel

/-- The checkpoint is named before its block is in the index. -/
def early : Moment := ⟨rootTree, genesis, show rootTree.find genesis.hash = some genesis by decide +kernel, 0, hash 2⟩
/-- The checkpoint is the best tip, appended to the window. -/
def window : Moment := ⟨tree, checkpoint, has_checkpoint, 0, hash 2⟩
/-- The window is flushed. -/
def published : Moment := ⟨tree, checkpoint, has_checkpoint, 1, hash 2⟩
/-- The chain has moved to a rival of the checkpoint. -/
def moved : Moment := ⟨forkedTree, rival, show forkedTree.find rival.hash = some rival by decide +kernel, 1, hash 2⟩

def quiet (_ : Site) : Option Fault := none
def tornTail (_ : Site) : Option Fault := some .tail

private theorem grows_append {blocks more : List Record} (valid : BlockTree.linked blocks = true)
    (valid' : BlockTree.linked (blocks ++ more) = true) :
    (BlockTree.ofBlocks blocks valid).Grows (BlockTree.ofBlocks (blocks ++ more) valid').toLinkedTree := by
  intro k b found
  show (blocks ++ more).find? (fun b => b.hash = k) = some b
  rw [List.find?_append, show blocks.find? (fun b => b.hash = k) = some b from found]
  rfl

end Arrival

open Arrival in
/-- Three misses that are stored and outlive their reason: the checkpoint is asked for before its block
arrives, or while the tail cannot be read, and its height is asked for while it waits in the window. In
all cases a block on top of the published checkpoint is denied afterwards. -/
theorem stored_miss_denies_descendant :
    early.tree.Grows published.tree.toLinkedTree ∧ window.tree.Grows published.tree.toLinkedTree ∧
      checkSync published (hash 3) checkpoint = true ∧ (checkSyncByValue published quiet (hash 3) checkpoint
        (checkSyncByValue early quiet (hash 2) genesis {}).memos).verdict = false ∧
      (checkSyncByValue published quiet (hash 3) checkpoint
        (checkSyncByValue published tornTail (hash 3) checkpoint {}).memos).verdict = false ∧
      checkSync window (hash 3) checkpoint = true ∧
        (checkSyncByValue window quiet (hash 3) checkpoint {}).verdict = false ∧
      (checkSyncByValue published quiet (hash 3) checkpoint
        (checkSyncByValue window quiet (hash 3) checkpoint {}).memos).verdict = false := by
  refine ⟨grows_append (by decide +kernel) (by decide +kernel), LinkedTree.Grows.refl _, ?_⟩
  decide +kernel

open Arrival in
/-- A verdict is stored for the tip, the index grows and the chain moves to another branch. -/
theorem memos_transparent_moved : (checkSyncByValue moved quiet (hash 5) next
    (checkSyncByValue published quiet (hash 3) checkpoint {}).memos).Meets quiet true := by
  have stored := Run.call quiet (hash 3) (.start published) has_checkpoint
    (.inr ⟨checkpoint, has_checkpoint, fun _ => nofun, fun _ _ => by decide⟩)
  have run : Run moved _ := stored.move (grows_append (by decide +kernel) (by decide +kernel))
  have known : forkedTree.find (hash 2) = some checkpoint := by decide +kernel
  have has : forkedTree.Has next := show forkedTree.find next.hash = some next by decide +kernel
  exact (((memos_transparent_iff run).2 has (hash 5) quiet).1
    (.inr ⟨checkpoint, known, fun _ => nofun, fun _ _ => by decide⟩)).1

end Innova.Checkpoints
