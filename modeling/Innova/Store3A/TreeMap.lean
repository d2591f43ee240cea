import Innova.Store3A.TreeSpec

/-! The tree as a finite map. `put` and `erase` move a well-formed tree to a
well-formed tree whose entries changed as a sorted list does; lookups and full
traversals read those entries. A call that fails leaves the root where it was. -/
namespace Innova.Store3A
open Lib Lib.PagedTree Chainstate

namespace BTree

/-! ## Failed calls keep the root -/

/-- A view of the tree that page appends and retirements do not touch. -/
def Blind {γ : Type} (view : BTree → γ) : Prop :=
  ∀ t pages nextId freeList retired faults writes, view { t with
    pages := pages, nextId := nextId, freeList := freeList, commitRetired := retired, faults := faults
    writes := writes } = view t

theorem root_blind : Blind root := fun _ _ _ _ _ _ _ => rfl

/-- The batch overlay and its switch. -/
def overlayView (t : BTree) : Overlay × Bool × Nat := (t.ov, t.overlayOn, t.overlayMax)

theorem overlayView_blind : Blind overlayView := fun _ _ _ _ _ _ _ => rfl

private theorem overlayNode_of_view (same : overlayView t' = overlayView t) (id : PageId) :
    t'.overlayNode id = t.overlayNode id := by
  simp only [overlayView, Prod.mk.injEq] at same
  rw [overlayNode, overlayNode, same.1, same.2.1]

theorem Plain.of_view (plain : Plain t) (same : overlayView t' = overlayView t) : Plain t' := fun id => by
  rw [overlayNode_of_view same, plain id]

section Views
variable {γ : Type} {view : BTree → γ} (blind : Blind view)
include blind

private theorem writePage_keeps (id : PageId) (buf : Bytes) (msg : String) :
    Keeps view (writePage id buf msg) := fun t => by
  apply (writePage_cases t id buf msg).mono
  · rintro _ _ ⟨-, rest, rfl⟩
    exact blind t _ t.nextId t.freeList t.commitRetired rest _
  · rintro _ _ ⟨-, rfl | ⟨junk, rest, rfl⟩⟩
    · rfl
    · exact blind t _ t.nextId t.freeList t.commitRetired rest _

theorem appendPage_keeps (buf : Bytes) : Keeps view (appendPage buf) := fun t => by
  refine Ends.get ?_
  split
  · next id rest _ =>
    have popped := blind t t.pages t.nextId rest t.commitRetired t.faults t.writes
    refine Ends.bind (ends_set.mpr ?_)
    exact (Keeps.bind (writePage_keeps blind _ _ _) (fun _ => keeps_pure) _).mono (fun _ _ same => same.trans popped)
      fun _ _ same => same.trans popped
  · refine Keeps.bind (writePage_keeps blind _ _ _) (fun _ s => ends_modifyGet.mpr ?_) _
    exact blind s s.pages (s.nextId + 1) s.freeList s.commitRetired s.faults s.writes

theorem retire_keeps (id : PageId) : Keeps view (retire id) := fun t =>
  blind t t.pages t.nextId t.freeList (t.commitRetired ++ [id]) t.faults t.writes

private theorem appendTwo_keeps (old : PageId) (lb rb : Bytes) {α : Type} (result : PageId → PageId → α) :
    Keeps view (do retire old; let lid ← appendPage lb; let rid ← appendPage rb; return result lid rid) :=
  .bind (retire_keeps blind _) fun _ => .bind (appendPage_keeps blind _) fun _ =>
    .bind (appendPage_keeps blind _) fun _ => keeps_pure

variable [Digest]

omit blind in
theorem read_keeps (r : PageRef) : Keeps view (read r) := fun t => by
  unfold Ends read
  cases t.readNodeVerified r <;> rfl

private theorem rewriteLeaf_keeps (old : PageId) (entries : List Entry) : Keeps view (rewriteLeaf old entries) := by
  unfold rewriteLeaf splitLeaf
  split
  · exact .bind (retire_keeps blind _) fun _ => .bind (appendPage_keeps blind _) fun _ => keeps_pure
  · dsimp only
    split
    · exact keeps_throw
    · split
      · exact appendTwo_keeps blind _ _ _ _
      · exact keeps_throw

private theorem rewriteInternal_keeps (old : PageId) (children : List PageRef) (keys : List Key) :
    Keeps view (rewriteInternal old children keys) := by
  unfold rewriteInternal splitInternal
  split
  · exact .bind (retire_keeps blind _) fun _ => .bind (appendPage_keeps blind _) fun _ => keeps_pure
  · dsimp only
    split
    · exact appendTwo_keeps blind _ _ _ _
    · exact keeps_throw

private theorem modRec_keeps (k : Key) (val : Option Bytes) (fuel : Nat) (r : PageRef) :
    Keeps view (modRec k val fuel r) := by
  induction fuel generalizing r with
  | zero => exact keeps_throw
  | succ fuel ih =>
    refine .bind (read_keeps r) fun n => ?_
    cases n with
    | leaf entries => exact rewriteLeaf_keeps blind _ _
    | internal children keys => exact .bind (ih _) fun _ => rewriteInternal_keeps blind _ _ _

end Views

section Roots
variable [Digest]

/-- Both updates of a tree by name of their value: none removes the key. -/
def assign (k : Key) : Option Bytes → TreeM Unit
  | some v => put k v
  | none => erase k

/-- An update edits the tree below the root and then moves the root: to the page the
edit left, or to a new page over the two halves of a split. -/
theorem ends_assign (k : Key) (val : Option Bytes) (edited : Ends (modRec k val t.maxDepth t.root) t (fun out m =>
      (out.2 = none → Q () { m with rootId := out.1.id, rootHash := out.1.hash }) ∧
      ∀ sep right, out.2 = some (sep, right) → (∀ e, E e m) ∧
        ∀ page, encodeNode (.internal [out.1, right] [sep]) = some page → Ends (appendPage page) m
          (fun id m' => Q () { m' with rootId := id, rootHash := internalHash [out.1, right], rootIsLeaf := false })
            E) E) :
    Ends (assign k val) t Q E := by
  cases val with
  | none =>
    refine Ends.get (edited.seq ?_)
    rintro ⟨nr, _ | ⟨sep, right⟩⟩ m ⟨whole, halves⟩
    · exact whole rfl
    · exact (halves sep right rfl).1 _
  | some v =>
    refine Ends.get (edited.seq ?_)
    rintro ⟨nr, _ | ⟨sep, right⟩⟩ m ⟨whole, halves⟩
    · exact whole rfl
    · obtain ⟨fails, grows⟩ := halves sep right rfl
      dsimp only
      split
      · rename_i page encoded
        exact Ends.bind (grows page encoded)
      · exact fails _

theorem assign_keeps_overlay (k : Key) (val : Option Bytes) : Keeps overlayView (assign k val) := fun t =>
  ends_assign k val ((modRec_keeps overlayView_blind k val _ _ t).mono (fun _ m same => ⟨fun _ => same, fun _ _ _ =>
    ⟨fun _ => same, fun page _ => (appendPage_keeps overlayView_blind page m).mono (fun _ _ more => more.trans same)
      fun _ _ more => more.trans same⟩⟩) fun _ _ => id)

theorem assign_error_root (k : Key) (val : Option Bytes) (failed : assign k val t = .error e t') :
    t'.root = t.root := by
  refine Ends.of_error (Q := fun _ _ => True) (E := fun _ t' => t'.root = t.root) (ends_assign k val ?_) failed
  refine (modRec_keeps root_blind k val _ _ t).mono
    (fun _ m same => ⟨fun _ => trivial, fun _ _ _ => ⟨fun _ => same, ?_⟩⟩)
    fun _ _ => id
  exact fun page _ => (appendPage_keeps root_blind page m).mono (fun _ _ _ => trivial) fun _ _ more => more.trans same

end Roots

/-! ## Well-formed trees -/

/-- Pages used once each and below the end of the file are at most as many as the file has. -/
theorem length_le_nextId (live : ∀ s ∈ refs, ¬Free t s.id) (nodup : (ids refs).Nodup) :
    refs.length ≤ t.nextId.toNat := by
  have distinct : ((ids refs).map UInt32.toNat).Nodup := nodup.map fun _ _ => UInt32.toNat_inj.mp
  have inside : (ids refs).map UInt32.toNat ⊆ List.range t.nextId.toNat := by
    intro n member
    obtain ⟨id, inIds, rfl⟩ := List.mem_map.mp member
    obtain ⟨s, inRefs, rfl⟩ := List.mem_map.mp inIds
    exact List.mem_range.mpr (UInt32.lt_iff_toNat_lt.mp (not_free_lt (live s inRefs)))
  simpa [ids] using (distinct.subperm inside).length_le

private theorem Grows.withRoot (grows : Grows t t') (r : PageRef) (leaf : Bool) :
    Grows t { t' with rootId := r.id, rootHash := r.hash, rootIsLeaf := leaf } :=
  grows.sameFile ⟨rfl, rfl, rfl, rfl, rfl⟩

section
variable (reworked : Reworked t old t' new ret) (live : ∀ s ∈ old, ¬Free t s.id)
include reworked live

theorem Reworked.alive : ∀ s ∈ new, ¬Free t' s.id := by
  intro s member
  rcases reworked.kept s member with ⟨still, -⟩ | fresh
  · exact fun free => live s still (reworked.grows.free _ free)
  · exact fresh.2

/-- Adding a root above a rewritten tree. -/
theorem Reworked.grow (grows : Grows t' t'')
    (fresh : Fresh t' t'' r.id) (retired : t''.commitRetired = t'.commitRetired) :
    Reworked t old t'' (r :: new) ret where
  grows := reworked.grows.trans grows
  retired := retired.trans reworked.retired
  fromOld := reworked.fromOld
  kept s member := by
    rcases List.mem_cons.mp member with rfl | inside
    · exact .inr (fresh.earlier reworked.grows)
    · exact (reworked.kept s inside).imp_right fun early => early.later grows
  nodup := List.nodup_cons.mpr ⟨fresh.not_mem (reworked.alive live), reworked.nodup⟩

end

private theorem Chain.only {ys : List (Extent Key Bytes PageRef)} (chain : Chain P lo hi [] [r] ys) :
    ∃ y, ys = [y] ∧ P lo hi r y := by
  cases chain with
  | last only => exact ⟨_, rfl, only⟩

/-- A tree over pages of the file is shallower than every bound the walks put on it. -/
theorem depth_lt {view : PageRef → Option Node} (alloc : Alloc t) (holds : Holds view d ⊥ ⊤ r x)
    (live : ∀ s ∈ x.refs, ¬Free t s.id) (nodup : (ids x.refs).Nodup) : d < t.maxDepth ∧ d < 32 := by
  have pages := length_le_nextId live nodup
  have width := holds.two_pow_le
  have reach := alloc.reach
  have small := alloc.small
  refine ⟨?_, (Nat.pow_lt_pow_iff_right (by omega : 1 < 2)).mp (by omega)⟩
  have := d.lt_two_pow_self
  unfold maxDepth
  omega

section Trees
variable [Digest] {t t' : BTree} {d : Nat} {x : Extent Key Bytes PageRef}

/-- The current root stands for the extent `x`, over live pages used once each. -/
structure Rooted (t : BTree) (d : Nat) (x : Extent Key Bytes PageRef) : Prop where
  alloc : Alloc t
  holds : Holds t.disk d ⊥ ⊤ t.root x
  live : ∀ s ∈ x.refs, ¬Free t s.id
  nodup : (ids x.refs).Nodup

theorem Rooted.depth (rooted : Rooted t d x) : d < t.maxDepth ∧ d < 32 :=
  depth_lt rooted.alloc rooted.holds rooted.live rooted.nodup

/-! ## Lookups and traversals -/

theorem getLoop_spec {k : Key} {guard : Nat} (holds : Holds t.rd d lo hi r x) (lower : lo ≤ (k : WithBot Key))
    (upper : (k : WithTop Key) < hi) (deep : d < guard) : t.getLoop k guard r = .ok (Entries.find x.entries k) := by
  induction d generalizing lo hi r x guard with
  | zero =>
    obtain ⟨guard, rfl⟩ := Nat.exists_eq_add_of_lt deep
    obtain ⟨entries, found, -, -, rfl⟩ := holds
    simp only [getLoop, rd_eq_some.mp found, bind, Except.bind]
    rfl
  | succ d ih =>
    obtain ⟨guard, rfl⟩ := Nat.exists_eq_add_of_lt deep
    obtain ⟨rs, ks, c, a, b, y, found, child, held, above, below, answer, -⟩ := holds.descend lower upper
    have entered := childAt_of_getElem? child
    simp only [getLoop, rd_eq_some.mp found, bind, Except.bind, entered, answer]
    exact ih held above below (by omega)

theorem Rooted.get (rooted : Rooted t d x) (plain : Plain t) (k : Key) : t.get k = .ok (Entries.find x.entries k) :=
  getLoop_spec (rd_of_plain plain ▸ rooted.holds) bot_le (WithTop.coe_lt_top k) (by have := rooted.depth.2; omega)

private theorem mapM_chain (chain : Chain (Holds t.rd d) lo hi ks rs xs)
    (each : ∀ {lo hi r x}, Holds t.rd d lo hi r x → t.collectRec fuel r = .ok x.entries) :
    rs.mapM (t.collectRec fuel) = .ok (xs.map Extent.entries) := by
  induction chain with
  | last only => simp [each only, pure, Except.pure, bind, Except.bind]
  | cons head above below tail ih => rw [List.mapM_cons, each head, ih]; rfl

theorem collectRec_spec (holds : Holds t.rd d lo hi r x) (deep : d < fuel) : t.collectRec fuel r = .ok x.entries := by
  induction d generalizing lo hi r x fuel with
  | zero =>
    obtain ⟨fuel, rfl⟩ := Nat.exists_eq_add_of_lt deep
    obtain ⟨entries, found, -, -, rfl⟩ := holds
    simp only [collectRec, rd_eq_some.mp found, bind, Except.bind]
    rfl
  | succ d ih =>
    obtain ⟨fuel, rfl⟩ := Nat.exists_eq_add_of_lt deep
    obtain ⟨rs, ks, xs, found, -, chain, rfl⟩ := holds
    simp only [collectRec, rd_eq_some.mp found, bind, Except.bind]
    rw [mapM_chain chain fun held => ih held (by omega)]
    rfl

theorem Rooted.collectAll (rooted : Rooted t d x) (plain : Plain t) : t.collectAll = .ok x.entries :=
  collectRec_spec (rd_of_plain plain ▸ rooted.holds) rooted.depth.1

/-! ## Updates -/

/-- A rewritten subtree becomes the whole tree. -/
theorem Reworked.rooted (reworked : Reworked t old t' x.refs ret) (leaf : Bool) (live : ∀ s ∈ old, ¬Free t s.id)
    (holds : Holds t'.disk d ⊥ ⊤ r x) : Rooted { t' with rootId := r.id, rootHash := r.hash, rootIsLeaf := leaf } d x ∧
      Reworked t old { t' with rootId := r.id, rootHash := r.hash, rootIsLeaf := leaf } x.refs ret :=
  ⟨⟨(reworked.grows.withRoot r leaf).alloc, holds, reworked.alive live, reworked.nodup⟩,
    ⟨reworked.grows.withRoot r leaf, reworked.retired, reworked.fromOld, reworked.kept, reworked.nodup⟩⟩

/-- What a successful update makes of a well-formed tree. -/
def Updated (t : BTree) (x : Extent Key Bytes PageRef) (entries : List Entry) (t' : BTree) : Prop :=
  ∃ d' x' ret, Rooted t' d' x' ∧ x'.entries = entries ∧ Reworked t x.refs t' x'.refs ret

theorem assign_spec (rooted : Rooted t d x) (plain : Plain t) (k : Key) (val : Option Bytes) :
    Ends (assign k val) t (fun _ t' => Updated t x (editEntries k val x.entries) t')
      (fun _ t' => Stopped t x.refs t') := by
  refine ends_assign k val ((modRec_spec rooted.alloc plain rooted.holds rooted.live rooted.nodup
    bot_le (WithTop.coe_lt_top k) rooted.depth.1).imp ?_)
  rintro ⟨nr, split⟩ m ⟨ys, ret, chain, entries, reworked⟩
  refine ⟨?_, ?_⟩
  · rintro rfl
    obtain ⟨y, rfl, holds⟩ := Chain.only chain
    simp only [Extent.join_cons_refs, Extent.join_nil, List.append_nil, Extent.join_cons_entries] at reworked entries
    obtain ⟨standing, replaced⟩ := reworked.rooted m.rootIsLeaf rooted.live holds
    exact ⟨d, y, ret, standing, entries, replaced⟩
  · rintro sep right rfl
    refine ⟨fun _ => ⟨reworked.grows, ret, reworked.retired, reworked.fromOld⟩, fun page encoded => ?_⟩
    refine (appendNode_spec reworked.grows.alloc (.internal [nr, right] [sep]) rfl encoded).mono ?_ ?_
    · rintro id m' ⟨grows, fresh, read, retired⟩
      have alive := reworked.alive rooted.live
      have grown := reworked.grow (r := ⟨id, internalHash [nr, right]⟩) rooted.live grows fresh retired
      have holds : Holds m'.disk (d + 1) ⊥ ⊤ ⟨id, internalHash [nr, right]⟩
          ⟨(Extent.join ys).entries, ⟨id, internalHash [nr, right]⟩ :: (Extent.join ys).refs⟩ :=
        ⟨_, _, ys, read, by simp, chain.frame fun s member => grows.disk (alive s member), rfl⟩
      obtain ⟨standing, replaced⟩ := Reworked.rooted grown false rooted.live holds
      exact ⟨d + 1, _, ret, standing, entries, replaced⟩
    · rintro _ m' ⟨-, grows, retired⟩
      exact ⟨reworked.grows.trans grows, ret, retired.trans reworked.retired, reworked.fromOld⟩

end Trees
end BTree
end Innova.Store3A
