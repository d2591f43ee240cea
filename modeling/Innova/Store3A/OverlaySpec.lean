import Innova.Lib.TreeShape
import Innova.Store3A.Overlay
import Innova.Store3A.TreeMap

/-! What the batch overlay does. While a batch is open the pages stay as they are and
the tree a reader sees changes as a sorted list does (`Overlaid`). Finalizing writes
the edited nodes to fresh pages and leaves a plain tree with the same entries. -/
namespace Innova.Store3A
open Lib Lib.PagedTree Chainstate

namespace BTree
variable {t t' : BTree}

/-! ## Overlay entries -/

private theorem isDirty_eq (t : BTree) (id : PageId) : isDirty t.ov id = (t.ovEnt id).dirty := by
  rw [isDirty, ovEnt]
  cases t.ov.lookup id <;> rfl

theorem overlayNode_of_on (on : t.overlayOn = true) (id : PageId) : t.overlayNode id = (t.ovEnt id).n := by
  rw [overlayNode, if_pos on, ovEnt]
  cases t.ov.lookup id <;> rfl

private theorem ovEnt_withEnt (t : BTree) (id : PageId) (ent : OverlayEnt) (j : PageId) :
    (t.withEnt id ent).ovEnt j = if j = id then ent else t.ovEnt j := by
  by_cases same : j = id
  · subst same; simp [ovEnt, withEnt]
  · simp [ovEnt, withEnt, same, AList.lookup_insert_ne same]

private theorem relink_eq (t : BTree) (c : PageRef) :
    relink t.ov c = if (t.ovEnt c.id).done then ⟨(t.ovEnt c.id).newId, (t.ovEnt c.id).newHash⟩ else c := by
  rw [relink, ovEnt]
  cases t.ov.lookup c.id <;> rfl

private theorem relink_congr (same : t'.ovEnt r.id = t.ovEnt r.id) : relink t'.ov r = relink t.ov r := by
  rw [relink_eq, relink_eq, same]

/-- The edits wait in memory: none is emitted yet, and every marked node is loaded. -/
structure Pending (t : BTree) : Prop where
  on : t.overlayOn = true
  waiting : ∀ id, (t.ovEnt id).done = false
  loaded : ∀ id, (t.ovEnt id).dirty = true → (t.ovEnt id).n.isSome

/-- Only the overlay entries differ. -/
def SamePages (t t' : BTree) : Prop := ∃ ov, t' = { t with ov := ov }

private theorem samePages_withEnt (t : BTree) (id : PageId) (ent : OverlayEnt) :
    SamePages t (t.withEnt id ent) := ⟨_, rfl⟩

/-- A step that keeps an entry unemitted, and loaded where it is marked, keeps the edits waiting. -/
theorem Pending.withEnt (pending : Pending t) {id : PageId} (waiting : ent.done = false)
    (loaded : ent.dirty = true → ent.n.isSome) : Pending (t.withEnt id ent) := by
  refine ⟨pending.on, fun j => ?_, fun j => ?_⟩
  · rw [ovEnt_withEnt]
    split
    · exact waiting
    · exact pending.waiting j
  · rw [ovEnt_withEnt]
    split
    · exact loaded
    · exact pending.loaded j

private theorem eq_of_id_eq (nodup : (ids refs).Nodup) (one : r ∈ refs) (two : s ∈ refs) (same : s.id = r.id) : s = r :=
  List.inj_on_of_nodup_map nodup two one same

private theorem SamePages.trans (first : SamePages t t') (second : SamePages t' t'') : SamePages t t'' := by
  obtain ⟨one, rfl⟩ := first
  obtain ⟨two, rfl⟩ := second
  exact ⟨two, rfl⟩

theorem SamePages.file (same : SamePages t t') : SameFile t t' := by
  obtain ⟨ov, rfl⟩ := same
  exact ⟨rfl, rfl, rfl, rfl, rfl⟩

theorem SamePages.root (same : SamePages t t') : t'.root = t.root := by
  obtain ⟨ov, rfl⟩ := same
  rfl

section Loads
variable [Digest] {refs : List PageRef}

private theorem rd_of_on (on : t.overlayOn = true) (r : PageRef) : t.rd r = (t.ovEnt r.id).n.or (t.disk r) := by
  refine Option.ext fun n => ?_
  rw [rd_eq_some, readNodeVerified, overlayNode_of_on on]
  cases (t.ovEnt r.id).n with
  | some m => simp
  | none => simp [readAuthentic_eq_ok]

/-- A marked node is read from memory. -/
theorem Pending.node (pending : Pending t) (marked : (t.ovEnt r.id).dirty = true) (found : t.rd r = some n) :
    (t.ovEnt r.id).n = some n := by
  obtain ⟨m, cached⟩ := Option.isSome_iff_exists.mp (pending.loaded r.id marked)
  rw [rd_of_on pending.on, cached] at found
  rw [cached]
  exact found

private theorem rd_withEnt (on : t.overlayOn = true) (id : PageId) (ent : OverlayEnt) (s : PageRef) :
    (t.withEnt id ent).rd s = if s.id = id then ent.n.or (t.disk s) else t.rd s := by
  rw [rd_of_on (t := t.withEnt id ent) on, rd_of_on on, ovEnt_withEnt]
  split <;> rfl

/-- More nodes of the tree may be loaded; nothing else about the overlay changed. -/
structure Loaded (refs : List PageRef) (t t' : BTree) : Prop where
  pages : SamePages t t'
  view : ∀ s ∈ refs, t'.rd s = t.rd s
  marks : ∀ id, (t'.ovEnt id).dirty = (t.ovEnt id).dirty
  pending : Pending t'

private theorem Loaded.refl (pending : Pending t) : Loaded refs t t :=
  ⟨⟨t.ov, rfl⟩, fun _ _ => rfl, fun _ => rfl, pending⟩

private theorem Loaded.trans (first : Loaded refs t t') (second : Loaded refs t' t'') : Loaded refs t t'' where
  pages := first.pages.trans second.pages
  view s member := (second.view s member).trans (first.view s member)
  marks id := (second.marks id).trans (first.marks id)
  pending := second.pending

private theorem loadOverlay_spec (pending : Pending t) (nodup : (ids refs).Nodup) (member : r ∈ refs)
    (found : t.rd r = some n) :
    Ends (loadOverlay r) t (fun m t' => m = n ∧ Loaded refs t t' ∧ (t'.ovEnt r.id).n.isSome ∧
      ∀ id, (t.ovEnt id).n.isSome → (t'.ovEnt id).n.isSome) E := by
  rw [rd_of_on pending.on] at found
  unfold Ends loadOverlay
  cases cached : (t.ovEnt r.id).n with
  | some m =>
    rw [cached] at found
    cases found
    exact ⟨rfl, .refl pending, by simp [cached], fun _ => id⟩
  | none =>
    rw [cached, Option.none_or] at found
    simp only [readAuthentic_eq_ok.mpr found]
    refine ⟨trivial,
      ⟨samePages_withEnt .., fun s inside => ?_, fun id => ?_, pending.withEnt (pending.waiting _) (by simp)⟩,
      by simp [ovEnt_withEnt], fun id => ?_⟩
    · rw [rd_withEnt pending.on]
      split
      · next here =>
        obtain rfl := eq_of_id_eq nodup member inside here
        rw [rd_of_on pending.on, cached, found]
        rfl
      · rfl
    · rw [ovEnt_withEnt]; split <;> simp [*]
    · rw [ovEnt_withEnt]; split <;> simp

/-- The descent reaches the leaf of `k` with every node on its way loaded. -/
theorem overlayDescend_spec {α : Type} {Q : α → BTree → Prop} {d guard : Nat}
    {lo : WithBot Key} {hi : WithTop Key} {x : Extent Key Bytes PageRef} {k : Key} {path : List PageId}
    {act : PageId → List Entry → List PageId → TreeM α} {t0 : BTree}
    (nodup : (ids refs).Nodup) (holds : Holds t0.rd d lo hi r x) (inside : ∀ s ∈ x.refs, s ∈ refs)
    (lower : lo ≤ (k : WithBot Key)) (upper : (k : WithTop Key) < hi) (deep : d < guard)
    (loads : Loaded refs t0 t) (cached : ∀ id ∈ path, (t.ovEnt id).n.isSome)
    (atLeaf : ∀ {trail leaf es t'}, Search t0.rd k d r trail leaf es → Entries.find x.entries k = Entries.find es k →
      Loaded refs t0 t' → (∀ id ∈ path ++ ids trail, (t'.ovEnt id).n.isSome) →
        Ends (act leaf.id es (path ++ ids trail)) t' Q E) :
    Ends (overlayDescend k act guard path r) t Q E := by
  induction d generalizing lo hi r x guard path t with
  | zero =>
    obtain ⟨guard, rfl⟩ := Nat.exists_eq_add_of_lt deep
    obtain ⟨es, found, -, -, rfl⟩ := holds
    have member := inside r (by simp)
    refine (loadOverlay_spec loads.pending nodup member ((loads.view r member).trans found)).seq ?_
    rintro _ t' ⟨rfl, more, here, still⟩
    refine atLeaf (.leaf found) rfl (loads.trans more) fun id passed => ?_
    rcases List.mem_append.mp passed with early | last
    · exact still id (cached id early)
    · cases List.mem_singleton.mp last; exact here
  | succ d ih =>
    obtain ⟨guard, rfl⟩ := Nat.exists_eq_add_of_lt deep
    obtain ⟨rs, ks, c, a, b, y, found, child, held, above, below, answer, within⟩ := holds.descend lower upper
    have member := inside r holds.root_mem
    have entered := childAt_of_getElem? child
    refine (loadOverlay_spec loads.pending nodup member ((loads.view r member).trans found)).seq ?_
    rintro _ t' ⟨rfl, more, here, still⟩
    simp only [entered]
    refine ih held (fun s deeper => inside s (within s deeper)) above below (by omega)
      (loads.trans more) (fun id passed => ?_)
      fun search same later loaded => ?_
    · rcases List.mem_append.mp passed with early | last
      · exact still id (cached id early)
      · cases List.mem_singleton.mp last; exact here
    · have := atLeaf (.step found child search) (answer.trans same) later (by simpa using loaded)
      simpa using this

private theorem markDirty_spec (pending : Pending t) (cached : ∀ id ∈ path, (t.ovEnt id).n.isSome) :
    Ends (markDirty path) t (fun _ t' => SamePages t t' ∧ t'.rd = t.rd ∧ Pending t' ∧
      ∀ id, (t'.ovEnt id).dirty = true ↔ (t.ovEnt id).dirty = true ∨ id ∈ path) E := by
  induction path generalizing t with
  | nil => exact ⟨⟨t.ov, rfl⟩, rfl, pending, by simp⟩
  | cons first path ih =>
    have here := cached first (by simp)
    have next : Pending (t.withEnt first { t.ovEnt first with dirty := true }) :=
      pending.withEnt (pending.waiting first) fun _ => here
    refine Ends.get (Ends.bind ((ih next fun j member => ?_).imp ?_))
    · rw [ovEnt_withEnt]
      split
      · exact here
      · exact cached j (by simp [member])
    · rintro _ t' ⟨same, view, later, marks⟩
      refine ⟨(samePages_withEnt ..).trans same, view.trans (funext fun s => ?_), later, fun j => ?_⟩
      · rw [rd_withEnt pending.on, rd_of_on pending.on]
        split
        · next there => rw [there]
        · rfl
      · rw [marks, ovEnt_withEnt]
        by_cases there : j = first <;> simp [there]

/-- An open batch: the edited tree a reader sees, over pages that are all still in place. -/
structure Overlaid (t : BTree) (d : Nat) (x : Extent Key Bytes PageRef) : Prop where
  pending : Pending t
  alloc : Alloc t
  edited : Edited t.rd t.disk (fun s => (t.ovEnt s.id).dirty = true) d ⊥ ⊤ t.root x
  /-- The pages themselves still hold the tree the last finalize left. -/
  stored : ∃ entries, Holds t.disk d ⊥ ⊤ t.root ⟨entries, x.refs⟩
  live : ∀ s ∈ x.refs, ¬Free t s.id
  nodup : (ids x.refs).Nodup

section
variable (overlaid : Overlaid t d x)
include overlaid

theorem Overlaid.depth : d < t.maxDepth ∧ d < 32 :=
  depth_lt overlaid.alloc overlaid.edited.holds overlaid.live overlaid.nodup

/-- Loading nodes of the tree changes nothing a reader sees. -/
theorem Overlaid.loaded (loads : Loaded x.refs t t') : Overlaid t' d x where
  pending := loads.pending
  alloc := loads.pages.file.alloc overlaid.alloc
  edited := by
    rw [loads.pages.root]
    refine overlaid.edited.frame loads.view (fun _ _ => by rw [loads.pages.file.disk]) fun s _ => ?_
    rw [loads.marks]
  stored := by
    rw [loads.pages.root, loads.pages.file.disk]
    exact overlaid.stored
  live s member := (loads.pages.file.free _).not.mpr (overlaid.live s member)
  nodup := overlaid.nodup

/-- Replacing the leaf of `k` and marking the way to it. -/
theorem Overlaid.mark {k : Key} (new : List Entry)
    (search : Search t.rd k d t.root trail leaf es) (loads : Loaded x.refs t m)
    (cached : ∀ id ∈ ids trail, (m.ovEnt id).n.isSome) :
    Ends (markDirty (ids trail)) (m.withEnt leaf.id { m.ovEnt leaf.id with n := some (.leaf new) })
      (fun _ t' => SamePages t t' ∧ Pending t' ∧ t'.rd leaf = some (.leaf new) ∧
        (∀ s ∈ x.refs, s ≠ leaf → t'.rd s = t.rd s) ∧
        ∀ s ∈ x.refs, (t'.ovEnt s.id).dirty = true ↔ (t.ovEnt s.id).dirty = true ∨ s ∈ trail) E := by
  obtain ⟨bottom, inside⟩ := search.inside overlaid.edited.holds
  have pending : Pending (m.withEnt leaf.id { m.ovEnt leaf.id with n := some (.leaf new) }) :=
    loads.pending.withEnt (loads.pending.waiting _) (by simp)
  refine (markDirty_spec pending fun id member => ?_).imp ?_
  · rw [ovEnt_withEnt]
    split
    · rfl
    · exact cached id member
  rintro _ t' ⟨same, view, later, marks⟩
  refine ⟨(loads.pages.trans (samePages_withEnt ..)).trans same, later, ?_, fun s member other =>
    ?_, fun s member => ?_⟩
  · rw [view, rd_withEnt loads.pending.on, if_pos rfl]
    rfl
  · have apart : s.id ≠ leaf.id := fun same => other (eq_of_id_eq overlaid.nodup (inside leaf bottom) member same)
    rw [view, rd_withEnt loads.pending.on, if_neg apart, loads.view s member]
  · have kept : ((m.withEnt leaf.id { m.ovEnt leaf.id with n := some (.leaf new) }).ovEnt s.id).dirty =
        (t.ovEnt s.id).dirty := by
      rw [← loads.marks, ovEnt_withEnt]
      split <;> simp [*]
    rw [marks, kept]
    refine or_congr_right ⟨fun found => ?_, mem_ids⟩
    obtain ⟨u, on, same⟩ := List.mem_map.mp found
    obtain rfl := eq_of_id_eq overlaid.nodup member (inside u on) same
    exact on

/-- It updates the tree at `k`. -/
theorem Overlaid.edit (val : Option Bytes) (search : Search t.rd k d t.root trail leaf es)
    (loads : Loaded x.refs t m) (cached : ∀ id ∈ ids trail, (m.ovEnt id).n.isSome) :
    Ends (markDirty (ids trail)) (m.withEnt leaf.id { m.ovEnt leaf.id with n := some (.leaf (editEntries k val es)) })
      (fun _ t' => SamePages t t' ∧ Overlaid t' d ⟨editEntries k val x.entries, x.refs⟩) E := by
  refine (overlaid.mark _ search loads cached).imp ?_
  rintro _ t' ⟨pages, later, here, elsewhere, marks⟩
  refine ⟨pages, later, pages.file.alloc overlaid.alloc, ?_, by rw [pages.root, pages.file.disk]; exact overlaid.stored,
    fun s member => (pages.file.free _).not.mpr (overlaid.live s member), overlaid.nodup⟩
  rw [pages.root, pages.file.disk]
  exact search.edit (editEntries_local k val) (fun sorted => editEntries_sorted sorted k val) mem_editEntries
    overlaid.edited (List.Nodup.of_map _ overlaid.nodup) bot_le (WithTop.coe_lt_top k) here elsewhere marks

/-- The descent of either operation starts at the root and fits its guard. -/
theorem Overlaid.descend (k : Key) {α : Type} {Q : α → BTree → Prop}
    {act : PageId → List Entry → List PageId → TreeM α}
    (atLeaf : ∀ {trail leaf es m}, Search t.rd k d t.root trail leaf es →
      Entries.find x.entries k = Entries.find es k → Loaded x.refs t m → (∀ id ∈ ids trail, (m.ovEnt id).n.isSome) →
      Ends (act leaf.id es (ids trail)) m Q E) : Ends (overlayDescend k act 64 [] t.root) t Q E :=
  overlayDescend_spec overlaid.nodup overlaid.edited.holds (fun _ member => member) bot_le (WithTop.coe_lt_top k)
    (by have := overlaid.depth.2; omega) (.refl overlaid.pending) (by simp) fun search same loads cached =>
      atLeaf search same loads cached

theorem overlayPut_spec (k : Key) (v : Bytes) : Ends (overlayPut k v) t
      (fun full t' => SamePages t t' ∧ Overlaid t' d (if full then x else ⟨Entries.insert x.entries k v, x.refs⟩))
      (fun _ t' => SamePages t t') := by
  refine Ends.get (overlaid.descend k ?_)
  intro trail leaf es m search _ loads cached
  unfold overlayPutAt
  split
  · exact ends_pure.mpr ⟨loads.pages, overlaid.loaded loads⟩
  · refine Ends.bind (show Ends _ (m.withEnt leaf.id _) _ _ from ?_)
    split
    · exact ends_throw.mpr (loads.pages.trans (samePages_withEnt ..))
    · refine (overlaid.edit (some v) search loads cached).seq ?_
      intro _ t' edited
      exact edited

theorem overlayErase_spec (k : Key) :
    Ends (overlayErase k) t (fun _ t' => SamePages t t' ∧ Overlaid t' d ⟨Entries.erase x.entries k, x.refs⟩)
      (fun _ t' => SamePages t t') := by
  refine Ends.get (overlaid.descend k ?_)
  intro trail leaf es m search same loads cached
  unfold overlayEraseAt
  split
  · exact Ends.bind (overlaid.edit none search loads cached)
  · next absent =>
    rw [Entries.present_eq, Bool.not_eq_true, Option.isSome_eq_false_iff, Option.isNone_iff_eq_none, ← same] at absent
    rw [Entries.erase_of_absent absent]
    exact ends_pure.mpr ⟨loads.pages, overlaid.loaded loads⟩

end

end Loads

/-! ## Finalizing -/

section Orders
variable {rd : PageRef → Option Node} {ov : Overlay} {acc : List PageId × List PageId}

/-- A walk from `acc` that appends `order` and enters pages of `refs` only. -/
def Appends (refs : List PageRef) (order : List PageRef) (acc acc' : List PageId × List PageId) : Prop :=
  acc'.2 = acc.2 ++ ids order ∧ ∀ id ∈ acc'.1, id ∈ acc.1 ∨ id ∈ ids refs

private theorem Appends.trans (first : Appends refs order acc acc') (second : Appends more rest acc' acc'') :
    Appends (refs ++ more) (order ++ rest) acc acc'' := by
  refine ⟨by rw [second.1, first.1, ids_append, List.append_assoc], fun id member => ?_⟩
  rw [ids_append, List.mem_append]
  rcases second.2 id member with early | inside
  · exact (first.2 id early).imp_right .inl
  · exact .inr (.inr inside)

/-- Entering one child: nothing if it is clean, else the walk below it. -/
theorem enter_appends {y : Extent Key Bytes PageRef} (marks : isDirty ov c.id = dirty c) (own : c ∈ y.refs)
    (nodup : (ids y.refs).Nodup) (unseen : ∀ s ∈ y.refs, s.id ∉ acc.1)
    (go : ∀ acc : List PageId × List PageId, dirty c = true → (∀ s ∈ y.refs, s ≠ c → s.id ∉ acc.1) →
      Appends y.refs (dirtyOrder rd dirty d c) acc (visit ov fuel c.id acc)) :
    Appends y.refs (([c].filter dirty).flatMap (dirtyOrder rd dirty d)) acc (enter ov (visit ov fuel) acc c) := by
  by_cases marked : dirty c = true
  · obtain ⟨order, within⟩ := go (c.id :: acc.1, acc.2) marked fun s member other => by
      have apart : s.id ≠ c.id := fun same => other (eq_of_id_eq nodup own member same)
      simp [apart, unseen s member]
    refine ⟨by simp [enter, marks, marked, unseen c own, order], fun id member => ?_⟩
    simp only [enter, marks, marked, unseen c own, List.contains_eq_mem, decide_false, Bool.not_false, Bool.and_true,
      if_true] at member
    rcases within id member with early | inside
    · rcases List.mem_cons.mp early with rfl | before
      · exact .inr (mem_ids own)
      · exact .inl before
    · exact .inr inside
  · exact ⟨by simp [enter, marks, marked], fun id member => .inl (by simpa [enter, marks, marked] using member)⟩

private theorem visit_children {xs : List (Extent Key Bytes PageRef)} (marks : ∀ s, isDirty ov s.id = dirty s)
    (own : ∀ {lo hi c y}, P lo hi c y → c ∈ y.refs) (chain : Chain P lo hi ks rs xs)
    (nodup : (ids (Extent.join xs).refs).Nodup) (unseen : ∀ s ∈ (Extent.join xs).refs, s.id ∉ acc.1)
    (go : ∀ {lo hi c y} {acc : List PageId × List PageId}, P lo hi c y → dirty c = true → (ids y.refs).Nodup →
      (∀ s ∈ y.refs, s ≠ c → s.id ∉ acc.1) → Appends y.refs (dirtyOrder rd dirty d c) acc (visit ov fuel c.id acc)) :
    Appends (Extent.join xs).refs ((rs.filter dirty).flatMap (dirtyOrder rd dirty d)) acc
      (rs.foldl (enter ov (visit ov fuel)) acc) := by
  induction chain generalizing acc with
  | last only =>
    simp only [Extent.join_cons_refs, Extent.join_nil, List.append_nil] at nodup unseen ⊢
    exact enter_appends (marks _) (own only) nodup unseen fun _ marked later => go only marked nodup later
  | @cons lo hi m ks c rs y xs head above below tail ih =>
    simp only [Extent.join_cons_refs, ids_append, List.nodup_append, List.mem_append] at nodup unseen ⊢
    obtain ⟨nodupHead, nodupTail, apart⟩ := nodup
    have first := enter_appends (marks c) (own head) nodupHead (fun s member => unseen s (.inl member))
      fun _ marked later => go head marked nodupHead later
    have rest := ih nodupTail fun s member seen => by
      rcases first.2 _ seen with early | inside
      · exact unseen s (.inr member) early
      · exact apart _ inside _ (mem_ids member) rfl
    have both := first.trans rest
    rwa [← List.flatMap_append, ← List.filter_append] at both

/-- The walk from a dirty node emits the dirty nodes of its subtree in order. -/
theorem visit_spec (marks : ∀ s, isDirty ov s.id = dirty s)
    (nodes : ∀ s n, dirty s = true → rd s = some n → ∃ ent, ov.lookup s.id = some ent ∧ ent.n = some n)
    (edited : Edited rd base (fun s => dirty s = true) d lo hi r x) (marked : dirty r = true)
    (nodup : (ids x.refs).Nodup) (unseen : ∀ s ∈ x.refs, s ≠ r → s.id ∉ acc.1) (deep : d < fuel) :
    Appends x.refs (dirtyOrder rd dirty d r) acc (visit ov fuel r.id acc) := by
  induction d generalizing lo hi r x acc fuel with
  | zero =>
    obtain ⟨fuel, rfl⟩ := Nat.exists_eq_add_of_lt deep
    obtain ⟨⟨es, found, -, -, rfl⟩, -⟩ := edited
    obtain ⟨ent, entry, node⟩ := nodes r _ marked found
    constructor
    · simp [visit, entry, node, dirtyOrder]
    · intro id member
      simp only [visit, entry, node] at member
      exact .inl member
  | succ d ih =>
    obtain ⟨fuel, rfl⟩ := Nat.exists_eq_add_of_lt deep
    obtain ⟨rs, ks, xs, found, -, -, chain, rfl⟩ := edited
    obtain ⟨ent, entry, node⟩ := nodes r _ marked found
    simp only [ids_cons, List.nodup_cons] at nodup
    have below : Appends (Extent.join xs).refs ((rs.filter dirty).flatMap (dirtyOrder rd dirty d)) acc
        (rs.foldl (enter ov (visit ov (d + 1 + fuel))) acc) :=
      visit_children marks (fun held => held.1.holds.root_mem) chain nodup.2
        (fun s member => unseen s (by simp [member]) ?_) fun held marked nodup later =>
          ih held.1 marked nodup later (by omega)
    · constructor
      · simp [visit, entry, node, dirtyOrder, found, below.1]
      · intro id member
        simp only [visit, entry, node] at member
        exact (below.2 id member).imp_right fun inside => by simp [inside]
    · rintro rfl
      exact nodup.1 (mem_ids member)

end Orders

private theorem ovEnt_of_view (same : overlayView t' = overlayView t) : t'.ovEnt = t.ovEnt := by
  simp only [overlayView, Prod.mk.injEq] at same
  funext id
  rw [ovEnt, ovEnt, same.1]

private theorem Grows.abort (grows : Grows t t') : Grows t t'.abortOverlay := grows.sameFile ⟨rfl, rfl, rfl, rfl, rfl⟩

private theorem Reworked.abort (reworked : Reworked t old t' new ret) : Reworked t old t'.abortOverlay new ret :=
  ⟨reworked.grows.abort, reworked.retired, reworked.fromOld, reworked.kept, reworked.nodup⟩

/-- No batch is open. -/
def Closed (t : BTree) : Prop := t.ov = ∅ ∧ t.overlayOn = false

theorem Closed.of_view (closed : Closed t) (same : overlayView t' = overlayView t) : Closed t' := by
  simp only [overlayView, Prod.mk.injEq] at same
  exact ⟨same.1.trans closed.1, same.2.1.trans closed.2⟩

theorem Closed.plain (closed : Closed t) : Plain t := fun id => by
  rw [overlayNode, closed.2, if_neg Bool.false_ne_true]

private theorem Grows.withEnt (grows : Grows t t') (id : PageId) (ent : OverlayEnt) : Grows t (t'.withEnt id ent) :=
  grows.sameFile ⟨rfl, rfl, rfl, rfl, rfl⟩

/-- A subtree of the open batch was written out: its pages `old` became `new`. -/
structure Emitted (t : BTree) (old : List PageRef) (t' : BTree) (new : List PageRef) : Prop where
  reworked : ∃ ret, Reworked t old t' new ret
  others : ∀ id, id ∉ ids old → t'.ovEnt id = t.ovEnt id

private theorem Emitted.refl (alloc : Alloc t) (nodup : (ids old).Nodup) : Emitted t old t old :=
  ⟨⟨[], .refl alloc, by simp, by simp, fun _ member => .inl ⟨member, by simp⟩, nodup⟩, fun _ _ => rfl⟩

private theorem Stopped.append (first : Emitted t old t1 new) (second : Stopped t1 more t2) :
    Stopped t (old ++ more) t2 := by
  obtain ⟨ret, one⟩ := first.reworked
  obtain ⟨grows, ret', retired, fromMore⟩ := second
  refine ⟨one.grows.trans grows, ret ++ ret', by rw [retired, one.retired, List.append_assoc], fun id member => ?_⟩
  rw [ids_append]
  exact (List.mem_append.mp member).elim (fun early => List.mem_append_left _ (one.fromOld id early))
    fun late => List.mem_append_right _ (fromMore id late)

section Emission
variable [Digest] {d : Nat} {lo : WithBot Key} {hi : WithTop Key}

/-- One emitted node: a fresh page holds it over its children's new pages. -/
theorem emit_spec (alloc : Alloc t) {id : PageId} (dirty : (t.ovEnt id).dirty = true)
    (waiting : (t.ovEnt id).done = false) (final : finalNode t.ov (t.ovEnt id) = n) (shaped : Shaped n) :
    Ends (emit id) t
      (fun _ t' => Grows t t' ∧ t'.commitRetired = t.commitRetired ++ [id] ∧ (∀ j, j ≠ id → t'.ovEnt j = t.ovEnt j) ∧
        ∃ nid, Fresh t t' nid ∧ t'.disk ⟨nid, nodeHash n⟩ = some n ∧ (t'.ovEnt id).done = true ∧
          (t'.ovEnt id).newId = nid ∧ (t'.ovEnt id).newHash = nodeHash n)
      (fun e t' => (e.code = .io ∨ pageSize < nodeSize n) ∧ Grows t t' ∧ t'.commitRetired = t.commitRetired) := by
  refine Ends.get ?_
  simp only [dirty, waiting, Bool.not_false, Bool.and_self, if_true, final]
  cases encoded : encodeNode n with
  | none => exact ends_throw.mpr ⟨.inr (by simpa [encodeNode] using encoded), .refl alloc, rfl⟩
  | some ob =>
    refine ((appendNode_spec alloc n shaped encoded).and (appendPage_keeps overlayView_blind ob t)).seqMono ?_ ?_
    · rintro nid m ⟨⟨grows, fresh, read, retired⟩, view⟩
      have same := ovEnt_of_view view
      refine ⟨(grows.retire _).withEnt _ _, congrArg (· ++ [id]) retired, fun j other => ?_, nid, fresh, read, ?_⟩
      · rw [ovEnt_withEnt, if_neg other]
        exact congrFun same j
      · simp [ovEnt_withEnt]
    · rintro _ m ⟨⟨io, stopped⟩, -⟩
      exact ⟨.inl io, stopped⟩

/-- The part of the batch below `refs` is still as it was in `t0`. -/
structure Untouched (t0 : BTree) (refs : List PageRef) (t : BTree) : Prop where
  alloc : Alloc t
  entries : ∀ s ∈ refs, t.ovEnt s.id = t0.ovEnt s.id
  stored : ∀ s ∈ refs, t.disk s = t0.disk s
  live : ∀ s ∈ refs, ¬Free t s.id
  nodup : (ids refs).Nodup

variable {t0 : BTree}

private theorem Untouched.left (untouched : Untouched t0 (old ++ more) t) : Untouched t0 old t where
  alloc := untouched.alloc
  entries s member := untouched.entries s (by simp [member])
  stored s member := untouched.stored s (by simp [member])
  live s member := untouched.live s (by simp [member])
  nodup := by
    have := untouched.nodup
    rw [ids_append] at this
    exact (List.nodup_append.mp this).1

/-- What is below an untouched node. -/
theorem Untouched.below (untouched : Untouched t0 (r :: old) t) : r.id ∉ ids old ∧ Untouched t0 old t := by
  obtain ⟨apart, nodup⟩ := List.nodup_cons.mp untouched.nodup
  exact ⟨apart, untouched.alloc, fun s member => untouched.entries s (by simp [member]),
    fun s member => untouched.stored s (by simp [member]), fun s member => untouched.live s (by simp [member]), nodup⟩

/-- Writing out one subtree leaves its right neighbours alone. -/
theorem Untouched.after (untouched : Untouched t0 (old ++ more) t) (emitted : Emitted t old t1 new) :
    Untouched t0 more t1 := by
  obtain ⟨ret, reworked⟩ := emitted.reworked
  have nodup := untouched.nodup
  rw [ids_append] at nodup
  obtain ⟨-, nodupMore, apart⟩ := List.nodup_append.mp nodup
  refine ⟨reworked.grows.alloc, fun s member => ?_, fun s member => ?_, fun s member free => ?_, nodupMore⟩
  · rw [emitted.others s.id fun both => apart _ both _ (mem_ids member) rfl]
    exact untouched.entries s (by simp [member])
  · rw [reworked.grows.disk (untouched.live s (by simp [member]))]
    exact untouched.stored s (by simp [member])
  · exact untouched.live s (by simp [member]) (reworked.grows.free _ free)

/-- And writing those out leaves it where it is. -/
theorem Untouched.settled (untouched : Untouched t0 (old ++ more) t) (first : Emitted t old t1 new)
    (second : Emitted t1 more t2 rest) (own : c ∈ old) : relink t2.ov c = relink t1.ov c ∧
    ∀ s ∈ new, t2.disk s = t1.disk s := by
  obtain ⟨ret, reworked⟩ := first.reworked
  obtain ⟨ret', later⟩ := second.reworked
  have alive := reworked.alive fun s member => untouched.live s (by simp [member])
  have nodup := untouched.nodup
  rw [ids_append] at nodup
  exact ⟨relink_congr (second.others c.id fun both => (List.nodup_append.mp nodup).2.2 _ (mem_ids own) _ both rfl),
    fun s member => later.grows.disk (alive s member)⟩

private theorem Emitted.append (first : Emitted t old t1 new) (second : Emitted t1 more t2 rest)
    (untouched : Untouched t0 (old ++ more) t) : Emitted t (old ++ more) t2 (new ++ rest) := by
  obtain ⟨ret, one⟩ := first.reworked
  obtain ⟨ret', two⟩ := second.reworked
  have nodup := untouched.nodup
  rw [ids_append] at nodup
  obtain ⟨-, -, apart⟩ := List.nodup_append.mp nodup
  refine ⟨⟨ret ++ ret', one.grows.trans two.grows, by rw [two.retired, one.retired, List.append_assoc], ?_, ?_, ?_⟩, ?_⟩
  · intro id member
    rw [ids_append]
    exact (List.mem_append.mp member).elim (fun early => List.mem_append_left _ (one.fromOld id early))
      fun late => List.mem_append_right _ (two.fromOld id late)
  · intro s member
    rcases List.mem_append.mp member with left | right
    · rcases one.kept s left with ⟨still, alive⟩ | fresh
      · refine .inl ⟨by simp [still], ?_⟩
        simp only [List.mem_append, alive, false_or]
        exact fun gone => apart _ (mem_ids still) _ (two.fromOld _ gone) rfl
      · exact .inr (fresh.later two.grows)
    · rcases two.kept s right with ⟨still, alive⟩ | fresh
      · refine .inl ⟨by simp [still], ?_⟩
        simp only [List.mem_append, alive, or_false]
        exact fun gone => apart _ (one.fromOld _ gone) _ (mem_ids still) rfl
      · exact .inr (fresh.earlier one.grows)
  · rw [ids_append]
    refine List.nodup_append.mpr ⟨one.nodup, two.nodup, fun a left b right same => ?_⟩
    obtain ⟨s, inNew, rfl⟩ := List.mem_map.mp left
    obtain ⟨u, inRest, rfl⟩ := List.mem_map.mp right
    -- a page the second part took was free then, but the first part's pages are in use
    have alive := one.alive (fun s member => untouched.live s (by simp [member])) s inNew
    rcases two.kept u inRest with ⟨still, -⟩ | fresh
    · rcases one.kept s inNew with ⟨kept, -⟩ | taken
      · exact apart _ (mem_ids kept) _ (mem_ids still) same
      · exact untouched.live u (by simp [still]) (same ▸ taken.1)
    · exact alive (same ▸ fresh.1)
  · intro id outside
    rw [ids_append, List.mem_append, not_or] at outside
    rw [second.others id outside.2, first.others id outside.1]

private theorem emitAll_append (one two : List PageId) : emitAll (one ++ two) = (do emitAll one; emitAll two) := by
  induction one with
  | nil => rfl
  | cons id one ih => simp only [List.cons_append, emitAll, ih, bind_assoc]

/-- The nodes edited in the batch. -/
def marked (t0 : BTree) (s : PageRef) : Bool := (t0.ovEnt s.id).dirty

/-- A subtree of the batch `t0`, written out from `t` on, stands for the tree it stood for. -/
structure WrittenOut (t0 t : BTree) (d : Nat) (lo : WithBot Key) (hi : WithTop Key) (c : PageRef)
    (y : Extent Key Bytes PageRef) (t' : BTree) (z : Extent Key Bytes PageRef) : Prop where
  holds : Holds t'.disk d lo hi (relink t'.ov c) z
  entries : z.entries = y.entries
  emitted : Emitted t y.refs t' z.refs
  tree : ∀ tree, Stored t0.rd d c tree → Stored t'.disk d (relink t'.ov c) tree

/-- What stops it is a failed write or a node that is too large. -/
def Halted (t0 t : BTree) (refs : List PageRef) (e : ChainError) (t' : BTree) : Prop :=
  Stopped t refs t' ∧ (e.code = .io ∨ ∃ s ∈ refs, ∃ n, t0.rd s = some n ∧ pageSize < nodeSize n)

private theorem Halted.mono (halted : Halted t0 t old e t') (sub : ∀ s ∈ old, s ∈ more) : Halted t0 t more e t' :=
  ⟨halted.1.mono sub, halted.2.imp_right fun ⟨s, member, large⟩ => ⟨s, sub s member, large⟩⟩

/-- Neighbouring subtrees are written out from left to right; clean ones stay where they are. -/
theorem emitAll_children (pending : Pending t0) {Q : PageRef → Prop}
    (chain : Chain (fun lo hi c y => Edited t0.rd t0.disk (fun s => marked t0 s = true) d lo hi c y ∧ Q c)
      lo hi ks rs xs) (untouched : Untouched t0 (Extent.join xs).refs t)
    (go : ∀ {lo hi c y} {t : BTree}, Edited t0.rd t0.disk (fun s => marked t0 s = true) d lo hi c y →
    marked t0 c = true →
      Untouched t0 y.refs t → Ends (emitAll (ids (dirtyOrder t0.rd (marked t0) d c))) t
        (fun _ t' => ∃ z, WrittenOut t0 t d lo hi c y t' z) (Halted t0 t y.refs)) :
    Ends (emitAll (ids ((rs.filter (marked t0)).flatMap (dirtyOrder t0.rd (marked t0) d)))) t
      (fun _ t' => ∃ zs, Chain (Holds t'.disk d) lo hi ks (rs.map (relink t'.ov)) zs ∧
        (Extent.join zs).entries = (Extent.join xs).entries ∧ Emitted t (Extent.join xs).refs t' (Extent.join zs).refs ∧
        ∀ ts, List.Forall₂ (Stored t0.rd d) rs ts → List.Forall₂ (Stored t'.disk d) (rs.map (relink t'.ov)) ts)
      (Halted t0 t (Extent.join xs).refs) := by
  have one {lo hi c y} {t : BTree} (held : Edited t0.rd t0.disk (fun s => marked t0 s = true) d lo hi c y)
      (untouched : Untouched t0 y.refs t) :
      Ends (emitAll (ids (([c].filter (marked t0)).flatMap (dirtyOrder t0.rd (marked t0) d)))) t
        (fun _ t' => ∃ z, WrittenOut t0 t d lo hi c y t' z) (Halted t0 t y.refs) := by
    by_cases dirty : marked t0 c = true
    · simpa [dirty] using go held dirty untouched
    · have stays : relink t.ov c = c := by
        rw [relink_eq, untouched.entries c held.holds.root_mem, pending.waiting, if_neg Bool.false_ne_true]
      have clean := held.clean dirty
      rw [List.filter_cons, if_neg dirty]
      refine ends_pure.mpr ⟨y, ?_, rfl, .refl untouched.alloc untouched.nodup, fun tree stored => ?_⟩
      · rw [stays]
        exact clean.frame untouched.stored
      · rw [stays]
        exact (held.stored_clean dirty stored).frame clean untouched.stored
  induction chain generalizing t with
  | last only =>
    simp only [Extent.join_cons_refs, Extent.join_nil, List.append_nil, Extent.join_cons_entries] at untouched ⊢
    refine (one only.1 untouched).imp ?_
    rintro _ t' ⟨z, holds, entries, emitted, trees⟩
    refine ⟨[z], .last holds, by simpa using entries, by simpa using emitted, fun ts all => ?_⟩
    obtain ⟨tree, _, stored, ⟨⟩, rfl⟩ := List.forall₂_cons_left_iff.mp all
    exact .cons (trees tree stored) .nil
  | @cons lo hi m ks c rs y xs head above below tail ih =>
    have split : ((c :: rs).filter (marked t0)).flatMap (dirtyOrder t0.rd (marked t0) d) =
        ([c].filter (marked t0)).flatMap (dirtyOrder t0.rd (marked t0) d) ++
          (rs.filter (marked t0)).flatMap (dirtyOrder t0.rd (marked t0) d) := by
      rw [← List.flatMap_append, ← List.filter_append]
      rfl
    rw [split, ids_append, emitAll_append]
    refine (one head.1 untouched.left).seqMono ?_ ?_
    · rintro _ t1 ⟨z, holds, entries, first, trees⟩
      refine (ih (untouched.after first)).mono ?_ ?_
      · rintro _ t2 ⟨zs, chain, joined, second, others⟩
        obtain ⟨linked, kept⟩ := untouched.settled first second head.1.holds.root_mem
        refine ⟨z :: zs, .cons ?_ above below chain, by simp [entries, joined],
          first.append second untouched, fun ts all => ?_⟩
        · rw [linked]
          exact holds.frame kept
        · obtain ⟨tree, rest, stored, more, rfl⟩ := List.forall₂_cons_left_iff.mp all
          refine .cons ?_ (others rest more)
          rw [linked]
          exact (trees tree stored).frame holds kept
      · rintro _ t2 ⟨stopped, cause⟩
        exact ⟨stopped.append first, cause.imp_right fun ⟨s, member, large⟩ => ⟨s, by simp [member], large⟩⟩
    · intro _ t1 halted
      exact halted.mono fun s member => by simp [member]

/-- A node emitted over its settled children takes the place of the old one. -/
theorem emit_over (inner : Emitted t old t1 new) (live : ∀ s ∈ old, ¬Free t s.id) (apart : r.id ∉ ids old)
    {n n0 : Node} (dirty : (t1.ovEnt r.id).dirty = true) (waiting : (t1.ovEnt r.id).done = false)
    (final : finalNode t1.ov (t1.ovEnt r.id) = n) (shaped : Shaped n) (found : t0.rd r = some n0)
    (size : nodeSize n0 = nodeSize n)
    (holds : ∀ {t2 : BTree} {s : PageRef}, t2.disk s = some n → (∀ u ∈ new, t2.disk u = t1.disk u) →
      Holds t2.disk d lo hi s ⟨entries, s :: new⟩ ∧ ∀ tree, Stored t0.rd d r tree → Stored t2.disk d s tree) :
    Ends (emitAll [r.id]) t1 (fun _ t' => (t'.ovEnt r.id).done = true ∧
      ∃ z, WrittenOut t0 t d lo hi r ⟨entries, r :: old⟩ t' z)
      (Halted t0 t (r :: old)) := by
  obtain ⟨ret, reworked⟩ := inner.reworked
  have alive := reworked.alive live
  refine (emit_spec reworked.grows.alloc dirty waiting final shaped).seqMono ?_ ?_
  · rintro _ t2 ⟨grows, retired, others, nid, fresh, read, done, newId, newHash⟩
    have linked : relink t2.ov r = ⟨nid, nodeHash n⟩ := by rw [relink_eq, if_pos done, newId, newHash]
    obtain ⟨held, trees⟩ := holds read fun u member => grows.disk (alive u member)
    have rewritten : Rewritten t1 d lo hi entries new r.id (⟨nid, nodeHash n⟩, none) t2
        [⟨entries, ⟨nid, nodeHash n⟩ :: new⟩] := by
      refine ⟨.last held, by simp, grows, retired, ?_, ?_⟩
      · simp only [Extent.join_cons_refs, Extent.join_nil, List.append_nil, List.mem_cons]
        rintro s (rfl | member)
        · exact .inr fresh
        · exact .inl member
      · simpa using ⟨fresh.not_mem alive, reworked.nodup⟩
    refine ends_pure.mpr ⟨done, ⟨entries, ⟨nid, nodeHash n⟩ :: new⟩, linked ▸ held, rfl,
      ⟨⟨_, by simpa using rewritten.after reworked apart⟩, fun id outside => ?_⟩, linked ▸ trees⟩
    rw [ids_cons, List.mem_cons, not_or] at outside
    rw [others id outside.1, inner.others id outside.2]
  · rintro _ t2 ⟨cause, grows, retired⟩
    exact ⟨⟨reworked.grows.trans grows, ret, retired.trans reworked.retired,
      fun id member => List.mem_cons_of_mem _ (reworked.fromOld id member)⟩,
      cause.imp_right fun large => ⟨r, by simp, n0, found, size ▸ large⟩⟩

/-- The dirty nodes of a subtree, emitted children first, make a plain subtree of the
same entries out of it. -/
theorem emitAll_spec (pending : Pending t0) (edited : Edited t0.rd t0.disk (fun s => marked t0 s = true) d lo hi r x)
    (dirty : marked t0 r = true) (untouched : Untouched t0 x.refs t) :
    Ends (emitAll (ids (dirtyOrder t0.rd (marked t0) d r))) t
      (fun _ t' => (t'.ovEnt r.id).done = true ∧ ∃ z, WrittenOut t0 t d lo hi r x t' z) (Halted t0 t x.refs) := by
  induction d generalizing lo hi r x t with
  | zero =>
    obtain ⟨⟨es, found, sorted, within, rfl⟩, -⟩ := edited
    have entry := untouched.entries r (by simp)
    have final : finalNode t.ov (t.ovEnt r.id) = .leaf es := by rw [finalNode, entry, pending.node dirty found]
    have nothing : Emitted t [] t [] := .refl untouched.alloc (by simp)
    refine emit_over nothing (by simp) (by simp) (by rw [entry]; exact dirty)
      (by rw [entry, pending.waiting]) final trivial found rfl fun read _ => ?_
    exact ⟨⟨es, read, sorted, within, rfl⟩, fun tree stored => read.trans (found.symm.trans stored)⟩
  | succ d ih =>
    obtain ⟨rs, ks, xs, found, -, nonempty, chain, rfl⟩ := edited
    obtain ⟨apart, below⟩ := untouched.below
    have order : dirtyOrder t0.rd (marked t0) (d + 1) r =
        (rs.filter (marked t0)).flatMap (dirtyOrder t0.rd (marked t0) d) ++ [r] := by rw [dirtyOrder, found]
    rw [order, ids_append, emitAll_append]
    refine (emitAll_children pending chain below fun held dirty later =>
      (ih held dirty later).imp (fun _ _ => And.right)).seqMono ?_ ?_
    · rintro _ t1 ⟨zs, settled, entries, inner, trees⟩
      have entry : t1.ovEnt r.id = t0.ovEnt r.id :=
        (inner.others r.id apart).trans (untouched.entries r (by simp))
      have final : finalNode t1.ov (t1.ovEnt r.id) = .internal (rs.map (relink t1.ov)) ks := by
        rw [finalNode, entry, pending.node dirty found]
      refine emit_over inner below.live apart (by rw [entry]; exact dirty) (by rw [entry, pending.waiting]) final
        settled.length.1 found (by simp [nodeSize, internalSize]) fun read same => ⟨?_, ?_⟩
      · exact ⟨_, ks, zs, read, nonempty, settled.frame same, by rw [entries]⟩
      · rintro ⟨ts, ks'⟩ ⟨rs', read', all⟩
        obtain ⟨rfl, rfl⟩ := Node.internal.inj (Option.mem_unique found read')
        refine ⟨_, read, forall₂_imp_mem (trees ts all) fun c member _ held => ?_⟩
        obtain ⟨a, b, z, inside, holds⟩ := settled.member_of_ref member
        exact held.frame holds fun s deeper => same s (Extent.mem_join_refs.mpr ⟨z, inside, deeper⟩)
    · intro _ t1 halted
      exact halted.mono fun s member => by simp [member]

private theorem emitAll_keeps_root (order : List PageId) : Keeps root (emitAll order) := by
  induction order with
  | nil => exact keeps_pure
  | cons id order ih =>
    refine .bind (.bind keeps_get fun t => ?_) fun _ => ih
    dsimp only
    split
    · split
      · exact keeps_throw
      · exact .bind (appendPage_keeps root_blind _) fun _ => .bind (retire_keeps root_blind _) fun _ _ => rfl
    · exact keeps_pure

/-- The walk finalizing makes visits exactly the dirty nodes of the tree, children first. -/
theorem Overlaid.visit (overlaid : Overlaid t d x) (marked : marked t t.root = true) :
    (visit t.ov t.maxDepth t.rootId ([t.rootId], [])).2 = ids (dirtyOrder t.rd (BTree.marked t) d t.root) := by
  refine (visit_spec (fun s => isDirty_eq t s.id) (fun s n marked found => ?_) overlaid.edited marked overlaid.nodup
    (fun s member other => ?_) overlaid.depth.1).1
  · have node := overlaid.pending.node marked found
    unfold ovEnt at node
    cases entry : t.ov.lookup s.id with
    | none => rw [entry] at node; cases node
    | some ent => rw [entry] at node; exact ⟨ent, rfl, node⟩
  · simp only [List.mem_singleton]
    exact fun same => other (eq_of_id_eq overlaid.nodup overlaid.edited.holds.root_mem member same)

/-- Finalizing keeps the tree and closes the batch. When it fails the root has not moved. -/
theorem finalizeOverlay_emits (overlaid : Overlaid t d x) : Ends finalizeOverlay t
      (fun _ t' => (Closed t' ∧ Updated t x x.entries t') ∧ ∀ tree, Stored t.rd d t.root tree →
        Stored t'.disk d t'.root tree)
      (fun e t' => (Closed t' ∧ t'.root = t.root ∧ Stopped t x.refs t') ∧
        (e.code = .io ∨ ∃ s ∈ x.refs, ∃ n, t.rd s = some n ∧ pageSize < nodeSize n)) := by
  unfold Ends finalizeOverlay
  simp only [overlaid.pending.on, Bool.not_true, Bool.false_eq_true, if_false, isDirty_eq]
  by_cases dirty : (t.ovEnt t.rootId).dirty = true
  · simp only [dirty, Bool.not_true, Bool.false_eq_true, if_false, overlaid.visit dirty]
    have emission := (emitAll_spec overlaid.pending overlaid.edited dirty
      ⟨overlaid.alloc, fun _ _ => rfl, fun _ _ => rfl, overlaid.live, overlaid.nodup⟩).and (emitAll_keeps_root _ t)
    cases ran : emitAll (ids (dirtyOrder t.rd (marked t) d t.root)) t with
    | error e m =>
      obtain ⟨⟨⟨grows, ret, retired, fromOld⟩, cause⟩, kept⟩ := emission.of_error ran
      exact ⟨⟨⟨rfl, rfl⟩, kept, grows.abort, ret, retired, fromOld⟩, cause⟩
    | ok _ m =>
      obtain ⟨⟨done, z, holds, entries, ⟨⟨ret, reworked⟩, -⟩, trees⟩, kept⟩ := emission.of_ok ran
      rw [relink_eq, if_pos done] at holds trees
      simp only [show (m.ovEnt t.rootId).done = true from done, if_true]
      have final := reworked.abort.rooted (d := d) m.rootIsLeaf overlaid.live holds
      exact ⟨⟨⟨rfl, rfl⟩, d, z, ret, final.1, entries, final.2⟩, trees⟩
  · simp only [dirty, Bool.not_false, if_true]
    have clean := overlaid.edited.clean dirty
    exact ⟨⟨⟨rfl, rfl⟩, d, x, [], ⟨(Grows.refl overlaid.alloc).abort.alloc, clean, overlaid.live, overlaid.nodup⟩, rfl,
      .abort ⟨.refl overlaid.alloc, by simp, by simp, fun _ member => .inl ⟨member, by simp⟩, overlaid.nodup⟩⟩,
      fun _ => overlaid.edited.stored_clean dirty⟩

theorem finalizeOverlay_spec (overlaid : Overlaid t d x) :
    Ends finalizeOverlay t (fun _ t' => Closed t' ∧ Updated t x x.entries t')
      (fun _ t' => Closed t' ∧ t'.root = t.root ∧ Stopped t x.refs t') :=
  (finalizeOverlay_emits overlaid).mono (fun _ _ => And.left) fun _ _ => And.left

end Emission
end BTree
end Innova.Store3A
