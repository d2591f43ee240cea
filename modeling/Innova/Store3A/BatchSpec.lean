import Innova.Store3A.CommitStore
import Innova.Store3A.OverlaySpec

/-! Lists of operations on the tree. Applied to the pages or to the batch overlay, they
change the entries as they change a sorted list, write free pages only, and stage for
reuse only pages that left the tree (`Staged`). -/
namespace Innova.Store3A
open Lib Lib.PagedTree Chainstate

namespace BTree

/-- The pages staged for reuse are in use by nobody the next acknowledged root needs. -/
def Staged (t : BTree) (refs : List PageRef) : Prop := ∀ id ∈ t.commitRetired, ¬Free t id ∧ id ∉ ids refs

variable {t t' : BTree}

theorem Reworked.staged (reworked : Reworked t old t' new ret) (live : ∀ s ∈ old, ¬Free t s.id)
    (staged : Staged t old) : Staged t' new := by
  intro id member
  rw [reworked.retired] at member
  have used : ¬Free t id := by
    rcases List.mem_append.mp member with early | late
    · exact (staged id early).1
    · obtain ⟨s, inside, rfl⟩ := List.mem_map.mp (reworked.fromOld id late)
      exact live s inside
  refine ⟨fun free => used (reworked.grows.free id free), fun inNew => ?_⟩
  obtain ⟨s, inside, rfl⟩ := List.mem_map.mp inNew
  rcases reworked.kept s inside with ⟨still, alive⟩ | fresh
  · rcases List.mem_append.mp member with early | late
    · exact (staged _ early).2 (mem_ids still)
    · exact alive late
  · exact used fresh.1

theorem staged_clearRetired (t : BTree) (refs : List PageRef) : Staged t.clearRetired refs := by
  simp [Staged, clearRetired]

private theorem SamePages.staged (same : SamePages t t') (staged : Staged t refs) : Staged t' refs := by
  obtain ⟨ov, rfl⟩ := same
  exact staged

private theorem SamePages.grows (same : SamePages t t') (alloc : Alloc t) : Grows t t' :=
  (Grows.refl alloc).sameFile same.file

section Standing
variable [Digest] {r : PageRef}

/-- `r` is the root of a well-formed tree over live pages used once each. -/
def Standing (t : BTree) (r : PageRef) : Prop :=
  ∃ d x, Holds t.disk d ⊥ ⊤ r x ∧ (∀ s ∈ x.refs, ¬Free t s.id) ∧ (ids x.refs).Nodup

/-- Programs that only write free pages keep every standing tree. -/
theorem Grows.standing (grows : Grows t t') (standing : Standing t r) : Standing t' r := by
  obtain ⟨d, x, holds, live, nodup⟩ := standing
  exact ⟨d, x, holds.frame fun s member => grows.disk (live s member),
    fun s member free => live s member (grows.free _ free), nodup⟩

theorem SameFile.standing (same : SameFile t t') (standing : Standing t r) : Standing t' r := by
  obtain ⟨d, x, holds, live, nodup⟩ := standing
  exact ⟨d, x, same.disk ▸ holds, fun s member => (same.free _).not.mpr (live s member), nodup⟩

theorem Rooted.standing (rooted : Rooted t d x) : Standing t t.root :=
  ⟨d, x, rooted.holds, rooted.live, rooted.nodup⟩

theorem Standing.rooted (standing : Standing t t.root) (alloc : Alloc t) : ∃ d x, Rooted t d x := by
  obtain ⟨d, x, holds, live, nodup⟩ := standing
  exact ⟨d, x, alloc, holds, live, nodup⟩

end Standing

/-! ## Entries -/

/-- The entries after an operation. -/
def setEntry (entries : List Entry) (op : Key × Option Coin) : List Entry :=
  editEntries op.1 (op.2.map Coin.encode) entries

/-- The entries after a list of operations. -/
def setEntries (ops : List (Key × Option Coin)) (entries : List Entry) : List Entry := ops.foldl setEntry entries

@[simp] theorem setEntries_nil (entries : List Entry) : setEntries [] entries = entries := rfl
@[simp] theorem setEntries_cons (op : Key × Option Coin) (ops : List (Key × Option Coin)) (entries : List Entry) :
    setEntries (op :: ops) entries = setEntries ops (setEntry entries op) := rfl

theorem setEntry_setEntry (sorted : Entries.Sorted entries) (op : Key × Option Coin) :
    setEntry (setEntry entries op) op = setEntry entries op := by
  obtain ⟨k, after⟩ := op
  cases after with
  | some c => exact Entries.insert_insert entries k c.encode c.encode
  | none =>
    refine Entries.erase_of_absent (show Entries.find (Entries.erase entries k) k = none from ?_)
    rw [Entries.find_erase sorted, if_pos rfl]

/-! ## Operations on the pages -/

/-- A tree moved on to new entries, with its retired pages staged. -/
structure Moved (t : BTree) (refs : List PageRef) (entries : List Entry) (t' : BTree)
    (x' : Extent Key Bytes PageRef) : Prop where
  grows : Grows t t'
  entries : x'.entries = entries
  staged : Staged t refs → Staged t' x'.refs

private theorem Moved.trans {entries more : List Entry} (first : Moved t refs entries t' x')
    (second : Moved t' x'.refs more t'' y) :
    Moved t refs more t'' y :=
  ⟨first.grows.trans second.grows, second.entries, second.staged ∘ first.staged⟩

private theorem Moved.of_reworked (reworked : Reworked t refs t' x'.refs ret) (live : ∀ s ∈ refs, ¬Free t s.id)
    {entries : List Entry} (same : x'.entries = entries) : Moved t refs entries t' x' :=
  ⟨reworked.grows, same, reworked.staged live⟩

section Runs
variable [Digest]

private theorem Updated.moved (updated : Updated t x entries t') (rooted : Rooted t d x) :
    ∃ d' x', Rooted t' d' x' ∧ Moved t x.refs entries t' x' := by
  obtain ⟨d', x', ret, standing, same, reworked⟩ := updated
  exact ⟨d', x', standing, .of_reworked reworked rooted.live same⟩

open Store in
private theorem applyPlain_assign (k : Key) (after : Option Coin) :
    applyPlain k after = assign k (after.map Coin.encode) := by
  cases after <;> rfl

open Store in
theorem applyPlain_spec (rooted : Rooted t d x) (plain : Plain t) (op : Key × Option Coin) :
    Ends (applyPlain op.1 op.2) t
      (fun _ t' => overlayView t' = overlayView t ∧ ∃ d' x', Rooted t' d' x' ∧
        Moved t x.refs (setEntry x.entries op) t' x')
      (fun _ t' => overlayView t' = overlayView t ∧ Grows t t') := by
  rw [applyPlain_assign]
  refine ((assign_spec rooted plain _ _).and (assign_keeps_overlay _ _ t)).mono ?_ ?_
  · rintro _ t' ⟨updated, view⟩
    exact ⟨view, updated.moved rooted⟩
  · rintro _ t' ⟨stopped, view⟩
    exact ⟨view, stopped.1⟩

open Store in
theorem applyPlainAll_spec (rooted : Rooted t d x) (plain : Plain t) (ops : List (Key × Option Coin)) :
    Ends (applyPlainAll ops) t
      (fun _ t' => overlayView t' = overlayView t ∧ ∃ d' x', Rooted t' d' x' ∧
        Moved t x.refs (setEntries ops x.entries) t' x')
      (fun _ t' => overlayView t' = overlayView t ∧ Grows t t') := by
  induction ops generalizing t d x with
  | nil => exact ends_pure.mpr ⟨rfl, d, x, rooted, .refl rooted.alloc, rfl, id⟩
  | cons op ops ih =>
    refine (applyPlain_spec rooted plain op).seq ?_
    rintro _ t1 ⟨view, d1, x1, rooted1, first⟩
    refine (ih rooted1 (plain.of_view view)).mono ?_ ?_
    · rintro _ t2 ⟨view2, d2, x2, rooted2, second⟩
      rw [first.entries] at second
      exact ⟨view2.trans view, d2, x2, rooted2, first.trans second⟩
    · rintro _ t2 ⟨view2, grows⟩
      exact ⟨view2.trans view, first.grows.trans grows⟩

/-! ## Operations on the overlay -/

theorem Rooted.beginOverlay (rooted : Rooted t d x) : Rooted t.beginOverlay d x :=
  ⟨SameFile.alloc (t := t) ⟨rfl, rfl, rfl, rfl, rfl⟩ rooted.alloc, rooted.holds, rooted.live, rooted.nodup⟩

/-- A plain tree with an empty overlay on it is an open batch. -/
theorem Rooted.overlaid (rooted : Rooted t d x) (empty : t.ov = ∅) (on : t.overlayOn = true) : Overlaid t d x := by
  have entry (id : PageId) : t.ovEnt id = .empty := by rw [ovEnt, empty]; rfl
  have plain : Plain t := fun id => by rw [overlayNode_of_on on, entry]; rfl
  refine ⟨⟨on, fun id => by rw [entry]; rfl, fun id marked => ?_⟩, rooted.alloc, ?_,
    ⟨x.entries, rooted.holds⟩, rooted.live,
    rooted.nodup⟩
  · rw [entry] at marked
    cases marked
  · rw [rd_of_plain plain]
    refine rooted.holds.edited (fun _ _ => rfl) fun s _ marked => ?_
    rw [entry] at marked
    cases marked

omit [Digest] in
theorem Closed.begun (closed : Closed t) : Plain t.beginOverlay := fun id => by
  rw [overlayNode_of_on (t := t.beginOverlay) rfl, ovEnt]
  show (((t.ov.lookup id).getD .empty).n) = none
  rw [closed.1]
  rfl

section
variable (overlaid : Overlaid t d x)
include overlaid

theorem Overlaid.standing : Standing t t.root := by
  obtain ⟨entries, stored⟩ := overlaid.stored
  exact ⟨d, _, stored, overlaid.live, overlaid.nodup⟩

open Store in
theorem applyOverlay_spec (op : Key × Option Coin) : Ends (applyOverlay op.1 op.2) t
      (fun full t' => SamePages t t' ∧ Overlaid t' d (if full then x else ⟨setEntry x.entries op, x.refs⟩))
      (fun _ t' => SamePages t t') := by
  obtain ⟨k, after⟩ := op
  cases after with
  | some c => exact overlayPut_spec overlaid k c.encode
  | none =>
    refine (overlayErase_spec overlaid k).seq ?_
    intro _ t' erased
    exact erased

open Store in
/-- Finalizing in the middle of a batch and replaying the operation on the pages. -/
theorem replay_spec (op : Key × Option Coin) :
    Ends (do finalizeOverlay; EStateM.modifyGet fun t => ((), t.beginOverlay); applyPlain op.1 op.2) t
      (fun _ t' => ∃ d' x', Overlaid t' d' x' ∧ Moved t x.refs (setEntry x.entries op) t' x')
        (fun _ t' => Grows t t') := by
  refine (finalizeOverlay_spec overlaid).seqMono ?_ fun _ _ stopped => stopped.2.2.1
  rintro _ t1 ⟨closed, d1, x1, ret, rooted, entries, reworked⟩
  have begun := rooted.beginOverlay
  have finalized := Moved.of_reworked reworked overlaid.live entries
  have onward : Grows t t1.beginOverlay :=
    finalized.grows.sameFile ⟨rfl, rfl, rfl, rfl, rfl⟩
  refine Ends.bind (ends_modifyGet.mpr ((applyPlain_spec begun closed.begun op).mono ?_ ?_))
  · rintro _ t2 ⟨view, d2, x2, rooted2, moved⟩
    simp only [overlayView, Prod.mk.injEq] at view
    refine ⟨d2, x2, rooted2.overlaid (view.1.trans closed.1) view.2.1, onward.trans moved.grows, ?_, fun staged =>
      moved.staged (finalized.staged staged)⟩
    rw [moved.entries, entries]
  · rintro _ t2 ⟨-, grows⟩
    exact onward.trans grows

open Store in
theorem applyOp_spec (op : Key × Option Coin) :
    Ends (applyOp op.1 op.2) t (fun _ t' => ∃ d' x', Overlaid t' d' x' ∧ Moved t x.refs (setEntry x.entries op) t' x')
      (fun _ t' => Grows t t') := by
  refine Ends.get ?_
  simp only [overlaid.pending.on, Bool.not_true, Bool.false_eq_true, if_false]
  refine (applyOverlay_spec overlaid op).seqMono ?_ fun _ _ same => same.grows overlaid.alloc
  rintro full t1 ⟨same, overlaid1⟩
  have grows := same.grows overlaid.alloc
  refine Ends.get ?_
  cases full with
  | true =>
    simp only [Bool.true_or, if_true]
    refine (replay_spec overlaid1 op).mono ?_ fun _ _ => grows.trans
    rintro _ t2 ⟨d2, x2, overlaid2, moved⟩
    exact ⟨d2, x2, overlaid2, grows.trans moved.grows, moved.entries, moved.staged ∘ same.staged⟩
  | false =>
    simp only [Bool.false_or, Bool.false_eq_true, if_false] at overlaid1 ⊢
    split
    · -- the operation is in the overlay already; its replay changes nothing more
      refine (replay_spec overlaid1 op).mono ?_ fun _ _ => grows.trans
      rintro _ t2 ⟨d2, x2, overlaid2, moved⟩
      refine ⟨d2, x2, overlaid2, grows.trans moved.grows, ?_, moved.staged ∘ same.staged⟩
      rw [moved.entries, setEntry_setEntry overlaid.edited.holds.sorted]
    · exact ends_pure.mpr ⟨d, _, overlaid1, grows, rfl, same.staged⟩

open Store in
theorem applyOps_spec (ops : List (Key × Option Coin)) :
    Ends (applyOps ops) t (fun _ t' => ∃ d' x', Overlaid t' d' x' ∧ Moved t x.refs (setEntries ops x.entries) t' x')
      (fun _ t' => Grows t t') := by
  induction ops generalizing t d x with
  | nil => exact ends_pure.mpr ⟨d, x, overlaid, .refl overlaid.alloc, rfl, id⟩
  | cons op ops ih =>
    refine (applyOp_spec overlaid op).seq ?_
    rintro _ t1 ⟨d1, x1, overlaid1, first⟩
    refine (ih overlaid1).mono ?_ fun _ _ => first.grows.trans
    rintro _ t2 ⟨d2, x2, overlaid2, second⟩
    rw [first.entries] at second
    exact ⟨d2, x2, overlaid2, first.trans second⟩

end

end Runs
end BTree
end Innova.Store3A
