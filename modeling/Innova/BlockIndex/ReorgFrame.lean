import Innova.BlockIndex.TipReorg

/-! What a reorganisation keeps. Its rewrite copies the committed entries of a store in order, but
does not pass over an entry it replaces: behind a corrected slot every copied entry comes from too
early a position. So records survive a reorganisation exactly when the stores already hold, that
many positions earlier, what the windows answer. -/
namespace Innova.BlockIndex
open Lib Chainstate

/-- The hash an active height resolves to. -/
def Tip.hashAt (t : Tip) (height : Int) : Option Hash :=
  match t.lookupActiveByHeight height with
  | .ok read => some read.record.hash
  | .error _ => none

theorem Tip.hashAt_some {t : Tip} {hash : Hash} : t.hashAt height = some hash ↔ ∃ rel id slot : Nat, ∃ r d,
    height = t.tipMeta.baseTipHeight + 1 + rel ∧ rel < t.activeWin.count ∧ t.active? rel = some id ∧
    t.tipMeta.slotOf id = some slot ∧ slot < t.recordsWin.count ∧ t.record? slot = some r ∧ t.derived? slot = some d ∧
    r.hash = hash := by
  unfold Tip.hashAt
  constructor
  · intro found
    split at found
    · next read ok =>
      cases found
      obtain ⟨rel, id, slot, place, inside, active, slotted, stored, record, derived, -, -⟩ := Tip.lookupActive_ok.mp ok
      exact ⟨rel, id, slot, _, _, place, inside, active, slotted, stored, record, derived, rfl⟩
    · cases found
  · rintro ⟨rel, id, slot, r, d, place, inside, active, slotted, stored, record, derived, rfl⟩
    have ok : t.lookupActiveByHeight height = .ok ⟨r, d, true, r.height⟩ :=
      Tip.lookupActive_ok.mpr ⟨rel, id, slot, place, inside, active, slotted, stored, record, derived, rfl, rfl⟩
    rw [ok]

/-! ## The authority after a reorganisation -/

section Answers
variable {α : Type} {f : SlotFile α}

/-- What a window answers over a copy with corrections and new entries. -/
theorem get_copied (copied : streamCopy fix n 0 f.body = some out) (new : Append → α)
    (blocks : List Append) (slot : Nat) :
    (Window.setCount (n + blocks.length)).get (.whole (out ++ blocks.map fun blk => some (new blk))) slot =
      if slot < n then (fix slot).or (f.read (slot - corrections fix 0 slot)) else (blocks[slot - n]?).map new := by
  obtain ⟨length, entries⟩ := streamCopy_spec copied
  rw [Window.get_setCount, SlotFile.read, SlotFile.body_whole]
  by_cases old : slot < n
  · rw [if_pos (by omega), if_pos old, List.getElem?_append_left (by omega), entries slot old, Nat.zero_add]
    cases fix slot <;> rfl
  · rw [if_neg old, List.getElem?_append_right (by omega), length, List.getElem?_map]
    by_cases inside : slot < n + blocks.length
    · rw [if_pos inside]
      cases blocks[slot - n]? <;> rfl
    · rw [if_neg inside, List.getElem?_eq_none (by omega)]
      rfl

end Answers

section Follows
variable {t t' : Tip} {p : Plan}

/-- The corrected slots below a slot. -/
def Plan.before (p : Plan) (slot : Nat) : Nat := corrections p.fixAt 0 slot

private theorem before_map {β : Type} (g : Append → β) (slot : Nat) :
    corrections (fun s => (p.fixAt s).map g) 0 slot = p.before slot := by
  simp only [corrections, Plan.before, Option.isSome_map]

/-- What an authority answers after a reorganisation, in terms of the one before it. -/
structure Follows (t : Tip) (p : Plan) (t' : Tip) : Prop where
  base : t'.tipMeta.baseTipHeight = t.tipMeta.baseTipHeight
  idOf : ∀ slot, t'.tipMeta.idOf slot = t.tipMeta.idOf slot
  slotOf : ∀ id, t'.tipMeta.slotOf id = t.tipMeta.slotOf id
  recordCount : t'.recordsWin.count = t.tipMeta.tipRecordCount + p.append.length
  derivedCount : t'.derivedWin.count = t.tipMeta.tipRecordCount + p.append.length
  activeCount : t'.activeWin.count = p.active.length
  committed : t'.tipMeta.tipRecordCount = t.tipMeta.tipRecordCount + p.append.length
  height : t'.tipMeta.tipHeight = t.tipMeta.baseTipHeight + p.active.length
  pend : t'.pend = t.pend
  record : ∀ slot, t'.record? slot = if slot < t.tipMeta.tipRecordCount then
      ((p.fixAt slot).map (·.record)).or (t.disk.records.read (slot - p.before slot))
    else (p.append[slot - t.tipMeta.tipRecordCount]?).map (·.record)
  derived : ∀ slot, t'.derived? slot = if slot < t.tipMeta.tipRecordCount then
      ((p.fixAt slot).map (·.derived)).or (t.disk.derived.read (slot - p.before slot))
    else (p.append[slot - t.tipMeta.tipRecordCount]?).map (·.derived)
  active : ∀ rel, t'.active? rel = if rel < p.keep then t.disk.active.read rel else p.active[rel]?
  recordsReadable : t'.disk.records.Readable t'.recordsWin.count
  derivedReadable : t'.disk.derived.Readable t'.derivedWin.count
  activeReadable : t'.disk.active.Readable t'.activeWin.count
  index : t'.disk.index =
    enterRecords t.tipMeta t.tipMeta.tipRecordCount (p.append.map (·.record)) t.disk.index
  entered : ∀ (i : Nat) blk, p.append[i]? = some blk →
    t'.disk.index blk.record.hash = some (t.tipMeta.idOf (t.tipMeta.tipRecordCount + i))

theorem Reorganised.follows [Digest] (covers : p.keep ≤ p.active.length) (done : Reorganised t p entries t') :
    Follows t p t' := by
  obtain ⟨records, derived, v, tipHash, rewritten, entered, -, complete, rfl⟩ := done
  obtain ⟨rewrites, ⟨u, touched, frame⟩, backup, invalid, disk⟩ := rewritten
  have metas : v.tipMeta = t.tipMeta := by rw [frame]; exact touched.tipMeta
  have pend : v.pend = t.pend := by rw [frame, touched.frame]
  have index : v.disk.index = t.disk.index := by rw [disk]; rfl
  have spliced := SlotFile.read_spliced rewrites.active (p.active.drop p.keep)
  refine ⟨?_, fun slot => ?_, fun id => ?_, ?_, ?_, rfl, ?_, ?_, pend, fun slot => ?_, fun slot => ?_, fun rel => ?_,
    SlotFile.readable_visited complete.1, SlotFile.readable_visited complete.2.1,
      SlotFile.readable_visited complete.2.2, ?_, ?_⟩
  · rw [← metas]; rfl
  · rw [← metas]; rfl
  · rw [← metas]; rfl
  · exact congrArg (·.tipRecordCount + p.append.length) metas
  · exact congrArg (·.tipRecordCount + p.append.length) metas
  · exact congrArg (·.tipRecordCount + p.append.length) metas
  · exact congrArg (fun m : TipMeta => m.baseTipHeight + p.active.length) metas
  · change (Window.setCount (v.tipMeta.tipRecordCount + p.append.length)).get v.disk.records slot = _
    rw [metas, disk, ← before_map Append.record]
    exact get_copied rewrites.records Append.record p.append slot
  · change (Window.setCount (v.tipMeta.tipRecordCount + p.append.length)).get v.disk.derived slot = _
    rw [metas, disk, ← before_map Append.derived]
    exact get_copied rewrites.derived Append.derived p.append slot
  · change (Window.setCount p.active.length).get v.disk.active rel = _
    rw [Window.get_setCount, disk]
    change (if rel < p.active.length then (SlotFile.whole _).read rel else none) = _
    rw [spliced, List.getElem?_drop]
    by_cases old : rel < p.keep
    · rw [if_pos old, if_pos old, if_pos (by omega)]
    · rw [Nat.add_sub_cancel' (by omega)]
      split
      · rfl
      · rw [List.getElem?_eq_none (by omega)]
  · change enterRecords v.tipMeta v.tipMeta.tipRecordCount _ v.disk.index = _
    rw [metas, index]
  · intro i blk at_
    have found := entered i blk at_
    rw [metas] at found
    exact found

section Served
variable (follows : Follows t p t') {id : Nat} {hash : Hash}
include follows

private theorem Follows.known (known : t.disk.index hash = some id) : t'.disk.index hash = some id := by
  rw [follows.index]
  exact enterRecords_known known

private theorem Follows.entry (stored : (t'.record? slot).map (·.hash) = some hash) :
    slot < t'.recordsWin.count ∧ slot < t'.derivedWin.count ∧
      ∃ r d, t'.record? slot = some r ∧ r.hash = hash ∧ t'.derived? slot = some d := by
  obtain ⟨r, record, same⟩ := Option.map_eq_some_iff.mp stored
  have inside := Window.lt_of_get record
  have derivedInside : slot < t'.derivedWin.count := by rwa [follows.derivedCount, ← follows.recordCount]
  obtain ⟨d, derived⟩ := Window.get_readable follows.derivedReadable derivedInside
  exact ⟨inside, derivedInside, r, d, record, same, derived⟩

/-- The side index and the records store answer for a hash together. -/
theorem Follows.finds (indexed : t'.disk.index hash = some id) (slotted : t'.tipMeta.slotOf id = some slot)
    (stored : (t'.record? slot).map (·.hash) = some hash) : t'.Finds hash := by
  obtain ⟨inside, derivedInside, r, d, record, same, derived⟩ := follows.entry stored
  have flagged : ∃ active, t'.activeFlag id r = .ok active := by
    unfold Tip.activeFlag
    split
    · next covered =>
      obtain ⟨entry, read⟩ := Window.get_readable follows.activeReadable covered.2
      rw [Tip.active?, read]
      exact ⟨_, rfl⟩
    · exact ⟨_, rfl⟩
  obtain ⟨active, flag⟩ := flagged
  exact ⟨⟨r, d, active, r.height⟩, Tip.lookupDurable_ok.mpr
    ⟨id, slot, indexed, slotted, inside, derivedInside, record, derived, same, flag, rfl⟩⟩

private theorem Follows.hashAt (active : t'.active? rel = some id) (slotted : t'.tipMeta.slotOf id = some slot)
    (stored : (t'.record? slot).map (·.hash) = some hash) :
    t'.hashAt (t.tipMeta.baseTipHeight + 1 + rel) = some hash := by
  obtain ⟨inside, -, r, d, record, same, derived⟩ := follows.entry stored
  refine Tip.hashAt_some.mpr
    ⟨rel, id, slot, r, d, by rw [follows.base], Window.lt_of_get active, active, slotted, inside, record,
    derived, same⟩

end Served
end Follows

/-! ## What is to be kept -/

section Frame
variable (t : Tip) (fork : Int) (branch : List Append) (heights : List Int)

/-- The branch block that a reorganisation writes over a committed slot. -/
def Tip.correction (slot : Nat) : Option Append :=
  match planReorg .reorg fork branch heights t with
  | .ok p _ => p.fixAt slot
  | .error _ _ => none

/-- The branch blocks that the side index does not know. -/
def Tip.unknown (branch : List Append) : List Append := branch.filter fun blk => (t.disk.index blk.record.hash).isNone

/-- What a reorganisation is to leave behind. -/
structure KeepsRecords (t' : Tip) : Prop where
  others : ∀ slot < t.tipMeta.tipRecordCount, t.correction fork branch heights slot = none →
    t'.record? slot = t.record? slot ∧ t'.derived? slot = t.derived? slot
  corrected : ∀ slot blk, t.correction fork branch heights slot = some blk →
    blk ∈ branch ∧ t'.record? slot = some blk.record ∧ t'.derived? slot = some blk.derived
  appended : ∀ (i : Nat) blk, (t.unknown branch)[i]? = some blk →
    t'.record? (t.tipMeta.tipRecordCount + i) = some blk.record ∧
      t'.derived? (t.tipMeta.tipRecordCount + i) = some blk.derived
  count : t'.tipMeta.tipRecordCount = t.tipMeta.tipRecordCount + (t.unknown branch).length
  below : ∀ height ≤ fork, ∀ hash, t.hashAt height = some hash → t'.hashAt height = some hash
  above : ∀ (i : Nat) blk, branch[i]? = some blk → t'.hashAt (fork + 1 + i) = some blk.record.hash
  tip : t'.tipHeight = fork + branch.length ∧ ∀ height > t'.tipHeight, t'.hashAt height = none
  found : ∀ hash read, t.lookupByHash hash = .ok read → ∃ read', t'.lookupByHash hash = .ok read'

/-- The hash of a slot when the corrections are made in place and the new blocks follow. -/
def Tip.hashAfter (slot : Nat) : Option Hash :=
  match t.correction fork branch heights slot with
  | some blk => some blk.record.hash
  | none =>
    if slot < t.tipMeta.tipRecordCount then (t.record? slot).map (·.hash)
    else ((t.unknown branch)[slot - t.tipMeta.tipRecordCount]?).map (·.record.hash)

/-- The stores hold, as many positions earlier as there are corrections before it, what the windows
answer for a slot; the active store and the side index name the blocks they should. -/
structure InPlace : Prop where
  stored : ∀ slot < t.tipMeta.tipRecordCount, t.correction fork branch heights slot = none →
    t.disk.records.read (slot - corrections (t.correction fork branch heights) 0 slot) = t.record? slot ∧
    t.disk.derived.read (slot - corrections (t.correction fork branch heights) 0 slot) = t.derived? slot
  below : ∀ rel < t.tipMeta.kept fork, ∀ hash, t.hashAt (t.tipMeta.baseTipHeight + 1 + rel) = some hash →
    ∃ id slot, t.disk.active.read rel = some id ∧ t.tipMeta.slotOf id = some slot ∧
      t.hashAfter fork branch heights slot = some hash
  above : ∀ blk ∈ branch, ∀ id slot, t.disk.index blk.record.hash = some id → t.tipMeta.slotOf id = some slot →
    t.hashAfter fork branch heights slot = some blk.record.hash
  found : ∀ slot blk hash, t.correction fork branch heights slot = some blk → t.Finds hash →
    t.disk.index hash = some (t.tipMeta.idOf slot) → hash = blk.record.hash

end Frame

section Keeps
variable {t t' u : Tip} {fork : Int} {branch : List Append} {heights : List Int} {p : Plan}

private theorem correction_eq (planned : planReorg .reorg fork branch heights t = .ok p u) :
    t.correction fork branch heights = p.fixAt := by
  unfold Tip.correction
  rw [planned]

/-- The new blocks of a plan are the unknown ones of its branch. -/
theorem Plans.append_eq (plans : Plans kind t fork branch heights p) : p.append = t.unknown branch := by
  obtain ⟨sizes, -, forkIds, -, -, -, planned⟩ := plans
  have blocks : (branch.zip heights).map Prod.fst = branch := List.map_fst_zip (by omega)
  rw [planned.append]
  conv_rhs => rw [← blocks, Tip.unknown, List.filter_map]
  unfold Tip.fresh Tip.knows
  simp only [Function.comp_def, Option.not_isSome]

private theorem filter_position {α : Type} {q : α → Bool} {l : List α} {i : Nat} {x : α}
    (at_ : l[i]? = some x) (kept : q x = true) :
    (l.filter q)[((l.take i).filter q).length]? = some x := by
  obtain ⟨inside, here⟩ := List.getElem?_eq_some_iff.mp at_
  have split : l = l.take i ++ x :: l.drop (i + 1) := by
    rw [← here, List.getElem_cons_drop, List.take_append_drop]
  have whole : l.filter q = (l.take i).filter q ++ x :: (l.drop (i + 1)).filter q := by
    conv_lhs => rw [split, List.filter_append, List.filter_cons_of_pos kept]
  rw [whole, List.getElem?_append_right (Nat.le_refl _), Nat.sub_self]
  rfl

private theorem fixAt_mem (fixed : p.fixAt slot = some blk) : (slot, blk) ∈ p.fixes := by
  obtain ⟨fix, found, rfl⟩ := Option.map_eq_some_iff.mp fixed
  have same := List.find?_some found
  rw [decide_eq_true_eq] at same
  exact same ▸ List.mem_of_find?_eq_some found

/-- A plan's corrections are of committed slots. -/
theorem fixAt_lt (fitting : p.fitting t.tipMeta = true) (fixed : p.fixAt slot = some blk) :
    slot < t.tipMeta.tipRecordCount := by
  rw [Plan.fitting, Bool.and_eq_true, List.all_eq_true] at fitting
  simpa using fitting.1 slot (List.mem_map_of_mem (fixAt_mem fixed))

section Iff
variable (wf : t.WellFormed) (planned : planReorg .reorg fork branch heights t = .ok p u) (follows : Follows t p t')
  (idle : t.pend = [])

include planned follows in
/-- Other slots keep their entries exactly if these are where the copy takes them from. -/
theorem others_iff : (∀ slot < t.tipMeta.tipRecordCount, t.correction fork branch heights slot = none →
      t'.record? slot = t.record? slot ∧ t'.derived? slot = t.derived? slot) ↔
    ∀ slot < t.tipMeta.tipRecordCount, t.correction fork branch heights slot = none →
      t.disk.records.read (slot - corrections (t.correction fork branch heights) 0 slot) = t.record? slot ∧
      t.disk.derived.read (slot - corrections (t.correction fork branch heights) 0 slot) = t.derived? slot := by
  rw [correction_eq planned]
  refine forall_congr' fun slot => forall_congr' fun old => forall_congr' fun other => ?_
  rw [follows.record, follows.derived, if_pos old, if_pos old, other]
  exact Iff.rfl

include planned follows in
/-- When other slots keep their entries, every slot has the hash it should have. -/
theorem hash_after (fitting : p.fitting t.tipMeta = true)
    (others : ∀ slot < t.tipMeta.tipRecordCount, t.correction fork branch heights slot = none →
      t'.record? slot = t.record? slot ∧ t'.derived? slot = t.derived? slot) (slot : Nat) :
    t.hashAfter fork branch heights slot = (t'.record? slot).map (·.hash) := by
  have plans := (Ends.of_ok planReorg_ends planned).2
  unfold Tip.hashAfter
  cases fixed : t.correction fork branch heights slot with
  | some blk =>
    rw [correction_eq planned] at fixed
    simp [follows.record, fixAt_lt fitting fixed, fixed]
  | none =>
    dsimp only
    split
    · next old => rw [(others slot old fixed).1]
    · next new =>
      rw [follows.record, if_neg new, plans.append_eq, Option.map_map]
      rfl

include planned follows in
/-- Corrected slots hold the branch's entries, and the new blocks lie behind the old ones. -/
theorem corrected_entries (fitting : p.fitting t.tipMeta = true)
    (fixed : t.correction fork branch heights slot = some blk) :
    blk ∈ branch ∧ t'.record? slot = some blk.record ∧ t'.derived? slot = some blk.derived := by
  obtain ⟨sizes, -, forkIds, -, -, -, plan⟩ := (Ends.of_ok planReorg_ends planned).2
  rw [correction_eq planned] at fixed
  have member := (plan.fixed _ (fixAt_mem fixed)).2.1
  rw [List.map_fst_zip (by omega)] at member
  refine ⟨member, ?_, ?_⟩
  · simp [follows.record, fixAt_lt fitting fixed, fixed]
  · simp [follows.derived, fixAt_lt fitting fixed, fixed]

include planned follows in
private theorem appended_entries (new : (t.unknown branch)[i]? = some blk) :
    t'.record? (t.tipMeta.tipRecordCount + i) = some blk.record ∧
      t'.derived? (t.tipMeta.tipRecordCount + i) = some blk.derived := by
  rw [← (Ends.of_ok planReorg_ends planned).2.append_eq] at new
  rw [follows.record, follows.derived, if_neg (by omega), if_neg (by omega), Nat.add_sub_cancel_left, new]
  exact ⟨rfl, rfl⟩

include planned in
private theorem fork_height : fork = t.tipMeta.baseTipHeight + p.keep ∧ p.keep = t.tipMeta.kept fork ∧
    p.active.length = p.keep + branch.length := by
  obtain ⟨sizes, range, forkIds, length, -, -, plan⟩ := (Ends.of_ok planReorg_ends planned).2
  have keep := plan.keep
  have total := plan.length
  rw [List.length_zip, sizes, Nat.min_self] at total
  have above : t.tipMeta.baseTipHeight ≤ fork := by
    simp only [ReorgKind.inRange, Bool.or_eq_true, beq_iff_eq, Bool.and_eq_true, decide_eq_true_eq] at range
    omega
  exact ⟨by omega, keep, by omega⟩

include planned follows in
/-- The height of a branch block resolves to the slot the side index gives the block. -/
theorem branch_entry (at_ : branch[i]? = some blk) : ∃ id slot,
    t'.active? (p.keep + i) = some id ∧ t'.tipMeta.slotOf id = some slot ∧
      (t.disk.index blk.record.hash = some id ∨
        (t.disk.index blk.record.hash = none ∧ t'.record? slot = some blk.record)) := by
  obtain ⟨sizes, -, forkIds, length, -, -, plan⟩ := (Ends.of_ok planReorg_ends planned).2
  have inside := (List.getElem?_eq_some_iff.mp at_).1
  have keep : p.keep = forkIds.length := by rw [length]; exact plan.keep
  have item : (branch.zip heights)[i]? = some (blk, heights[i]) := by
    rw [List.getElem?_zip_eq_some]
    exact ⟨at_, List.getElem?_eq_getElem _⟩
  rw [follows.active, if_neg (by omega), keep]
  cases known : t.knows (blk, heights[i]) with
  | true =>
    obtain ⟨id, slot, committed, promoted, entry, -⟩ := plan.promoted i _ item known
    exact ⟨id, slot, entry, by rw [follows.slotOf]; exact promoted.slotted, .inl promoted.indexed⟩
  | false =>
    have missing : t.disk.index blk.record.hash = none := by simpa [Tip.knows] using known
    refine ⟨_, _, plan.fresh i _ item known, by rw [follows.slotOf, slotOf_idOf], .inr ⟨missing, ?_⟩⟩
    have place : p.append[(t.fresh ((branch.zip heights).take i)).length]? = some blk := by
      rw [plan.append, List.getElem?_map, Tip.fresh, Tip.fresh, filter_position item (by simp [known])]
      rfl
    rw [follows.record, if_neg (by omega), Nat.add_sub_cancel_left, place]
    rfl

include wf planned follows idle in
private theorem keeps_of_inPlace (fitting : p.fitting t.tipMeta = true) (place : InPlace t fork branch heights) :
    KeepsRecords t fork branch heights t' := by
  have others := (others_iff planned follows).mpr place.stored
  have after := hash_after planned follows fitting others
  obtain ⟨height, keep, total⟩ := fork_height planned
  have idle' : t'.pend = [] := follows.pend.trans idle
  refine ⟨others, fun _ _ => corrected_entries planned follows fitting, fun _ _ =>
    appended_entries planned follows, ?_, ?_, ?_, ⟨?_, ?_⟩, ?_⟩
  · rw [follows.committed, (Ends.of_ok planReorg_ends planned).2.append_eq]
  · intro h below hash found
    obtain ⟨rel, -, -, -, -, isHeight, -⟩ := Tip.hashAt_some.mp found
    subst isHeight
    obtain ⟨id, slot, active, slotted, stored⟩ := place.below rel (by omega) hash found
    have active' : t'.active? rel = some id := by rw [follows.active, if_pos (by omega), active]
    exact follows.hashAt active' (by rw [follows.slotOf]; exact slotted) (by rw [← after]; exact stored)
  · intro i blk at_
    obtain ⟨id, slot, active, slotted, entry⟩ := branch_entry planned follows at_
    have stored : (t'.record? slot).map (·.hash) = some blk.record.hash := by
      rcases entry with indexed | ⟨-, record⟩
      · rw [← after]
        exact place.above blk (List.mem_of_getElem? at_) id slot indexed (by rw [← follows.slotOf]; exact slotted)
      · rw [record]; rfl
    have resolved := follows.hashAt active slotted stored
    rwa [show t.tipMeta.baseTipHeight + 1 + ((p.keep + i : Nat) : Int) = fork + 1 + i by omega] at resolved
  · rw [Tip.tipHeight_idle idle', follows.height]
    omega
  · intro h beyond
    rw [Tip.tipHeight_idle idle', follows.height] at beyond
    by_contra some
    obtain ⟨hash, found⟩ := Option.ne_none_iff_exists'.mp some
    obtain ⟨rel, -, -, -, -, isHeight, inside, -⟩ := Tip.hashAt_some.mp found
    rw [follows.activeCount] at inside
    rw [follows.base] at isHeight
    omega
  · intro hash read found
    rw [Tip.lookupByHash_idle idle']
    rw [Tip.lookupByHash_idle idle] at found
    obtain ⟨id, slot, indexed, slotted, inside, -, record, -, same, -⟩ := Tip.lookupDurable_ok.mp found
    have slotted' : t'.tipMeta.slotOf id = some slot := by rw [follows.slotOf]; exact slotted
    refine follows.finds (follows.known indexed) slotted' ?_
    rw [← after, Tip.hashAfter]
    cases fixed : t.correction fork branch heights slot with
    | some blk =>
      rw [place.found slot blk hash fixed ⟨read, found⟩ (by rw [idOf_slotOf slotted]; exact indexed)]
    | none =>
      rw [wf.recordCount] at inside
      simp [inside, record, same]

include planned follows idle in
private theorem inPlace_of_keeps (fitting : p.fitting t.tipMeta = true)
    (keeps : KeepsRecords t fork branch heights t') :
    InPlace t fork branch heights := by
  have after := hash_after planned follows fitting keeps.others
  obtain ⟨height, keep, total⟩ := fork_height planned
  have idle' : t'.pend = [] := follows.pend.trans idle
  refine ⟨(others_iff planned follows).mp keeps.others, ?_, ?_, ?_⟩
  · intro rel below hash found
    obtain ⟨rel', id, slot, r, d, same, -, active, slotted, -, record, -, rfl⟩ :=
      Tip.hashAt_some.mp (keeps.below _ (by omega) hash found)
    rw [follows.base] at same
    obtain rfl : rel = rel' := by omega
    rw [follows.active, if_pos (by omega)] at active
    rw [follows.slotOf] at slotted
    exact ⟨id, slot, active, slotted, by rw [after, record]; rfl⟩
  · intro blk member id slot indexed slotted
    obtain ⟨i, at_⟩ := List.mem_iff_getElem?.mp member
    obtain ⟨id', slot', active, slotted', entry⟩ := branch_entry planned follows at_
    obtain ⟨rel, id'', slot'', r, d, same, -, active'', slotted'', -, record, -, isHash⟩ :=
      Tip.hashAt_some.mp (keeps.above i blk at_)
    rw [follows.base] at same
    obtain rfl : p.keep + i = rel := by omega
    rw [active] at active''
    cases active''
    rcases entry with indexed' | ⟨missing, -⟩
    · rw [indexed] at indexed'
      cases indexed'
      rw [follows.slotOf, slotted] at slotted''
      cases slotted''
      rw [after, record, ← isHash]
      rfl
    · rw [indexed] at missing
      cases missing
  · intro slot blk hash fixed finds indexed
    obtain ⟨read, found⟩ := finds
    obtain ⟨read', found'⟩ := keeps.found hash read (by rw [Tip.lookupByHash_idle idle]; exact found)
    rw [Tip.lookupByHash_idle idle'] at found'
    obtain ⟨id, slot', indexed', slotted, -, -, record, -, same, -⟩ := Tip.lookupDurable_ok.mp found'
    rw [follows.known indexed] at indexed'
    cases indexed'
    rw [follows.slotOf, slotOf_idOf] at slotted
    cases slotted
    rw [(corrected_entries planned follows fitting fixed).2.1] at record
    rw [← same, ← Option.some.inj record]

end Iff
end Keeps

section Reorg
variable [Digest] {io flush : Point → Option Fault} {t t' : Tip} {fork : Int} {branch : List Append}
    {heights : List Int}

/-- A reorganisation that returns OK keeps every record exactly if the entries it copies lie where
it takes them from. With nothing buffered the authority is the one before the call; buffered
appends are published first. -/
theorem reorg_keeps_iff (wf : t.WellFormed) (ok : reorgActiveTo io flush fork branch heights t = .ok () t') :
    ∃ u, flushPendingAppends flush t = .ok () u ∧ (t.pend = [] → u = t) ∧
      (KeepsRecords u fork branch heights t' ↔ InPlace u fork branch heights) := by
  obtain ⟨_, u, flushed, reorged⟩ := bind_ok ok
  refine ⟨u, flushed, fun idle => ?_, ?_⟩
  · rcases flush_ok flushed with ⟨-, same⟩ | ⟨pending, -⟩
    · exact same
    · exact absurd idle pending
  have wf' := flush_wellFormed.ok wf flushed
  have idle : u.pend = [] := flush_idle flushed
  obtain ⟨p, v, planned, done⟩ := reorgActive_ok reorged
  have covers := ((Ends.of_ok planReorg_ends planned).2.within wf').2
  have follows := done.follows covers
  obtain ⟨records, derived, w, tipHash, rewritten, -⟩ := done
  have fitting := rewritten.rewrites.fitting
  exact ⟨inPlace_of_keeps planned follows idle fitting, keeps_of_inPlace wf' planned follows idle fitting⟩

end Reorg

/-- A branch block with another money supply than its committed record. -/
def resupplied (n parent : Nat) (height : Int) : Append :=
  ⟨{ (plainBlock n parent height).record with nMoneySupply := 5 }, {}⟩

/-- Two side blocks, the one to be promoted in the last slot. -/
def sidesTip : Tip :=
  endState (@appendBatch sha256Digest quiet [plainBlock 3 2 12, plainBlock 2 1 11] [-1, -1]) freshTip

private theorem sidesTip_wellFormed : sidesTip.WellFormed := by
  let := sha256Digest
  have ran := run_of_succeeds (x := appendBatch quiet [plainBlock 3 2 12, plainBlock 2 1 11] [-1, -1])
    (s := freshTip) (by decide +kernel)
  exact appendBatch_wellFormed.ok (createTip_wellFormed 1 0 10 (shortHash 1)) ran

/-- The corrections of a plan by slot and hash. -/
theorem correction_mem {fixes : List (Nat × Hash)} (listed : (match planReorg .reorg fork branch heights t with
      | .ok p _ => p.fixes.map fun fix => (fix.1, fix.2.record.hash)
      | .error _ _ => []) = fixes) (fixed : t.correction fork branch heights slot = some blk) :
    (slot, blk.record.hash) ∈ fixes := by
  unfold Tip.correction at fixed
  split at fixed
  · next p u planned =>
    rw [planned] at listed
    rw [← listed]
    exact List.mem_map_of_mem (f := fun fix : Nat × Append => (fix.1, fix.2.record.hash)) (fixAt_mem fixed)
  · cases fixed

theorem last_slot_corrected_keeps :
    ∃ t', @reorgActiveTo sha256Digest quiet quiet 10 [resupplied 2 1 11] [11] sidesTip = .ok () t' ∧
    KeepsRecords sidesTip 10 [resupplied 2 1 11] [11] t' := by
  let := sha256Digest
  have ran := run_of_succeeds (x := reorgActiveTo quiet quiet 10 [resupplied 2 1 11] [11])
    (s := sidesTip) (by decide +kernel)
  obtain ⟨u, -, same, keeps⟩ := reorg_keeps_iff sidesTip_wellFormed ran
  have idle : sidesTip.pend = [] := by decide +kernel
  obtain rfl := same idle
  have corrected {slot : Nat} {blk : Append} (fixed : sidesTip.correction 10 [resupplied 2 1 11] [11] slot = some blk) :
      (slot, blk.record.hash) ∈ [(1, shortHash 2)] := correction_mem (by decide +kernel) fixed
  refine ⟨_, ran, keeps.mpr
    ⟨fun slot below other => ?_, fun rel below => ?_, fun blk member id slot indexed slotted => ?_,
    fun slot blk hash fixed finds indexed => ?_⟩⟩
  · have two : sidesTip.tipMeta.tipRecordCount = 2 := by decide +kernel
    match slot with
    | 0 => exact ⟨by decide +kernel, by decide +kernel⟩
    | 1 =>
      have fixes : (sidesTip.correction 10 [resupplied 2 1 11] [11] 1).isSome = true := by decide +kernel
      rw [other] at fixes
      cases fixes
    | slot + 2 => omega
  · exact absurd below (Nat.not_lt_zero rel)
  · rw [List.mem_singleton] at member
    subst member
    cases indexed
    cases slotted
    decide +kernel
  · have place := corrected fixed
    simp only [List.mem_singleton, Prod.mk.injEq] at place
    obtain ⟨rfl, isHash⟩ := place
    obtain ⟨read, found⟩ := finds
    obtain ⟨id, slot, indexed', slotted, -, -, record, -, same, -⟩ := Tip.lookupDurable_ok.mp found
    rw [indexed] at indexed'
    cases indexed'
    rw [slotOf_idOf] at slotted
    cases slotted
    have stored : (sidesTip.record? 1).map (·.hash) = some (shortHash 2) := by decide +kernel
    rw [record] at stored
    rw [isHash, ← same]
    exact Option.some.inj stored

/-- The same blocks, the one to be promoted first. -/
def promotedFirstTip : Tip :=
  endState (@appendBatch sha256Digest quiet [plainBlock 2 1 11, plainBlock 3 2 12] [-1, -1]) freshTip

/-- The record behind the corrected slot is replaced by the one that was corrected. -/
theorem record_behind_correction_lost :
    ∃ t', @reorgActiveTo sha256Digest quiet quiet 10 [resupplied 2 1 11] [11] promotedFirstTip = .ok () t' ∧
      promotedFirstTip.tipMeta.tipRecordCount = 2 ∧ promotedFirstTip.correction 10 [resupplied 2 1 11] [11] 1 = none ∧
      promotedFirstTip.record? 1 = some (plainBlock 3 2 12).record ∧ t'.record? 1 = some (plainBlock 2 1 11).record ∧
      (promotedFirstTip.lookupByHash (shortHash 3)).toBool = true ∧
        t'.lookupByHash (shortHash 3) = .error .notFound := by
  let := sha256Digest
  have ran := run_of_succeeds (x := reorgActiveTo quiet quiet 10 [resupplied 2 1 11] [11])
    (s := promotedFirstTip) (by decide +kernel)
  exact ⟨_, ran, by decide +kernel, by decide +kernel, by decide +kernel, by decide +kernel,
    by decide +kernel, by decide +kernel⟩

end Innova.BlockIndex
