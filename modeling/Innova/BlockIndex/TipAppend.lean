import Innova.BlockIndex.TipSteps

/-! What an append leaves behind: which blocks of a batch are new, where they are placed, and what
the stores answer when the batch is published. -/
namespace Innova.BlockIndex
open Lib Chainstate

/-! ## The new blocks of a batch -/

section Gather
variable {t : Tip} {batch : List (Append × Int)} {g : Gathered}

/-- The side index knows the block, from this batch's stores or from anything else. -/
def Tip.knows (t : Tip) (item : Append × Int) : Bool := (t.disk.index item.1.record.hash).isSome

/-- The blocks of a batch that the side index does not know. -/
def Tip.fresh (t : Tip) (batch : List (Append × Int)) : List (Append × Int) := batch.filter fun item => !t.knows item

/-- The blocks of a batch that are to stand in the active chain. -/
def actives (batch : List (Append × Int)) : List (Append × Int) := batch.filter fun item => decide (0 ≤ item.2)

/-- How the new blocks of a batch are placed. -/
structure Gathers (t : Tip) (fresh : List (Append × Int)) (g : Gathered) : Prop where
  blocks : g.blocks = fresh.map (·.1)
  length : g.active.length = (actives fresh).length
  /-- The active entries are the ids of the active blocks, one height above the other. -/
  placed : ∀ (j : Nat) item, (actives fresh)[j]? = some item → ∃ i : Nat, fresh[i]? = some item ∧
    g.active[j]? = some (t.tipMeta.idOf (t.tipMeta.tipRecordCount + i)) ∧ item.2 = t.tipMeta.tipHeight + 1 + j
  /-- An active block's parent is the active block before it, or the tip. -/
  linked : ∀ (j : Nat) item, (actives fresh)[j]? = some item →
    let parent := ((actives fresh).take j).getLast?.elim t.attachTo (·.1.record.hash)
    parent ≠ ByteArr.zero 32 → item.1.record.hashPrev = parent
  expected : g.expectedActive = t.tipMeta.tipHeight + (actives fresh).length
  parent : g.expectPrev = (actives fresh).getLast?.elim t.attachTo (·.1.record.hash)

private theorem gathers_nil : Gathers t [] ⟨t.tipMeta.tipHeight, t.attachTo, [], []⟩ where
  blocks := rfl
  length := rfl
  placed := by simp [actives]
  linked := by simp [actives]
  expected := by simp [actives]
  parent := rfl

private theorem Gathers.step (gathers : Gathers t fresh g) (new : t.knows item = false)
    (stepped : gatherStep t g item = .ok g') : Gathers t (fresh ++ [item]) g' := by
  obtain ⟨blk, ah⟩ := item
  have unknown : ¬(t.disk.index blk.record.hash).isSome = true := by simpa [Tip.knows] using new
  simp only [gatherStep, if_neg unknown] at stepped
  split at stepped
  · next active =>
    split at stepped
    · cases stepped
    split at stepped
    · cases stepped
    next attached =>
    cases stepped
    have snoc : actives (fresh ++ [(blk, ah)]) = actives fresh ++ [(blk, ah)] := by simp [actives, active]
    have height : ah = t.tipMeta.tipHeight + 1 + (actives fresh).length := by
      have expected := gathers.expected
      omega
    have place : g.blocks.length = fresh.length := by rw [gathers.blocks, List.length_map]
    have at_last {j n : Nat} {item : Append × Int} (last : ¬j < n) (found : [(blk, ah)][j - n]? = some item) :
        j = n ∧ (blk, ah) = item := by
      obtain ⟨here, same⟩ := by simpa [List.getElem?_singleton] using found
      exact ⟨by omega, same⟩
    refine ⟨by simp [gathers.blocks], by simp [snoc, gathers.length], ?_, ?_,
      by simp only [snoc, List.length_append]; simp; omega, by simp [snoc]⟩
    · intro j item found
      rw [snoc, List.getElem?_append] at found
      split at found
      · next old =>
        obtain ⟨i, place, entry, height⟩ := gathers.placed j item found
        refine ⟨i, ?_, ?_, height⟩
        · rw [List.getElem?_append_left (List.getElem?_eq_some_iff.mp place).1, place]
        · rw [List.getElem?_append_left (by rw [gathers.length]; exact old), entry]
      · next last =>
        obtain ⟨position, rfl⟩ := at_last last found
        refine ⟨fresh.length, by simp, ?_, by rw [position]; exact height⟩
        rw [position, ← gathers.length]
        simp [place]
    · intro j item found
      rw [snoc] at found ⊢
      rw [List.getElem?_append] at found
      split at found
      · next old =>
        rw [List.take_append_of_le_length (by omega)]
        exact gathers.linked j item found
      · next last =>
        obtain ⟨position, rfl⟩ := at_last last found
        rw [position, List.take_left, ← gathers.parent]
        intro parent nonzero
        by_contra different
        exact attached ⟨nonzero, different⟩
  · next side =>
    cases stepped
    have same : actives (fresh ++ [(blk, ah)]) = actives fresh := by simp [actives, side]
    refine ⟨by simp [gathers.blocks], by rw [same, gathers.length], ?_, by rw [same]; exact gathers.linked,
      by rw [same, gathers.expected], by rw [same, gathers.parent]⟩
    intro j item found
    rw [same] at found
    obtain ⟨i, place, entry⟩ := gathers.placed j item found
    exact ⟨i, by rw [List.getElem?_append_left (List.getElem?_eq_some_iff.mp place).1, place], entry⟩

private theorem gather_ok (gathered : gather t batch = .ok g) : Gathers t (t.fresh batch) g := by
  induction batch using List.reverseRecOn generalizing g with
  | nil => cases gathered; exact gathers_nil
  | append_singleton batch item ih =>
    rw [gather, List.foldlM_append] at gathered
    cases before : batch.foldlM (gatherStep t) ⟨t.tipMeta.tipHeight, t.attachTo, [], []⟩ with
    | error e => rw [before] at gathered; cases gathered
    | ok g₀ =>
      rw [before] at gathered
      have stepped : gatherStep t g₀ item = .ok g := by
        change (gatherStep t g₀ item).bind pure = _ at gathered
        cases step : gatherStep t g₀ item <;> rw [step] at gathered <;> exact gathered
      cases known : t.knows item with
      | true =>
        have same : t.fresh (batch ++ [item]) = t.fresh batch := by simp [Tip.fresh, known]
        rw [Tip.knows] at known
        rw [gatherStep, if_pos known] at stepped
        cases stepped
        rw [same]
        exact ih before
      | false =>
        have snoc : t.fresh (batch ++ [item]) = t.fresh batch ++ [item] := by simp [Tip.fresh, known]
        rw [snoc]
        exact (ih before).step known stepped

/-- Each active entry of a batch is the id of one of its active blocks. -/
theorem Gathers.entry (gathers : Gathers t fresh g) {j id : Nat} (entry : g.active[j]? = some id) :
    ∃ i item, fresh[i]? = some item ∧ (actives fresh)[j]? = some item ∧
      id = t.tipMeta.idOf (t.tipMeta.tipRecordCount + i) ∧ item.2 = t.tipMeta.tipHeight + 1 + j := by
  have inside := (List.getElem?_eq_some_iff.mp entry).1
  rw [gathers.length] at inside
  have here := List.getElem?_eq_getElem inside
  obtain ⟨i, place, entry', height⟩ := gathers.placed j _ here
  rw [entry] at entry'
  cases entry'
  exact ⟨i, _, place, here, rfl, height⟩

end Gather

/-! ## The side index -/

section Index
variable {hash : Hash} {id : Nat}

private theorem enterRecord_known (known : index hash = some id) : enterRecord entered r index hash = some id := by
  unfold enterRecord
  split
  · exact known
  · next missing =>
    by_cases same : hash = r.hash
    · simp [← same, known] at missing
    · rw [Function.update_of_ne same, known]

/-- Entries of the index are not replaced. -/
theorem enterRecords_known (known : index hash = some id) : enterRecords m slot rs index hash = some id := by
  induction rs generalizing slot index with
  | nil => exact known
  | cons r rs ih => exact ih (enterRecord_known known)

/-- Entering records keeps what the index knew. -/
theorem keeps_known (known : index hash = some id) :
    Step.Keeps (fun s : Tip => s.disk.index hash = some id) (putSteps m error first k index rs) := by
  induction rs generalizing k index with
  | nil => exact Step.keeps_nil
  | cons r rs ih =>
    refine Step.Keeps.append ?_ (ih (enterRecord_known known))
    split
    · exact keeps_check
    · next missing =>
      refine Keeps.disk (fun s held => ?_) (fun _ _ _ held => held) Step.keeps_nil
      have other : hash ≠ r.hash := by
        rintro rfl
        rw [known] at missing
        cases missing
      exact (Function.update_of_ne other _ _).trans held

/-- When every entry went through, each record is found at its own slot. -/
theorem puts_entered (passed : ∀ x ∈ putSteps m error first k index rs, x.Passes io) (found : rs[i]? = some r) :
    enterRecords m (first + k) rs index r.hash = some (m.idOf (first + k + i)) := by
  induction rs generalizing index k i with
  | nil => cases found
  | cons r₀ rs ih =>
    rw [putSteps] at passed
    have later := fun x member => passed x (List.mem_append_right _ member)
    rw [enterRecords]
    cases i with
    | succ i =>
      have entered := ih later (i := i) found
      rw [show first + (k + 1) = first + k + 1 by omega] at entered
      rw [entered, show first + k + 1 + i = first + k + (i + 1) by omega]
    | zero =>
      cases found
      refine enterRecords_known ?_
      unfold enterRecord
      cases known : index r.hash with
      | none => simp
      | some id =>
        have agrees : id = m.idOf (first + k) := by
          by_contra differs
          simp only [known, check, beq_iff_eq, differs, if_false] at passed
          exact passed _ (List.mem_append_left _ (List.mem_singleton_self _))
        simp [known, agrees]

end Index

/-! ## Open states

Whatever calls an authority saw, and wherever they stopped, its windows count what `tip.meta`
says and the stores have entries for all committed slots. The active store may be shorter than
its window: a failed call leaves it so. -/

structure Tip.WellFormed (t : Tip) : Prop where
  recordCount : t.recordsWin.count = t.tipMeta.tipRecordCount
  derivedCount : t.derivedWin.count = t.tipMeta.tipRecordCount
  activeCount : t.activeWin.count = t.tipMeta.activeCount
  recordShape : t.recordsWin.Shaped ringCap
  derivedShape : t.derivedWin.Shaped ringCap
  activeShape : t.activeWin.Shaped ringCap
  above : t.tipMeta.baseTipHeight ≤ t.tipMeta.tipHeight
  records : t.disk.records.Readable t.tipMeta.tipRecordCount
  derived : t.disk.derived.Readable t.tipMeta.tipRecordCount
  active : t.disk.active.Legible t.tipMeta.activeCount

theorem Tip.WellFormed.onDisk {t : Tip} (wf : t.WellFormed)
    (records : (effect t.disk).records.Readable t.tipMeta.tipRecordCount)
    (derived : (effect t.disk).derived.Readable t.tipMeta.tipRecordCount)
    (active : (effect t.disk).active.Legible t.tipMeta.activeCount) : (t.onDisk effect).WellFormed :=
  { wf with records, derived, active }

section Create
variable [Digest]

theorem createTip_wellFormed (generation records : Nat) (height : Int) (base : Hash) :
    ({ createTip generation records height with baseTipHash := base } : Tip).WellFormed where
  recordCount := rfl
  derivedCount := rfl
  activeCount := (Int.toNat_eq_zero.mpr (by simp [createTip])).symm
  recordShape := Window.shaped_setCount 0
  derivedShape := Window.shaped_setCount 0
  activeShape := Window.shaped_setCount 0
  above := Int.le_refl _
  records := fun _ below => absurd below (Nat.not_lt_zero _)
  derived := fun _ below => absurd below (Nat.not_lt_zero _)
  active := fun _ _ inside => absurd inside (Nat.not_lt_zero _)

end Create

/-! ## A published batch -/

section Published
variable [Digest] {io : Point → Option Fault} {t t' : Tip} {g : Gathered}

/-- The authority when an append has published its meta. -/
def Tip.published (t : Tip) (g : Gathered) : Tip :=
  (adoptAppend g (t.filed g)).onDisk fun d =>
    { d with head := some (some (encodeTipMeta (adoptAppend g (t.filed g)).tipMeta)) }

private theorem after_commit : Step.after (commitSteps t g) t = t.published g := by
  unfold commitSteps
  rw [Step.after_append, after_filing]
  rfl

/-- What an append that returns OK has done. -/
inductive Appended (io : Point → Option Fault) (t : Tip) (batch : List (Append × Int)) (t' : Tip) : Prop where
  /-- Every block was known. -/
  | nothing (known : t.fresh batch = []) (same : t' = t)
  | published (g : Gathered) (gathers : Gathers t (t.fresh batch) g) (some : t.fresh batch ≠ [])
      (valid : ∀ item ∈ t.fresh batch, validateRecord item.1.record = true)
      (passed : ∀ x ∈ commitSteps t g, x.Passes io) (is : t' = t.published g)

theorem appendBatch_ok (ok : appendBatch io blocks heights t = .ok () t') :
    blocks.length = heights.length ∧ Appended io t (blocks.zip heights) t' := by
  rw [appendBatch_run, Step.run_ok] at ok
  obtain ⟨passed, rfl⟩ := ok
  unfold appendSteps at passed ⊢
  rw [List.forall_mem_append, passes_check, beq_iff_eq] at passed
  rw [Step.after_append, after_check]
  refine ⟨passed.1, ?_⟩
  cases gathered : gather t (blocks.zip heights) with
  | error e =>
    rw [gathered] at passed
    exact (passed.2 _ (List.mem_singleton_self _)).elim
  | ok g =>
    rw [gathered] at passed
    have gathers := gather_ok gathered
    by_cases none : g.blocks.isEmpty = true
    · simp only [none, if_true, Step.after_nil]
      rw [List.isEmpty_iff, gathers.blocks, List.map_eq_nil_iff] at none
      exact .nothing none rfl
    · simp only [none, if_false, Bool.false_eq_true, List.forall_mem_append, passes_check] at passed ⊢
      obtain ⟨-, valid, passed⟩ := passed
      rw [gathers.blocks, List.all_eq_true] at valid
      refine .published g gathers ?_ ?_ ?_ ?_
      · rintro empty
        simp [gathers.blocks, empty] at none
      · intro item member
        exact valid _ (List.mem_map_of_mem member)
      · exact passed
      · rw [Step.after_append, after_check]
        exact after_commit

/-- A batch that does not return OK is refused before it writes, whatever faults there are, or
stops on the way to its commit. -/
theorem appendBatch_error (stopped : appendBatch io blocks heights t = .error e u) :
    (u = t ∧ ∀ io', appendBatch io' blocks heights t = .error e t) ∨
      ∃ g, Gathers t (t.fresh (blocks.zip heights)) g ∧ t.fresh (blocks.zip heights) ≠ [] ∧
        Step.run io (commitSteps t g) t = .error e u := by
  have refused (io : Point → Option Fault) {status : Status} {text : String} {ys : List TipStep} :
      Step.run io (check false (.failed status text) ++ ys) t = .error (.failed status text) t := rfl
  simp only [appendBatch_run, appendSteps] at stopped ⊢
  cases sizes : blocks.length == heights.length with
  | false =>
    rw [sizes] at stopped
    cases stopped
    exact .inl ⟨rfl, fun io' => refused io'⟩
  | true =>
    rw [sizes] at stopped
    cases gathered : gather t (blocks.zip heights) with
    | error e' =>
      rw [gathered] at stopped
      cases stopped
      exact .inl ⟨rfl, fun io' => rfl⟩
    | ok g =>
      rw [gathered] at stopped
      have gathers := gather_ok gathered
      by_cases none : g.blocks.isEmpty = true
      · simp only [none, if_true] at stopped
        cases stopped
      · simp only [none, if_false, Bool.false_eq_true] at stopped ⊢
        cases valid : g.blocks.all fun blk => validateRecord blk.record with
        | false =>
          rw [valid] at stopped
          cases stopped
          exact .inl ⟨rfl, fun io' => rfl⟩
        | true =>
          rw [valid] at stopped
          refine .inr ⟨g, gathers, ?_, stopped⟩
          rintro empty
          simp [gathers.blocks, empty] at none

/-- The stores have room for new entries behind the committed ones. -/
structure Room (t : Tip) : Prop where
  records : t.disk.records.short t.tipMeta.tipRecordCount = false
  derived : t.disk.derived.short t.tipMeta.tipRecordCount = false
  active : t.disk.active.short t.tipMeta.activeCount = false

omit [Digest] in
theorem room_of_growth (passed : ∀ x ∈ growthSteps t g, x.Passes io) : Room t := by
  simp only [growthSteps, trimSteps, List.forall_mem_append, passes_check, Bool.not_eq_eq_eq_not,
    Bool.not_true] at passed
  exact ⟨passed.1.1, passed.2.1.1, passed.2.2.1.1⟩

theorem room_of_commit (passed : ∀ x ∈ commitSteps t g, x.Passes io) : Room t := by
  unfold commitSteps filing storeSteps at passed
  simp only [List.forall_mem_append] at passed
  exact room_of_growth passed.1.1.1

section Answers
variable (wf : t.WellFormed) (room : Room t)
include wf room

theorem published_record (slot : Nat) : (t.published g).record? slot =
    if slot < t.tipMeta.tipRecordCount then (t.recordsWin.shed ringCap g.blocks.length).get t.disk.records slot
    else (g.blocks.map (·.record))[slot - t.tipMeta.tipRecordCount]? := by
  have answers := wf.recordShape.get_pushAll g.content.records (by rw [wf.recordCount]; exact room.records) slot
  rw [wf.recordCount, show g.content.records.length = g.blocks.length from List.length_map _] at answers
  exact answers

theorem published_derived (slot : Nat) : (t.published g).derived? slot =
    if slot < t.tipMeta.tipRecordCount then (t.derivedWin.shed ringCap g.blocks.length).get t.disk.derived slot
    else (g.blocks.map (·.derived))[slot - t.tipMeta.tipRecordCount]? := by
  have answers := wf.derivedShape.get_pushAll g.content.derived (by rw [wf.derivedCount]; exact room.derived) slot
  rw [wf.derivedCount, show g.content.derived.length = g.blocks.length from List.length_map _] at answers
  exact answers

theorem published_active (rel : Nat) : (t.published g).active? rel =
    if rel < t.tipMeta.activeCount then (t.activeWin.shed ringCap g.active.length).get t.disk.active rel
    else g.active[rel - t.tipMeta.activeCount]? := by
  have answers := wf.activeShape.get_pushAll g.content.active (by rw [wf.activeCount]; exact room.active) rel
  rw [wf.activeCount] at answers
  exact answers

end Answers

section Counts
variable (wf : t.WellFormed)
include wf

theorem published_counts : (t.published g).recordsWin.count = t.tipMeta.tipRecordCount + g.blocks.length ∧
    (t.published g).derivedWin.count = t.tipMeta.tipRecordCount + g.blocks.length ∧
    (t.published g).activeWin.count = t.tipMeta.activeCount + g.active.length := by
  have records := Window.pushAll_eq wf.recordShape.fits g.content.records
  have derived := Window.pushAll_eq wf.derivedShape.fits g.content.derived
  have active := Window.pushAll_eq wf.activeShape.fits g.content.active
  change (t.recordsWin.pushAll ringCap g.content.records).count = _ ∧
    (t.derivedWin.pushAll ringCap g.content.derived).count = _ ∧
      (t.activeWin.pushAll ringCap g.content.active).count = _
  rw [records, derived, active, wf.recordCount, wf.derivedCount, wf.activeCount]
  simp [Gathered.content]

omit [Digest] wf in
private theorem appendMeta_above (above : t.tipMeta.baseTipHeight ≤ t.tipMeta.tipHeight) :
    t.tipMeta.baseTipHeight ≤ (appendMeta t.tipMeta g).tipHeight := by
  simp only [appendMeta]
  split
  · exact Int.le_refl _
  · split <;> omega

omit [Digest] wf in
private theorem appendMeta_activeCount :
    (appendMeta t.tipMeta g).activeCount = t.tipMeta.activeCount + g.active.length := by
  change ((if t.tipMeta.activeCount + g.active.length = 0 then t.tipMeta.baseTipHeight else
    if g.active ≠ [] then t.tipMeta.baseTipHeight + (t.tipMeta.activeCount + g.active.length : Nat) else
      t.tipMeta.tipHeight) -
      t.tipMeta.baseTipHeight).toNat = _
  by_cases none : t.tipMeta.activeCount + g.active.length = 0
  · rw [if_pos none, none]
    omega
  by_cases sides : g.active = []
  · rw [if_neg none, if_neg (not_not.mpr sides), sides]
    rfl
  · rw [if_neg none, if_pos sides]
    omega

private theorem published_wellFormed (room : Room t) : (t.published g).WellFormed where
  recordCount := (published_counts wf).1
  derivedCount := (published_counts wf).2.1
  activeCount := (published_counts wf).2.2.trans appendMeta_activeCount.symm
  recordShape := wf.recordShape.pushAll _
  derivedShape := wf.derivedShape.pushAll _
  activeShape := wf.activeShape.pushAll _
  above := appendMeta_above wf.above
  records := by
    have readable := wf.records.published room.records g.content.records
    rwa [show g.content.records.length = g.blocks.length from List.length_map _] at readable
  derived := by
    have readable := wf.derived.published room.derived g.content.derived
    rwa [show g.content.derived.length = g.blocks.length from List.length_map _] at readable
  active := by
    have readable := ((wf.active.readable room.active).published room.active g.content.active).legible
    exact appendMeta_activeCount (t := t) (g := g) ▸ readable

end Counts

/-! ## A batch that stops -/

/-- The meta in memory is still the committed one of `t`. -/
def Tip.Steady (t u : Tip) : Prop := u.WellFormed ∧ u.tipMeta = t.tipMeta

omit [Digest] in
private theorem keeps_growth : Step.Keeps (Tip.Steady t) (growthSteps t g) := by
  unfold growthSteps
  refine (keeps_trim fun v held => ?_).append
    ((keeps_trim fun v held => ?_).append ((keeps_trim fun v held => ?_).append
    ((keeps_grow fun v entries torn held => ?_).append ((keeps_grow fun v entries torn held => ?_).append
      (keeps_grow fun v entries torn held => ?_)))))
  all_goals obtain ⟨wf, same⟩ := held; refine ⟨?_, same⟩
  · exact wf.onDisk (wf.records.cut (by rw [same])) wf.derived wf.active
  · exact wf.onDisk wf.records (wf.derived.cut (by rw [same])) wf.active
  · exact wf.onDisk wf.records wf.derived (wf.active.cut _)
  · exact wf.onDisk (wf.records.grown entries) wf.derived wf.active
  · exact wf.onDisk wf.records (wf.derived.grown entries) wf.active
  · exact wf.onDisk wf.records wf.derived (wf.active.grown entries)

theorem keeps_log : Step.Keeps (Tip.Steady t) (logSteps entries text) :=
  (keeps_cow fun _ held => ⟨held.1.onDisk held.1.records held.1.derived held.1.active, held.2⟩).append
    (.change (fun _ held => ⟨{ held.1 with }, held.2⟩) Step.keeps_nil)

private theorem keeps_filing : Step.Keeps (Tip.Steady t) (filing t g) := by
  have log : Step.Keeps (Tip.Steady t)
    (if t.logDue then logSteps t.invalidEntries "append tip-invalid failed" else []) := by
    split
    · exact keeps_log
    · exact Step.keeps_nil
  refine (keeps_growth.append log).append ((keeps_puts fun v _ held => ?_).append ((keeps_cow fun v held => ?_).append
    (.change (fun v held => ⟨{ held.1 with }, held.2⟩) Step.keeps_nil)))
  · exact ⟨held.1.onDisk held.1.records held.1.derived held.1.active, held.2⟩
  · exact ⟨held.1.onDisk held.1.records held.1.derived held.1.active, held.2⟩

private theorem filed_steady (wf : t.WellFormed) : t.Steady (t.filed g) := by
  rw [← after_filing]
  exact keeps_filing.after ⟨wf, rfl⟩

theorem commit_error (stopped : Step.run io (commitSteps t g) t = .error e u) :
    Step.run io (filing t g) t = .error e u ∨ (∀ x ∈ filing t g, x.Passes io) ∧
      ∃ effect : Disk → Disk, (∀ d, ∃ head, effect d = { d with head }) ∧
        u = undoAppend (t.filed g) ((adoptAppend g (t.filed g)).onDisk effect) := by
  rcases Step.run_append_error.mp stopped with early | ⟨passed, stopped⟩
  · exact .inl early
  · rw [after_filing] at stopped
    refine .inr ⟨passed, ?_⟩
    rcases head_error (t := adoptAppend g (t.filed g)) stopped with rfl | rfl
    · exact ⟨id, fun d => ⟨d.head, rfl⟩, rfl⟩
    · exact ⟨_, fun d => ⟨_, rfl⟩, rfl⟩

/-- A batch leaves the buffered appends alone. -/
theorem appendBatch_pend (stopped : appendBatch io blocks heights t = .error e u) : u.pend = t.pend := by
  rcases appendBatch_error stopped with ⟨rfl, -⟩ | ⟨g, -, -, stopped⟩
  · rfl
  · have filing : Step.Keeps (fun s : Tip => s.pend = t.pend) (storeSteps t g) :=
      keeps_storeSteps (fun _ _ _ held => held) fun _ _ held => held
    have entering : Step.Keeps (fun s : Tip => s.pend = t.pend) (enterSteps t g) := by
      refine .append (keeps_puts fun _ _ held => held) (.append (keeps_cow fun _ held => held) ?_)
      exact .change (fun _ held => held) Step.keeps_nil
    have publishing : Step.Keeps (fun s : Tip => s.pend = t.pend)
        ([.change (adoptAppend g)] ++ headSteps (undoAppend (t.filed g))) :=
      .append (.change (fun _ held => held) Step.keeps_nil) (keeps_head (fun _ held => held) fun _ held => held)
    exact ((filing.append entering).append publishing).error rfl stopped

theorem flush_error (stopped : flushPendingAppends io t = .error e u) : t.pend ≠ [] ∧
    ∃ v, appendBatch io (t.pend.map (·.1)) (t.pend.map (·.2)) { t with pend := [] } = .error e v ∧ v.pend = [] ∧
      u = { v with pend := t.pend } := by
  change (if t.pend.isEmpty then _ else _ : TipM Unit) t = _ at stopped
  split at stopped
  · cases stopped
  · next pending =>
    change recovering _ _ { t with pend := [] } = _ at stopped
    unfold recovering at stopped
    cases ran : appendBatch io (t.pend.map (·.1)) (t.pend.map (·.2)) { t with pend := [] } with
    | ok _ v => rw [ran] at stopped; cases stopped
    | error e' v =>
      rw [ran] at stopped
      cases stopped
      exact ⟨by simpa using pending, v, rfl, appendBatch_pend ran, rfl⟩

theorem flush_ok (ok : flushPendingAppends io t = .ok () u) : t.pend = [] ∧ u = t ∨ t.pend ≠ [] ∧
    appendBatch io (t.pend.map (·.1)) (t.pend.map (·.2)) { t with pend := [] } = .ok () u := by
  change (if t.pend.isEmpty then _ else _ : TipM Unit) t = _ at ok
  split at ok
  · next none => cases ok; exact .inl ⟨by simpa using none, rfl⟩
  · next pending =>
    change recovering _ _ { t with pend := [] } = _ at ok
    unfold recovering at ok
    cases ran : appendBatch io (t.pend.map (·.1)) (t.pend.map (·.2)) { t with pend := [] } with
    | ok _ v => rw [ran] at ok; cases ok; exact .inr ⟨by simpa using pending, rfl⟩
    | error e' v => rw [ran] at ok; cases ok

/-- Nothing is buffered after a flush. -/
theorem flush_idle (ok : flushPendingAppends io t = .ok () u) : u.pend = [] := by
  rcases flush_ok ok with ⟨none, rfl⟩ | ⟨-, ok⟩
  · exact none
  · obtain ⟨-, appended⟩ := appendBatch_ok ok
    cases appended with
    | nothing known same => rw [same]
    | published g gathers some valid passed is => rw [is]; rfl

/-- A failed publication of the meta restores what it says, but for old entries pushed out of the rings. -/
theorem undo_steady (wf : t.WellFormed) (only : ∀ d, ∃ head, effect d = { d with head }) :
    t.Steady (undoAppend (t.filed g) ((adoptAppend g (t.filed g)).onDisk effect)) := by
  obtain ⟨filed, same⟩ := filed_steady (g := g) wf
  have records := filed.recordShape.popTo_pushAll g.content.records
  have derived := filed.derivedShape.popTo_pushAll g.content.derived
  have active := filed.activeShape.popTo_pushAll g.content.active
  obtain ⟨head, written⟩ := only (t.filed g).disk
  refine ⟨⟨?_, ?_, ?_, ?_, ?_, ?_, filed.above, ?_, ?_, ?_⟩, same⟩ <;> simp only [undoAppend, adoptAppend, Tip.onDisk]
  · rw [records, Window.count_shed]; exact filed.recordCount
  · rw [derived, Window.count_shed]; exact filed.derivedCount
  · rw [active, Window.count_shed]; exact filed.activeCount
  · rw [records]; exact filed.recordShape.shed _
  · rw [derived]; exact filed.derivedShape.shed _
  · rw [active]; exact filed.activeShape.shed _
  · rw [written]; exact filed.records
  · rw [written]; exact filed.derived
  · rw [written]; exact filed.active

/-- Wherever a batch stops, the open state it leaves is well formed and has the old meta. -/
theorem commit_error_steady (wf : t.WellFormed) (stopped : Step.run io (commitSteps t g) t = .error e u) :
    t.Steady u := by
  rcases commit_error stopped with early | ⟨-, effect, only, rfl⟩
  · exact keeps_filing.error ⟨wf, rfl⟩ early
  · exact undo_steady wf only

/-! ## Batches and buffered appends keep open states well formed -/

theorem appendBatch_wellFormed : Preserves Tip.WellFormed (appendBatch io blocks heights) := by
  refine preserves_of (fun wf ok => ?_) fun wf stopped => ?_
  · obtain ⟨-, appended⟩ := appendBatch_ok ok
    cases appended with
    | nothing known same => exact same ▸ wf
    | published g gathers some valid passed is => exact is ▸ published_wellFormed wf (room_of_commit passed)
  · rcases appendBatch_error stopped with ⟨rfl, -⟩ | ⟨g, -, -, stopped⟩
    · exact wf
    · exact (commit_error_steady wf stopped).1

omit [Digest] in
/-- The buffered appends play no part in it. -/
theorem Tip.WellFormed.pend (wf : t.WellFormed) (pend : List (Append × Int)) :
    Tip.WellFormed { t with pend } := { wf with }

theorem flush_wellFormed : Preserves Tip.WellFormed (flushPendingAppends io) := by
  refine preserves_of (fun wf ok => ?_) fun wf stopped => ?_
  · rcases flush_ok ok with ⟨-, rfl⟩ | ⟨-, ok⟩
    · exact wf
    · exact appendBatch_wellFormed.ok (wf.pend []) ok
  · obtain ⟨-, v, failed, -, rfl⟩ := flush_error stopped
    exact (appendBatch_wellFormed.error (wf.pend []) failed).pend _

end Published
end Innova.BlockIndex
