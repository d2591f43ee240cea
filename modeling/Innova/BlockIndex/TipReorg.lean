import Innova.BlockIndex.TipPlan

/-! What a reorganisation leaves behind when it returns OK: the stores it has rewritten, the
windows over them and the meta it has published. -/
namespace Innova.BlockIndex
open Lib Chainstate

/-! ## The rewritten stores -/

section Stream
variable {α : Type} {fix : Nat → Option α} {slot : Nat}

/-- The corrected slots among the `i` from `slot` on. -/
def corrections (fix : Nat → Option α) (slot i : Nat) : Nat := (List.range' slot i).countP fun s => (fix s).isSome

private theorem corrections_le (i : Nat) : corrections fix slot i ≤ i :=
  List.countP_le_length.trans (by rw [List.length_range'])

private theorem corrections_succ (i : Nat) :
    corrections fix slot (i + 1) = corrections fix (slot + 1) i + if (fix slot).isSome then 1 else 0 := by
  rw [corrections, List.range'_succ, List.countP_cons, corrections]

/-- What a rewrite copies to a slot that is not corrected lies as many entries earlier in the source
as there are corrected slots before it. -/
theorem streamCopy_spec (copied : streamCopy fix n slot src = some out) : out.length = n ∧ ∀ i < n, out[i]? =
    match fix (slot + i) with
    | some x => some (some x)
    | none => src[i - corrections fix slot i]? := by
  induction n generalizing slot src out with
  | zero =>
    cases copied
    exact ⟨rfl, fun i below => absurd below (Nat.not_lt_zero i)⟩
  | succ n ih =>
    cases corrected : fix slot with
    | some x =>
      simp only [streamCopy, corrected] at copied
      obtain ⟨rest, copiedRest, rfl⟩ := Option.map_eq_some_iff.mp copied
      obtain ⟨length, entries⟩ := ih copiedRest
      refine ⟨by rw [List.length_cons, length], fun i below => ?_⟩
      cases i with
      | zero => simp [corrected]
      | succ i =>
        have shifted : i + 1 - corrections fix slot (i + 1) = i - corrections fix (slot + 1) i := by
          rw [corrections_succ, corrected, Option.isSome_some, if_pos rfl]
          omega
        rw [List.getElem?_cons_succ, entries i (by omega), shifted, show slot + 1 + i = slot + (i + 1) by omega]
    | none =>
      cases src with
      | nil => simp only [streamCopy, corrected] at copied; cases copied
      | cons entry src =>
        simp only [streamCopy, corrected] at copied
        obtain ⟨rest, copiedRest, rfl⟩ := Option.map_eq_some_iff.mp copied
        obtain ⟨length, entries⟩ := ih copiedRest
        refine ⟨by rw [List.length_cons, length], fun i below => ?_⟩
        cases i with
        | zero => simp [corrected, corrections]
        | succ i =>
          have shifted : i + 1 - corrections fix slot (i + 1) = i - corrections fix (slot + 1) i + 1 := by
            have bound : corrections fix (slot + 1) i ≤ i := corrections_le i
            rw [corrections_succ, corrected, if_neg (by simp)]
            omega
          rw [List.getElem?_cons_succ, entries i (by omega), shifted, List.getElem?_cons_succ,
            show slot + 1 + i = slot + (i + 1) by omega]

/-- A copy of readable entries can be read. -/
theorem streamCopy_readable (copied : streamCopy fix n slot src = some out)
    (readable : ∀ i < n, ∀ entry, src[i]? = some entry → entry.isSome) :
    ∀ entry ∈ out, entry.isSome := by
  obtain ⟨length, entries⟩ := streamCopy_spec copied
  intro entry member
  obtain ⟨i, at_⟩ := List.mem_iff_getElem?.mp member
  have inside := (List.getElem?_eq_some_iff.mp at_).1
  rw [length] at inside
  rw [entries i inside] at at_
  split at at_
  · cases at_; rfl
  · exact readable _ (by omega) entry at_

end Stream

section Rewrite
variable {t : Tip} {p : Plan} {records : List (Option Record)} {derived : List (Option Derived)}

/-- The directory with the stores a plan rewrites. -/
def Disk.rewritten (d : Disk) (p : Plan) (records : List (Option Record)) (derived : List (Option Derived)) : Disk :=
  { d with
    records := .whole (records ++ p.append.map fun blk => some blk.record)
    derived := .whole (derived ++ p.append.map fun blk => some blk.derived)
    active := .whole (d.active.body.take p.keep ++ (p.active.drop p.keep).map some) }

/-- The rewrite of a plan can be made, and what it puts in place of the committed entries. -/
structure Rewrites (t : Tip) (p : Plan) (records : List (Option Record)) (derived : List (Option Derived)) : Prop where
  fitting : p.fitting t.tipMeta = true
  encodable : p.encodable = true
  records : streamCopy (fun slot => (p.fixAt slot).map (·.record)) t.tipMeta.tipRecordCount 0
    t.disk.records.body = some records
  derived : streamCopy (fun slot => (p.fixAt slot).map (·.derived)) t.tipMeta.tipRecordCount 0
    t.disk.derived.body = some derived
  active : p.keep ≤ t.disk.active.body.length

private theorem rewrite_passes (passed : ∀ x ∈ rewriteSteps t p error, x.Passes io) :
    ∃ records derived, Rewrites t p records derived ∧
    Step.after (rewriteSteps t p error) t = t.onDisk (·.rewritten p records derived) := by
  unfold rewriteSteps at passed ⊢
  rw [List.forall_mem_append, passes_check] at passed
  rw [Step.after_append, after_check]
  obtain ⟨fitting, passed⟩ := passed
  cases copiedR : streamCopy (fun slot => (p.fixAt slot).map (·.record)) t.tipMeta.tipRecordCount
    0 t.disk.records.body with
  | none =>
    rw [copiedR] at passed
    exact (passed _ (List.mem_singleton_self _)).elim
  | some records =>
    rw [copiedR] at passed
    rw [List.forall_mem_append, passes_check, List.forall_mem_append] at passed
    obtain ⟨encodable, -, passed⟩ := passed
    rw [Step.after_append, after_check, Step.after_append]
    cases copiedD : streamCopy (fun slot => (p.fixAt slot).map (·.derived)) t.tipMeta.tipRecordCount
      0 t.disk.derived.body with
    | none =>
      rw [copiedD] at passed
      exact (passed _ (List.mem_singleton_self _)).elim
    | some derived =>
      rw [copiedD] at passed
      rw [List.forall_mem_append, List.forall_mem_append, passes_check, decide_eq_true_eq] at passed
      rw [Step.after_append, Step.after_append, after_check]
      exact ⟨records, derived, ⟨fitting, encodable, copiedR, copiedD, passed.2.1⟩, rfl⟩

end Rewrite

/-! ## The publication -/

section Adopt
variable [Digest] {t u : Tip} {p : Plan} {entries : Option (List InvalidEntry)}

/-- A pass over the stores reads as many entries as the windows count. -/
def Complete (t : Tip) : Prop :=
  t.scanned.records.length = t.recordsWin.count ∧ t.scanned.derived.length = t.derivedWin.count ∧
    t.scanned.active.length = t.activeWin.count

instance (t : Tip) : Decidable (Complete t) := inferInstanceAs (Decidable (_ ∧ _ ∧ _))

/-- The meta of a reorganisation. -/
def TipMeta.reorged (m : TipMeta) (p : Plan) (entries : Option (List InvalidEntry)) (tipHash : Hash)
    (chains : Chains) : TipMeta :=
  { m with
    version := 3, activeFence := (m.activeFence + 1) % 256, tipHash
    tipRecordCount := m.tipRecordCount + p.append.length
    tipHeight := m.baseTipHeight + p.active.length
    contentDigest := digestV3Finalize chains ((m.activeFence + 1) % 256)
    invalidLogCount := (entries.map (·.length)).getD m.invalidLogCount
    invalidDigest := (entries.map computeInvalidDigest).getD m.invalidDigest }

/-- The authority over the rewritten stores, with its meta not yet published. -/
def Tip.reorged (t : Tip) (p : Plan) (entries : Option (List InvalidEntry)) (tipHash : Hash) : Tip :=
  let u := setCounts (t.tipMeta.tipRecordCount + p.append.length) p.active.length t
  { u with
    chains := some (chainsOf u.scanned)
    invalidEntries := entries.getD t.invalidEntries
    tipMeta := t.tipMeta.reorged p entries tipHash (chainsOf u.scanned) }

/-- Where the new tip's hash comes from. -/
def ReorgHash (t : Tip) (p : Plan) (tipHash : Hash) : Prop :=
  match p.active.getLast? with
  | none => tipHash = ByteArr.zero 32
  | some id => ∃ slot, t.tipMeta.slotOf id = some slot ∧
    ((t.tipMeta.tipRecordCount ≤ slot ∧ ∃ blk, p.append[slot - t.tipMeta.tipRecordCount]? = some blk ∧
      tipHash = blk.record.hash) ∨
      (slot < t.tipMeta.tipRecordCount ∧ ∃ v r, Touched t v ∧ v.record? slot = some r ∧ tipHash = r.hash))

omit [Digest] in
private theorem reorgTipHash_ends :
    Ends (reorgTipHash kind t.tipMeta p) t (fun tipHash u => Touched t u ∧ ReorgHash t p tipHash)
    (fun _ u => Touched t u) := by
  unfold reorgTipHash ReorgHash
  cases p.active.getLast? with
  | none => exact ⟨.refl, rfl⟩
  | some id =>
    dsimp only
    cases slotted : t.tipMeta.slotOf id with
    | none => exact .refl
    | some slot =>
      dsimp only
      split
      · next new =>
        cases entry : p.append[slot - t.tipMeta.tipRecordCount]? with
        | none => exact .refl
        | some blk => exact ⟨.refl, slot, rfl, .inl ⟨new, blk, entry, rfl⟩⟩
      · next old =>
        refine Ends.bind (ends_getRecord.mpr ?_)
        cases read : t.record? slot with
        | none => exact Touched.refl.record slot
        | some r => exact ⟨Touched.refl.record slot, slot, rfl, .inr ⟨by omega, t, r, .refl, read, rfl⟩⟩

private theorem ends_buildChains : Ends buildChainsForStreaming t Q E ↔
    Q (decide (Complete t)) { t with chains := some (chainsOf t.scanned) } := Iff.rfl

private theorem adoptReorg_ends : Ends (adoptReorg kind t.tipMeta p entries) t
    (fun _ u => ∃ tipHash, ReorgHash t p tipHash ∧ Complete u ∧ u = t.reorged p entries tipHash)
    (fun _ u => Touched t u ∨
    ¬Complete (setCounts (t.tipMeta.tipRecordCount + p.append.length) p.active.length t)) := by
  refine reorgTipHash_ends.seqMono (fun tipHash u ⟨touched, isHash⟩ => ?_) fun _ _ => .inl
  have same : setCounts (t.tipMeta.tipRecordCount + p.append.length) p.active.length u =
      setCounts (t.tipMeta.tipRecordCount + p.append.length) p.active.length t := by
    rw [touched.frame]
    rfl
  refine Ends.bind (ends_modify.mpr ?_)
  rw [same]
  refine Ends.bind (ends_buildChains.mpr ?_)
  refine ends_guard (fun failed => .inr ?_) fun built => ends_modify.mpr ⟨tipHash, isHash, ?_, rfl⟩
  · rw [Bool.not_eq_true', decide_eq_false_iff_not] at failed
    exact failed
  · rw [Bool.not_eq_true', decide_eq_false_iff_not, not_not] at built
    exact built

/-- The authority with the plan's new records in its index. -/
def Tip.entered (t : Tip) (p : Plan) : Tip :=
  t.onDisk fun d =>
    { d with
      index := enterRecords t.tipMeta t.tipMeta.tipRecordCount (p.append.map (·.record)) d.index
      marker := some (t.tipMeta.tipRecordCount + p.append.length) }

/-- The authority with its meta published. -/
def Tip.headed (t : Tip) : Tip := t.onDisk fun d => { d with head := some (some (encodeTipMeta t.tipMeta)) }

/-- The new records are found at their slots. -/
def Entered (t : Tip) (p : Plan) : Prop := ∀ (i : Nat) blk, p.append[i]? = some blk →
  (t.entered p).disk.index blk.record.hash = some (t.tipMeta.idOf (t.tipMeta.tipRecordCount + i))

omit [Digest] in
private theorem after_entries : Step.after (entrySteps t kind p) t = t.entered p := by
  rw [entrySteps, Step.after_append, after_puts rfl, after_cow]
  rfl

private theorem publish_passes (passed : ∀ x ∈ publishSteps t kind p entries, x.Passes io) :
    ∃ tipHash, ReorgHash (t.entered p) p tipHash ∧ Complete ((t.entered p).reorged p entries tipHash) ∧ Entered t p ∧
      Step.after (publishSteps t kind p entries) t = ((t.entered p).reorged p entries tipHash).headed := by
  unfold publishSteps at passed ⊢
  rw [after_entries] at passed ⊢
  rw [List.forall_mem_append, List.forall_mem_append, entrySteps, List.forall_mem_append] at passed
  obtain ⟨⟨puts, -⟩, adopting, -⟩ := passed
  obtain ⟨u, adopted, after⟩ := inner_passes (u := t.entered p) adopting
  obtain ⟨tipHash, isHash, complete, rfl⟩ := Ends.of_ok (adoptReorg_ends (t := t.entered p)) adopted
  refine ⟨tipHash, isHash, complete, fun i blk at_ => ?_, ?_⟩
  · exact puts_entered puts (by rw [List.getElem?_map, at_]; rfl)
  · rw [Step.after_append, after_entries, Step.after_append, after]
    rfl

/-! ## The files of a reorganisation -/

omit [Digest] in
/-- Readable entries stay readable when they are copied with corrections and new ones follow. -/
theorem copied_readable {α : Type} {f : SlotFile α} {fix : Nat → Option α} {n : Nat} {out : List (Option α)}
    (readable : f.Readable n) (copied : streamCopy fix n 0 f.body = some out) (new : Append → α)
    (blocks : List Append) :
    (SlotFile.whole (out ++ blocks.map fun blk => some (new blk))).Readable (n + blocks.length) := by
  refine SlotFile.readable_whole (fun entry member => ?_) ?_
  · rcases List.mem_append.mp member with old | added
    · refine streamCopy_readable copied (fun i below entry at_ => ?_) entry old
      have read := readable i below
      rwa [SlotFile.read, at_, Option.join_some] at read
    · obtain ⟨blk, -, rfl⟩ := List.mem_map.mp added
      rfl
  · rw [List.length_append, (streamCopy_spec copied).1, List.length_map]

omit [Digest] in
/-- The stores are rewritten one after the other; each can be read as far as the meta says at any time. -/
theorem keeps_rewrite (wf : t.WellFormed) : Step.Keeps (Tip.Steady t) (rewriteSteps t p text) := by
  unfold rewriteSteps
  refine keeps_check.append ?_
  split
  · exact .refuse Step.keeps_nil
  next records copiedR =>
  refine keeps_check.append ((keeps_swap fun v held => ?_).append ?_)
  · obtain ⟨kept, same⟩ := held
    refine ⟨kept.onDisk ?_ kept.derived kept.active, same⟩
    rw [same]
    exact (copied_readable wf.records copiedR Append.record p.append).mono (by omega)
  split
  · exact .refuse Step.keeps_nil
  next derived copiedD =>
  refine (keeps_swap fun v held => ?_).append ?_
  · obtain ⟨kept, same⟩ := held
    refine ⟨kept.onDisk kept.records ?_ kept.active, same⟩
    rw [same]
    exact (copied_readable wf.derived copiedD Append.derived p.append).mono (by omega)
  refine keeps_check.append (keeps_swap fun v held => ?_)
  obtain ⟨kept, same⟩ := held
  refine ⟨kept.onDisk kept.records kept.derived ?_, same⟩
  rw [same]
  exact wf.active.spliced p.keep _

/-- `v` is `t` with its stores rewritten; reads may have filled its caches before. -/
structure Rewritten (t : Tip) (p : Plan) (records : List (Option Record)) (derived : List (Option Derived))
    (v : Tip) : Prop where
  rewrites : Rewrites t p records derived
  touched : ∃ u, Touched t u ∧ v = { u with disk := v.disk, invalidDisk := v.invalidDisk }
  disk : ∃ backup invalid, v.disk = { t.disk.rewritten p records derived with backup, invalid }

omit [Digest] in
private theorem Rewrites.of_touched {records : List (Option Record)} {derived : List (Option Derived)}
    (touched : Touched t u)
    (rewrites : Rewrites u p records derived) : Rewrites t p records derived := by
  obtain ⟨fitting, encodable, copiedR, copiedD, active⟩ := rewrites
  rw [touched.tipMeta] at fitting copiedR copiedD
  rw [touched.disk] at copiedR copiedD active
  exact ⟨fitting, encodable, copiedR, copiedD, active⟩

/-- Steps that rewrite the stores as planned, and touch nothing else that is ever read. -/
structure Files (filing : Tip → Plan → List TipStep) : Prop where
  keeps : ∀ {u p}, u.WellFormed → Step.Keeps (Tip.Steady u) (filing u p)
  passed : ∀ {io t u p}, Touched t u → (∀ x ∈ filing u p, x.Passes io) →
    ∃ records derived, Rewritten t p records derived (Step.after (filing u p) u)

omit [Digest] in
private theorem files_reorg : Files reorgFiling where
  keeps wf := (keeps_cow fun _ held => ⟨held.1.onDisk held.1.records held.1.derived held.1.active, held.2⟩).append
    (keeps_rewrite wf)
  passed {io t u p} touched passed := by
    unfold reorgFiling at passed ⊢
    rw [List.forall_mem_append] at passed
    obtain ⟨records, derived, rewrites, after⟩ :=
      rewrite_passes (t := u.onDisk fun d => { d with backup := some d.active }) passed.2
    have rewrites : Rewrites u p records derived :=
      ⟨rewrites.fitting, rewrites.encodable, rewrites.records, rewrites.derived, rewrites.active⟩
    have after : Step.after (rewriteSteps u p "reorg store stream failed")
      (u.onDisk fun d => { d with backup := some d.active }) =
        (u.onDisk fun d => { d with backup := some d.active }).onDisk (·.rewritten p records derived) := after
    refine ⟨records, derived, rewrites.of_touched touched, ⟨u, touched, ?_⟩, ?_⟩
      <;> rw [Step.after_append, after_cow, after]
    · rfl
    · exact ⟨_, _, by rw [← touched.disk]; rfl⟩

private theorem files_apply {hash : Hash} : Files (applyFiling hash invalidate) where
  keeps wf := (keeps_rewrite wf).append keeps_log
  passed {io t u p} touched passed := by
    unfold applyFiling at passed ⊢
    rw [List.forall_mem_append] at passed
    obtain ⟨records, derived, rewrites, after⟩ := rewrite_passes passed.1
    refine ⟨records, derived, rewrites.of_touched touched, ⟨u, touched, ?_⟩, ?_⟩ <;> rw [Step.after_append, after]
    · rfl
    · exact ⟨_, _, by rw [← touched.disk]; rfl⟩

/-! ## How a reorganisation ends -/

variable {t' : Tip} {filing : Tip → Plan → List TipStep}

/-- A reorganisation that returned OK. -/
def Reorganised (t : Tip) (p : Plan) (entries : Option (List InvalidEntry)) (t' : Tip) : Prop :=
  ∃ records derived v tipHash, Rewritten t p records derived v ∧ Entered v p ∧ ReorgHash (v.entered p) p tipHash ∧
    Complete ((v.entered p).reorged p entries tipHash) ∧ t' = ((v.entered p).reorged p entries tipHash).headed

private theorem plan_ok (files : Files filing)
    (ok : Step.run io (planSteps kind filing logged t fork branch heights) t = .ok () t') :
    ∃ p u, planReorg kind fork branch heights t = .ok p u ∧ Reorganised t p (logged u) t' := by
  rw [Step.run_ok] at ok
  obtain ⟨passed, rfl⟩ := ok
  unfold planSteps at passed ⊢
  cases planned : planReorg kind fork branch heights t with
  | error e u =>
    rw [planned] at passed
    exact (passed (.refuse e) (by simp)).elim
  | ok p u =>
    rw [planned] at passed
    have touched := (Ends.of_ok planReorg_ends planned).1
    rw [List.forall_mem_cons, List.forall_mem_append] at passed
    obtain ⟨-, rewriting, publishing⟩ := passed
    obtain ⟨records, derived, rewritten⟩ := files.passed touched rewriting
    obtain ⟨tipHash, isHash, complete, entered, after⟩ := publish_passes publishing
    refine ⟨p, u, rfl, records, derived, _, tipHash, rewritten, entered, isHash, complete, ?_⟩
    rw [Step.after_cons, Step.after_append]
    exact after

theorem reorgActive_ok (ok : reorgActive io fork branch heights t = .ok () t') :
    ∃ p u, planReorg .reorg fork branch heights t = .ok p u ∧ Reorganised t p none t' := by
  rw [reorgActive_run] at ok
  exact plan_ok files_reorg ok

theorem applyOperatorInvalid_ok {hash : Hash}
    (ok : applyOperatorInvalid io hash invalidate fork branch heights t = .ok () t') :
    ∃ p u, planReorg .fused fork branch heights t = .ok p u ∧
      Reorganised t p (some (t.withIntent hash invalidate)) t' := by
  rw [applyOperatorInvalid_run] at ok
  obtain ⟨p, u, planned, reorganised⟩ := plan_ok files_apply ok
  have intent : u.withIntent hash invalidate = t.withIntent hash invalidate := by
    rw [(Ends.of_ok planReorg_ends planned).1.frame]
    rfl
  exact ⟨p, u, planned, intent ▸ reorganised⟩

/-! ## Open states after a reorganisation -/

omit [Digest] in
/-- A plan of a well-formed authority keeps active entries it has, and lists them. -/
theorem Plans.within (wf : t.WellFormed) (plans : Plans kind t fork branch heights p) :
    p.keep ≤ t.tipMeta.activeCount ∧ p.keep ≤ p.active.length := by
  obtain ⟨-, range, forkIds, length, -, -, planned⟩ := plans
  have keep := planned.keep
  have total := planned.length
  refine ⟨?_, by omega⟩
  have above := wf.above
  have tall : t.tipMeta.tipHeight = t.tipMeta.baseTipHeight + t.tipMeta.activeCount := by
    unfold TipMeta.activeCount
    omega
  simp only [ReorgKind.inRange, Bool.or_eq_true, beq_iff_eq, Bool.and_eq_true, decide_eq_true_eq] at range
  rcases range with base | ⟨-, range⟩
  · omega
  · split at range <;> rw [decide_eq_true_eq] at range <;> omega

end Adopt
end Innova.BlockIndex
