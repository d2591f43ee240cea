import Innova.BlockIndex.TipIntegrity

/-! Opening a directory again. A first opening leaves stores without a tail, a marked side index
and, where the digest matched, a meta that validates; a second opening then changes nothing. It
fails where the first one published the digest of one version under the tag of another. -/
namespace Innova.BlockIndex
open Lib Chainstate

section Reopen
variable [Digest] {m : TipMeta} {d : Disk} {t : Tip} {generation : Nat}

private theorem settleDigest_matched (sized : Sized m (region m r)) (same : m.digestOf (region m r) = m.contentDigest) :
    settleDigest m tail w r = .ok ⟨m, { r with backup := none }, w, region m r⟩ := by
  have digest : contentDigest m.version (region m r) m.activeFence = m.contentDigest := same
  simp [settleDigest, scanContent_some.mpr ⟨rfl, sized⟩, digest, pure, Except.pure]

/-- A directory whose index answers and whose digest matches opens as it is, but for a tail. -/
theorem openTip_matched (loaded : loadMeta generation d = .ok m) (repairs : repairStores m d = .ok r)
    (opens : initWindows m r "tip window init failed" = .ok w) (sized : Sized m (region m r))
    (marked : r.marker = some m.tipRecordCount) (indexed : Indexed m w r (region m r).records)
    (same : m.digestOf (region m r) = m.contentDigest) (logged : loadInvalid m r = .ok entries) :
    openTip generation d = .ok (openedTip m ⟨m, { r with backup := none }, w, region m r⟩ entries) :=
  Opening.openTip
    { repaired := r, reconciled := r, windows := w, settled := _, entries, loaded, repairs, opens
      reconciles := reconcile_indexed (initWindows_serves opens sized).1 sized.records marked indexed
      settles := settleDigest_matched sized same
      logged }

/-- What two openings present alike. -/
structure SameState (t t' : Tip) : Prop where
  records : ∀ slot, t'.record? slot = t.record? slot
  derived : ∀ slot, t'.derived? slot = t.derived? slot
  active : ∀ rel, t'.active? rel = t.active? rel
  tipHeight : t'.tipHeight = t.tipHeight
  tipHash : t'.tipHash = t.tipHash
  fence : t'.tipMeta.activeFence = t.tipMeta.activeFence
  invalid : ∀ hash, t'.isOperatorInvalid hash = t.isOperatorInvalid hash

/-- The directory opens again in the same state, and its meta's digest is of its version's flavour. -/
def Reopens (generation : Nat) (t : Tip) : Prop :=
  (∃ t', openTip generation t.disk = .ok t' ∧ SameState t t') ∧ t.tipMeta.digestOf t.served = t.tipMeta.contentDigest

/-- A version 1 or 2 directory with a tail whose committed region does not have the meta's digest:
the opening publishes the region's version 2 digest as a version 3 one. -/
def Relabelled (m : TipMeta) (d : Disk) : Prop :=
  m.version ≠ 3 ∧ hasTail m d = true ∧ m.digestOf (region m d) ≠ m.contentDigest ∧
    contentDigest 3 (region m d) m.activeFence ≠ m.digestOf (region m d)

/-- The active store has to be put back from a copy that is longer than its committed region,
beside a store without even a header. -/
def Headless (m : TipMeta) (d : Disk) : Prop :=
  hasTail m d = false ∧ m.digestOf (region m d) ≠ m.contentDigest ∧
    (∃ copy, d.backup = some copy ∧ m.activeCount < copy.body.length) ∧
      ¬(d.records.header = true ∧ d.derived.header = true)

namespace Opening
variable (o : Opening generation d m)
include o

/-- The files a repaired and reconciled directory has in common with the one opened. -/
theorem others : o.reconciled.head = d.head ∧ o.reconciled.complete = d.complete ∧ o.reconciled.backup = d.backup ∧
    o.reconciled.invalid = d.invalid := by
  rw [o.frame]
  obtain ⟨-, ⟨-, -, -, -, same⟩ | ⟨-, same⟩⟩ := repairStores_ok.mp o.repairs
  · rw [same]; exact ⟨rfl, rfl, rfl, rfl⟩
  · rw [same]; exact ⟨rfl, rfl, rfl, rfl⟩

private theorem settled_again : Enough m o.reconciled ∧ hasTail m o.reconciled = false := by
  have again := repairStores_again o.repairs
  rw [o.frame]
  exact ⟨⟨again.1.records, again.1.derived, again.1.active⟩, again.2⟩

private theorem marked : o.reconciled.marker = some m.tipRecordCount := by rw [o.frame]

private theorem indexed : Indexed m o.windows o.reconciled (region m d).records := by
  have repaired := (repairStores_alike o.repairs).region
  have sized := o.sized
  rw [← repaired] at sized ⊢
  exact reconcile_answers (initWindows_serves o.opens sized).1 sized.records o.reconciles

end Opening

omit [Digest] in
private theorem loadMeta_congr (head : d'.head = d.head) (complete : d'.complete = d.complete) :
    loadMeta generation d' = loadMeta generation d := by
  unfold loadMeta
  rw [head, complete]

private theorem loadInvalid_congr (invalid : d'.invalid = d.invalid) : loadInvalid m d' = loadInvalid m d := by
  unfold loadInvalid
  rw [invalid]

section
omit [Digest]

private theorem Indexed.congr (indexed : Indexed m w d records) (serves : w.records.Serves d.records records)
    (serves' : w'.records.Serves d'.records records) (index : d'.index = d.index) : Indexed m w' d' records := by
  intro slot r found
  have answer := indexed slot r found
  unfold indexedAt at answer ⊢
  rw [index]
  simpa only [serves.get, serves'.get] using answer

private theorem fence_lt (loaded : loadMeta generation d = .ok m) : m.activeFence < 256 := by
  obtain ⟨⟨raw, -, decoded⟩, -⟩ := loadMeta_ok.mp loaded
  unfold decodeTipMeta at decoded
  split at decoded
  · cases decoded
    exact Nat.mod_lt _ (by omega)
  split at decoded
  · obtain ⟨_, -, rfl⟩ := Option.map_eq_some_iff.mp decoded
    exact Nat.mod_lt _ (by omega)
  · cases decoded

private theorem decode_encode (current : m.version = 3) (fence : m.activeFence < 256) :
    decodeTipMeta (encodeTipMeta m) = some m := by
  unfold decodeTipMeta encodeTipMeta
  rw [if_neg (by simp [current]), if_pos (.inr current)]
  simp [Nat.mod_eq_of_lt fence]

/-- Authorities over one content and one meta present the same state. -/
theorem sameState_of_presents (presents : Presents t c) (presents' : Presents t' c) (metas : t'.tipMeta = t.tipMeta)
    (pend : t'.pend = t.pend) (invalid : t'.invalidEntries = t.invalidEntries) : SameState t t' where
  records slot := (presents'.records.get slot).trans (presents.records.get slot).symm
  derived slot := (presents'.derived.get slot).trans (presents.derived.get slot).symm
  active rel := (presents'.active.get rel).trans (presents.active.get rel).symm
  tipHeight := by
    unfold Tip.tipHeight Tip.pendTipHeight Tip.pendTip
    rw [metas, pend]
  tipHash := by
    unfold Tip.tipHash Tip.pendTipHeight Tip.pendTipHash Tip.pendTip
    rw [metas, pend]
  fence := by rw [metas]
  invalid hash := by rw [Tip.isOperatorInvalid, Tip.isOperatorInvalid, invalid]

end

namespace Opening
variable (o : Opening generation d m)
include o

/-- A directory whose digest matched opens again just the same. -/
theorem reopens_matched (same : m.digestOf (region m o.reconciled) = m.contentDigest)
    (settled : o.settled = ⟨m, { o.reconciled with backup := none }, o.windows, region m o.reconciled⟩) :
    Reopens generation (openedTip m o.settled o.entries) := by
  obtain ⟨head, complete, -, invalid⟩ := o.others
  have presents := o.presents
  have logged := o.logged
  rw [settled] at presents logged ⊢
  have sized := o.sized
  have indexed := o.indexed
  rw [← o.region_eq] at sized indexed
  refine ⟨⟨_, openTip_matched ((loadMeta_congr head complete).trans o.loaded)
    (repairStores_ok.mpr ⟨⟨o.settled_again.1.records, o.settled_again.1.derived, o.settled_again.1.active⟩,
      .inr ⟨o.settled_again.2, rfl⟩⟩) o.opens_reconciled sized o.marked indexed same logged, ?_⟩, ?_⟩
  · exact sameState_of_presents presents presents rfl rfl rfl
  · rw [presents.served]
    exact same

/-- A meta republished in the flavour of its new version opens again. -/
theorem reopens_republished (flavour : contentDigest 3 (region m o.reconciled) m.activeFence =
    m.digestOf (region m o.reconciled)) (settled : o.settled = ⟨m.republished (region m o.reconciled),
      { o.reconciled with head := some (some (encodeTipMeta (m.republished (region m o.reconciled)))) }, o.windows,
      region m o.reconciled⟩) :
    Reopens generation (openedTip m o.settled o.entries) := by
  obtain ⟨-, complete, -, -⟩ := o.others
  obtain ⟨-, whole, sameGeneration, above⟩ := loadMeta_ok.mp o.loaded
  have presents := o.presents
  have logged := o.logged
  rw [settled] at presents logged ⊢
  have sized := o.sized
  have indexed := o.indexed
  rw [← o.region_eq] at sized indexed
  refine ⟨⟨_, openTip_matched (m := m.republished (region m o.reconciled))
    (loadMeta_ok.mpr ⟨⟨_, rfl, decode_encode rfl (show m.activeFence < 256 from fence_lt o.loaded)⟩,
      complete.trans whole, sameGeneration, above⟩)
    (repairStores_ok.mpr ⟨⟨o.settled_again.1.records, o.settled_again.1.derived, o.settled_again.1.active⟩,
      .inr ⟨o.settled_again.2, rfl⟩⟩) o.opens_reconciled ⟨sized.records, sized.derived, sized.active⟩ o.marked indexed
    flavour logged, ?_⟩, ?_⟩
  · exact sameState_of_presents presents ⟨presents.records, presents.derived, presents.active⟩ rfl rfl rfl
  · rw [presents.served]
    exact flavour

/-- What the second opening finds after the active store was put back. -/
theorem restored_indexed
    (reopened : initWindows m (o.reconciled.restored active) "tip window init after undo-restore failed" = .ok w')
    (sized : Sized m (region m (o.reconciled.restored active))) :
    Indexed m w' (o.reconciled.restored active) (region m (o.reconciled.restored active)).records := by
  have before := o.sized
  have indexed := o.indexed
  rw [← o.region_eq] at before indexed
  exact indexed.congr (initWindows_serves o.opens_reconciled before).1 (initWindows_serves reopened sized).1 rfl

private theorem untailed_stores (untailed : hasTail m d = false) :
    o.reconciled.records = d.records ∧ o.reconciled.derived = d.derived := by
  obtain ⟨-, ⟨tailed, -⟩ | ⟨-, same⟩⟩ := repairStores_ok.mp o.repairs
  · rw [untailed] at tailed
    cases tailed
  · rw [o.frame, same]
    exact ⟨rfl, rfl⟩

section
variable {active : SlotFile Nat}
    (headers : active.body.length ≤ m.activeCount ∨ (d.records.header = true ∧ d.derived.header = true))
    (untailed : hasTail m d = false)
include headers untailed

/-- The second repair cuts off what the copy has beyond the committed region. -/
theorem restored_repairs (sized : Sized m (region m (o.reconciled.restored active))) :
    ∃ r, repairStores m (o.reconciled.restored active) = .ok r ∧ r.index = o.reconciled.index ∧
      r.marker = o.reconciled.marker ∧ r.invalid = o.reconciled.invalid := by
  cases tail : hasTail m (o.reconciled.restored active) with
  | false => exact ⟨_, repairStores_ok.mpr ⟨sized.enough, .inr ⟨tail, rfl⟩⟩, rfl, rfl, rfl⟩
  | true =>
    have longer : m.activeCount < active.body.length := by
      have before := o.settled_again.2
      simp only [hasTail, Bool.or_eq_false_iff, decide_eq_false_iff_not] at before
      simp only [hasTail, Bool.or_eq_true, decide_eq_true_eq] at tail
      rcases tail with (records | derived) | active
      · exact absurd records before.1.1
      · exact absurd derived before.1.2
      · exact active
    have stores := o.untailed_stores untailed
    have headed : active.header = true := by
      by_contra headless
      rw [SlotFile.body, if_neg headless] at longer
      simp at longer
    obtain short | ⟨records, derived⟩ := headers
    · omega
    exact ⟨_, repairStores_ok.mpr ⟨sized.enough, .inl ⟨tail, (congrArg _ stores.1).trans records,
      (congrArg _ stores.2).trans derived, headed, rfl⟩⟩, rfl, rfl, rfl⟩

private theorem reopens_restored
    (reopened : initWindows m (o.reconciled.restored active) "tip window init after undo-restore failed" = .ok w')
    (sized : Sized m (region m (o.reconciled.restored active)))
    (same : m.digestOf (region m (o.reconciled.restored active)) = m.contentDigest)
    (settled : o.settled = ⟨m, o.reconciled.restored active, w', region m (o.reconciled.restored active)⟩) :
    Reopens generation (openedTip m o.settled o.entries) := by
  obtain ⟨head, complete, -, -⟩ := o.others
  obtain ⟨r, repairs, index, marker, invalid⟩ := o.restored_repairs headers untailed sized
  have alike := repairStores_alike repairs
  have opens : initWindows m r "tip window init failed" = .ok w' :=
    alike.initWindows.trans (initWindows_ok.mpr (initWindows_ok.mp reopened))
  have sized' : Sized m (region m r) := alike.region ▸ sized
  have indexed : Indexed m w' r (region m r).records := by
    have serves := (initWindows_serves opens sized').1
    rw [alike.region] at serves ⊢
    exact (o.restored_indexed reopened sized).congr (initWindows_serves reopened sized).1 serves index
  have presents := o.presents
  have logged := o.logged
  rw [settled] at presents logged ⊢
  refine ⟨⟨_, openTip_matched ((loadMeta_congr head complete).trans o.loaded) repairs opens sized'
    (marker.trans o.marked) indexed (alike.region ▸ same) ((loadInvalid_congr invalid).trans logged), ?_⟩, ?_⟩
  · have serves := initWindows_serves opens sized'
    rw [alike.region] at serves
    exact sameState_of_presents presents ⟨serves.1, serves.2.1, serves.2.2⟩ rfl rfl rfl
  · rw [presents.served]
    exact same

end

end Opening

/-- A second opening fails where the first put back a copy it would have to cut, but cannot. -/
theorem not_reopens_headless (o : Opening generation d m) (headless : Headless m d) :
    ¬Reopens generation (openedTip m o.settled o.entries) := by
  obtain ⟨untailed, differs, ⟨copy, kept, longer⟩, headers⟩ := headless
  rintro ⟨⟨t', opened, -⟩, -⟩
  obtain ⟨head, complete, backup, -⟩ := o.others
  obtain ⟨w', c, settled⟩ : ∃ w' c, o.settled = ⟨m, o.reconciled.restored copy, w', c⟩ := by
    have ended := o.ending
    revert ended
    generalize o.settled = s
    intro ended
    cases ended with
    | matched same => exact absurd (o.region_eq ▸ same) differs
    | republished tailed => rw [untailed] at tailed; cases tailed
    | restored _ _ found =>
      rw [backup, kept] at found
      cases found
      exact ⟨_, _, rfl⟩
  rw [settled] at opened
  obtain ⟨again, -⟩ :=
    openTip_ok (d := o.reconciled.restored copy) ((loadMeta_congr head complete).trans o.loaded) opened
  obtain ⟨records, derived⟩ := o.untailed_stores untailed
  obtain ⟨-, ⟨-, recordsHeader, derivedHeader, -⟩ | ⟨tail, -⟩⟩ := repairStores_ok.mp again.repairs
  · exact headers ⟨(congrArg _ records).symm.trans recordsHeader, (congrArg _ derived).symm.trans derivedHeader⟩
  · simp only [hasTail, Disk.restored, Bool.or_eq_false_iff] at tail
    exact of_decide_eq_false tail.2 longer

/-- The digest a relabelled meta carries is not of its version's flavour. -/
theorem not_reopens_relabelled (o : Opening generation d m) (relabelled : Relabelled m d) :
    ¬Reopens generation (openedTip m o.settled o.entries) := by
  obtain ⟨-, tailed, differs, flavour⟩ := relabelled
  rintro ⟨-, digest⟩
  rw [o.presents.served] at digest
  rw [← o.region_eq] at differs flavour
  have ended := o.ending
  revert ended digest
  generalize o.settled = s
  intro digest ended
  cases ended with
  | matched same => exact differs same
  | republished => exact flavour digest
  | restored untailed => rw [tailed] at untailed; cases untailed

/-- Opening a directory again changes nothing, but for two cases. -/
theorem reopens_iff (loaded : loadMeta generation d = .ok m) (opened : openTip generation d = .ok t) :
    Reopens generation t ↔ ¬Relabelled m d ∧ ¬Headless m d := by
  obtain ⟨o, rfl⟩ := openTip_ok loaded opened
  constructor
  · intro reopens
    exact ⟨fun relabelled => not_reopens_relabelled o relabelled reopens, fun headless =>
      not_reopens_headless o headless reopens⟩
  rintro ⟨flavours, headed⟩
  obtain ⟨s, settled, ended⟩ : ∃ s, o.settled = s ∧ Ending m (hasTail m d) o.windows o.reconciled s :=
    ⟨_, rfl, o.ending⟩
  cases ended with
  | matched same => exact o.reopens_matched same settled
  | republished tailed differs =>
    refine o.reopens_republished ?_ settled
    by_contra flavour
    rw [o.region_eq] at differs flavour
    by_cases current : m.version = 3
    · rw [TipMeta.digestOf, current] at flavour
      exact flavour rfl
    · exact flavours ⟨current, tailed, differs, flavour⟩
  | @restored active w' untailed differs copy reopened sized same =>
    refine o.reopens_restored ?_ untailed reopened sized same settled
    by_contra headers
    rw [not_or, not_le] at headers
    rw [o.region_eq] at differs
    exact headed ⟨untailed, differs, ⟨active, o.others.2.2.1 ▸ copy, headers.1⟩, headers.2⟩

end Reopen

theorem crashed_reopens : ∃ t, @openTip sha256Digest 1 crashedDisk = .ok t ∧ @Reopens sha256Digest 1 t := by
  let := sha256Digest
  obtain ⟨loaded, t, opened⟩ := crashed_opens
  refine ⟨t, opened, (reopens_iff loaded opened).mpr ⟨fun relabelled => relabelled.1 (by decide +kernel), ?_⟩⟩
  rintro ⟨-, -, ⟨copy, kept, -⟩, -⟩
  cases kept

/-- The tampered directory under a version 2 meta. -/
def relabelledDisk : Disk :=
  { tamperedDisk with
    head := some (some (encodeTipMeta
      { grownTip.tipMeta with version := 2, contentDigest := @computeContentDigest sha256Digest grownTip.served 0 })) }

/-- It opens once and never again. -/
theorem relabelled_opens_once : ∃ t, @openTip sha256Digest 1 relabelledDisk = .ok t ∧ t.tipMeta.version = 3 ∧
    @TipMeta.digestOf sha256Digest t.tipMeta t.served ≠ t.tipMeta.contentDigest ∧
    (@openTip sha256Digest 1 t.disk).map (fun _ => ()) = .error "tip store content digest mismatch (corrupt)" := by
  let := sha256Digest
  obtain ⟨t, opened, found⟩ := ok_of_map (show ((openTip 1 relabelledDisk).map fun t =>
    (t.tipMeta.version, decide (t.tipMeta.digestOf t.served = t.tipMeta.contentDigest),
      (openTip 1 t.disk).map fun _ => ())) =
      .ok (3, false, .error "tip store content digest mismatch (corrupt)") by decide +kernel)
  simp only [Prod.mk.injEq, decide_eq_false_iff_not] at found
  exact ⟨t, opened, found⟩

end Innova.BlockIndex
