import Innova.BlockIndex.TipOpen
import Mathlib.Data.List.Induction

/-! What an opened tip presents, and what its digest says about it. An opening takes the
committed region as it lies on disk, or with the active store put back from its copy; when an
uncommitted tail was cut off first, the region's own digest is published whether or not it is
the one `tip.meta` had. -/
namespace Innova.BlockIndex
open Lib Chainstate

/-! ## Committed content -/

/-- The windows of an authority answer with these entries. -/
structure Presents (t : Tip) (c : Content) : Prop where
  records : t.recordsWin.Serves t.disk.records c.records
  derived : t.derivedWin.Serves t.disk.derived c.derived
  active : t.activeWin.Serves t.disk.active c.active

/-- All an authority answers by slot. -/
def Tip.served (t : Tip) : Content :=
  ⟨(List.range t.recordsWin.count).filterMap t.record?, (List.range t.derivedWin.count).filterMap t.derived?,
    (List.range t.activeWin.count).filterMap t.active?⟩

theorem Presents.served (presents : Presents t c) : t.served = c :=
  congr (congr (congrArg Content.mk presents.records.filterMap_get) presents.derived.filterMap_get)
    presents.active.filterMap_get

section Stages
variable {m : TipMeta} {d r : Disk} {w : Windows} {c : Content}

/-- The committed region of the stores, as far as it can be read. -/
def region (m : TipMeta) (d : Disk) : Content :=
  ⟨d.records.visited m.tipRecordCount, d.derived.visited m.tipRecordCount, d.active.visited m.activeCount⟩

/-- A content as long as the meta says. -/
structure Sized (m : TipMeta) (c : Content) : Prop where
  records : c.records.length = m.tipRecordCount
  derived : c.derived.length = m.tipRecordCount
  active : c.active.length = m.activeCount

theorem scanContent_some : scanContent m d = some c ↔ c = region m d ∧ Sized m c := by
  have sized : Sized m (region m d) ↔ (d.records.visited m.tipRecordCount).length = m.tipRecordCount ∧
      (d.derived.visited m.tipRecordCount).length = m.tipRecordCount ∧
      (d.active.visited m.activeCount).length = m.activeCount :=
    ⟨fun s => ⟨s.records, s.derived, s.active⟩, fun ⟨r, d, a⟩ => ⟨r, d, a⟩⟩
  simp only [scanContent]
  constructor
  · intro scanned
    split at scanned
    · next sizes => cases scanned; exact ⟨rfl, sized.mpr sizes⟩
    · cases scanned
  · rintro ⟨rfl, sizes⟩
    exact if_pos (sized.mp sizes)

/-! ## The stages of an opening -/

theorem loadMeta_ok : loadMeta generation d = .ok m ↔
    (∃ raw, d.head = some (some raw) ∧ decodeTipMeta raw = some m) ∧ d.complete = true ∧ m.baseGeneration = generation ∧
      m.baseTipHeight ≤ m.tipHeight := by
  simp only [loadMeta, bind, Except.bind, pure, Except.pure, throw, throwThe, MonadExceptOf.throw]
  constructor
  · intro loaded
    split at loaded
    · next raw head =>
      split at loaded
      · cases loaded
      next complete =>
      split at loaded
      · next decoded =>
        split at loaded
        · cases loaded
        next sameGeneration =>
        split at loaded
        · cases loaded
        cases loaded
        obtain ⟨found, rfl, decoded⟩ := Option.bind_eq_some_iff.mp decoded
        exact ⟨⟨found, head, decoded⟩, by simpa using complete, by simpa using sameGeneration, by omega⟩
      · cases loaded
    · cases loaded
  · rintro ⟨⟨raw, head, decoded⟩, complete, rfl, above⟩
    simp [head, decoded, complete, not_lt.mpr above]

/-- Cutting off the uncommitted tails. -/
def cutStores (m : TipMeta) (d : Disk) : Disk :=
  { d with
    records := d.records.cut m.tipRecordCount
    derived := d.derived.cut m.tipRecordCount
    active := d.active.cut m.activeCount }

/-- The stores are at least as long as `tip.meta` says. -/
structure Enough (m : TipMeta) (d : Disk) : Prop where
  records : m.tipRecordCount ≤ d.records.body.length
  derived : m.tipRecordCount ≤ d.derived.body.length
  active : m.activeCount ≤ d.active.body.length

theorem Sized.enough (sized : Sized m (region m d)) : Enough m d where
  records := by
    have held := SlotFile.holds_visited (f := d.records) sized.records
    exact sized.records ▸ held.length_le
  derived := by
    have held := SlotFile.holds_visited (f := d.derived) sized.derived
    exact sized.derived ▸ held.length_le
  active := by
    have held := SlotFile.holds_visited (f := d.active) sized.active
    exact sized.active ▸ held.length_le

theorem repairStores_ok : repairStores m d = .ok r ↔ Enough m d ∧
    ((hasTail m d = true ∧ d.records.header = true ∧ d.derived.header = true ∧ d.active.header = true ∧
    r = cutStores m d) ∨
      (hasTail m d = false ∧ r = d)) := by
  have enough : Enough m d ↔ ¬(d.records.body.length < m.tipRecordCount ∨ d.derived.body.length < m.tipRecordCount ∨
      d.active.body.length < m.activeCount) :=
    ⟨fun e => by have := e.records; have := e.derived; have := e.active; omega,
      fun long => ⟨by omega, by omega, by omega⟩⟩
  have headed {α : Type} {f : SlotFile α} {n : Nat} (long : n ≤ f.body.length) : f.short n = false ↔
    f.header = true := by
    unfold SlotFile.body at long
    unfold SlotFile.short
    split at long
    · next header => simp [header, not_lt.mpr long]
    · next headless => simp [headless]
  simp only [repairStores, bind, Except.bind, pure, Except.pure, throw, throwThe, MonadExceptOf.throw]
  rw [enough]
  by_cases shorter : d.records.body.length < m.tipRecordCount ∨ d.derived.body.length < m.tipRecordCount ∨
      d.active.body.length < m.activeCount
  · simp [shorter]
  have long := enough.mpr shorter
  cases tail : hasTail m d with
  | false =>
    simp [shorter, eq_comm (a := d)]
  | true =>
    by_cases headers : d.records.header = true ∧ d.derived.header = true ∧ d.active.header = true
    · rw [if_neg shorter, if_pos rfl, if_neg]
      · simp [shorter, headers, cutStores, eq_comm]
      · simp [(headed long.records).mpr headers.1, (headed long.derived).mpr headers.2.1,
          (headed long.active).mpr headers.2.2]
    · rw [if_neg shorter, if_pos rfl, if_pos]
      · simp only [reduceCtorEq, Bool.true_eq_false, false_and, or_false, false_iff, not_and]
        intro _ _ records derived active
        exact absurd ⟨records, derived, active⟩ headers
      · by_contra fits
        simp only [Bool.or_eq_true, not_or, Bool.not_eq_true] at fits
        exact headers ⟨(headed long.records).mp fits.1.1, (headed long.derived).mp fits.1.2,
          (headed long.active).mp fits.2⟩

/-- A repaired directory needs no second repair. -/
theorem repairStores_again (repaired : repairStores m d = .ok r) : Enough m r ∧ hasTail m r = false := by
  obtain ⟨enough, ⟨-, -, -, -, rfl⟩ | ⟨tail, rfl⟩⟩ := repairStores_ok.mp repaired
  · refine ⟨⟨?_, ?_, ?_⟩, ?_⟩
    · simpa [cutStores, SlotFile.body_cut] using enough.records
    · simpa [cutStores, SlotFile.body_cut] using enough.derived
    · simpa [cutStores, SlotFile.body_cut] using enough.active
    · simp [hasTail, cutStores, SlotFile.body_cut]
  · exact ⟨enough, tail⟩

/-- Two directories whose stores read alike in the committed region. -/
structure ReadAlike (m : TipMeta) (d r : Disk) : Prop where
  records : ∀ slot < m.tipRecordCount, r.records.read slot = d.records.read slot
  derived : ∀ slot < m.tipRecordCount, r.derived.read slot = d.derived.read slot
  active : ∀ rel < m.activeCount, r.active.read rel = d.active.read rel

theorem repairStores_alike (repaired : repairStores m d = .ok r) : ReadAlike m d r := by
  obtain ⟨-, ⟨-, -, -, -, rfl⟩ | ⟨-, rfl⟩⟩ := repairStores_ok.mp repaired
  · exact ⟨fun _ => SlotFile.read_cut, fun _ => SlotFile.read_cut, fun _ => SlotFile.read_cut⟩
  · exact ⟨fun _ _ => rfl, fun _ _ => rfl, fun _ _ => rfl⟩

theorem ReadAlike.region (alike : ReadAlike m d r) : region m r = region m d := by
  unfold BlockIndex.region
  rw [SlotFile.visited_congr alike.records, SlotFile.visited_congr alike.derived, SlotFile.visited_congr alike.active]

theorem initWindows_ok : initWindows m d error = .ok w ↔
    Window.initCount ringCap d.records m.tipRecordCount = some w.records ∧
      Window.initCount ringCap d.derived m.tipRecordCount = some w.derived ∧
      Window.initCount ringCap d.active m.activeCount = some w.active := by
  simp only [initWindows, pure, Except.pure, throw, throwThe, MonadExceptOf.throw]
  constructor
  · intro opened
    split at opened
    · split at opened
      · split at opened
        · cases opened; exact ⟨‹_›, ‹_›, ‹_›⟩
        · cases opened
      · cases opened
    · cases opened
  · rintro ⟨records, derived, active⟩
    simp [records, derived, active]

theorem ReadAlike.initWindows (alike : ReadAlike m d r) : initWindows m r error = initWindows m d error := by
  unfold BlockIndex.initWindows
  rw [Window.initCount_congr alike.records, Window.initCount_congr alike.derived, Window.initCount_congr alike.active]

/-! ## The side index -/

/-- A rebuilt index sends a hash to its first slot. -/
theorem rebuildIndex_eq (m : TipMeta) (records : List Record) (hash : Hash) :
    rebuildIndex m records hash = (records.findIdx? (·.hash = hash)).map m.idOf := by
  induction records using List.reverseRecOn with
  | nil => rfl
  | append_singleton records r ih =>
    have step : rebuildIndex m (records ++ [r]) = if (rebuildIndex m records r.hash).isSome then rebuildIndex m records
        else Function.update (rebuildIndex m records) r.hash (some (m.idOf records.length)) := by
      rw [rebuildIndex, List.zipIdx_append, List.foldl_append, Nat.zero_add]
      rfl
    rw [step, List.findIdx?_append]
    split
    · next known =>
      rw [ih]
      cases earlier : records.findIdx? (·.hash = hash) with
      | some slot => rfl
      | none =>
        -- the new record's hash is known, so it is not the one asked for
        have other : r.hash ≠ hash := by
          rintro rfl
          rw [ih, earlier] at known
          cases known
        simp [other]
    · next unknown =>
      by_cases same : hash = r.hash
      · subst same
        rw [ih] at unknown
        simp only [Option.isSome_map, Bool.not_eq_true, Option.isSome_eq_false_iff,
          Option.isNone_iff_eq_none] at unknown
        simp [unknown]
      · rw [Function.update_of_ne same, ih]
        cases records.findIdx? (·.hash = hash) with
        | some slot => rfl
        | none => simp [Ne.symm same]

private theorem verifySlots_true {xs : List Record} :
    verifySlots answered slot (xs.map some) = some true ↔ ∀ k r, xs[k]? = some r → answered (slot + k) r = true := by
  induction xs generalizing slot with
  | nil => simp [verifySlots]
  | cons x xs ih =>
    rw [List.map_cons, verifySlots]
    constructor
    · intro verified k r found
      split at verified
      · next first =>
        cases k with
        | zero => cases found; exact first
        | succ k =>
          have later := ih.mp verified k r found
          rwa [show slot + 1 + k = slot + (k + 1) by omega] at later
      · cases verified
    · intro all
      rw [if_pos (show answered slot x = true from all 0 x rfl)]
      refine ih.mpr fun k r found => ?_
      rw [show slot + 1 + k = slot + (k + 1) by omega]
      exact all (k + 1) r found

/-- The side index answers for every committed record. -/
def Indexed (m : TipMeta) (w : Windows) (d : Disk) (records : List Record) : Prop :=
  ∀ slot r, records[slot]? = some r → indexedAt m w d slot r = true

private theorem indexed_rebuildIndex (serves : w.records.Serves d.records records)
    (built : d.index = rebuildIndex m records) :
    Indexed m w d records := by
  intro slot r found
  unfold indexedAt
  rw [built, rebuildIndex_eq]
  cases first : records.findIdx? (·.hash = r.hash) with
  | none =>
    have absent := List.findIdx?_eq_none_iff.mp first r (List.mem_of_getElem? found)
    simp at absent
  | some earlier =>
    obtain ⟨inside, same, before⟩ := List.findIdx?_eq_some_iff_getElem.mp first
    have order : earlier ≤ slot := by
      by_contra later
      have not := before slot (by omega)
      rw [List.getElem?_eq_some_iff] at found
      obtain ⟨_, rfl⟩ := found
      simp at not
    simp only [Option.map_some, slotOf_idOf, Option.any_some, serves.get, List.getElem?_eq_getElem inside,
      Bool.or_eq_true,
      Bool.and_eq_true, decide_eq_true_eq]
    exact .inr ⟨by unfold TipMeta.idOf; omega, by simpa using same⟩

section
variable (serves : w.records.Serves d.records records) (sized : records.length = m.tipRecordCount)
include serves sized

private theorem recordPass_eq :
    recordPass m d = records.map some := by
  apply List.ext_getElem (by simp [recordPass, sized])
  intro k _ inside
  simp only [List.length_map] at inside
  simpa [recordPass] using serves.file k _ (List.getElem?_eq_getElem inside)

omit serves sized in
private theorem rebuildSideIndex_ok (rebuilt : rebuildSideIndex m d = .ok i) :
    i = { d with index := rebuildIndex m (SlotFile.somes (recordPass m d)), marker := some m.tipRecordCount } := by
  simp only [rebuildSideIndex] at rebuilt
  split at rebuilt
  · cases rebuilt
  split at rebuilt
  · cases rebuilt
  · cases rebuilt
    rfl

section
variable (reconciled : reconcileSideIndexOnOpen m w d = .ok i)
include reconciled

omit serves sized in
/-- Reconciling leaves an index that answers for every record, or builds it anew. -/
theorem reconcile_cases :
    (d.marker = some m.tipRecordCount ∧ verifySlots (indexedAt m w d) 0 (recordPass m d) = some true ∧ i = d) ∨
      i = { d with index := rebuildIndex m (SlotFile.somes (recordPass m d)), marker := some m.tipRecordCount } := by
  unfold reconcileSideIndexOnOpen at reconciled
  split at reconciled
  · next marked =>
    split at reconciled
    · next pass => cases reconciled; exact .inl ⟨marked, pass, rfl⟩
    · exact .inr (rebuildSideIndex_ok reconciled)
    · cases reconciled
  · exact .inr (rebuildSideIndex_ok reconciled)

omit serves sized in
/-- Reconciling changes the side index and its marker only. -/
theorem reconcile_frame :
    i = { d with index := i.index, marker := some m.tipRecordCount } := by
  rcases reconcile_cases reconciled with ⟨marked, -, rfl⟩ | rfl
  · rw [← marked]
  · rfl

theorem reconcile_answers : Indexed m w i records := by
  rcases reconcile_cases reconciled with ⟨-, pass, rfl⟩ | rfl
  · intro slot r found
    rw [recordPass_eq serves sized] at pass
    simpa using verifySlots_true.mp pass slot r found
  · exact indexed_rebuildIndex serves (by rw [recordPass_eq serves sized, SlotFile.somes_map])

end

/-- A marked index that answers for every record is left as it is. -/
theorem reconcile_indexed (marked : d.marker = some m.tipRecordCount) (indexed : Indexed m w d records) :
    reconcileSideIndexOnOpen m w d = .ok d := by
  have pass : verifySlots (indexedAt m w d) 0 (recordPass m d) = some true := by
    rw [recordPass_eq serves sized]
    exact verifySlots_true.mpr fun slot r found => by simpa using indexed slot r found
  rw [reconcileSideIndexOnOpen, if_pos marked, pass]

end

theorem initWindows_serves (opened : initWindows m d error = .ok w) (sized : Sized m (region m d)) :
    w.records.Serves d.records (region m d).records ∧ w.derived.Serves d.derived (region m d).derived ∧
      w.active.Serves d.active (region m d).active := by
  obtain ⟨records, derived, active⟩ := initWindows_ok.mp opened
  exact ⟨Window.serves_initCount records (SlotFile.holds_visited sized.records) sized.records,
    Window.serves_initCount derived (SlotFile.holds_visited sized.derived) sized.derived,
    Window.serves_initCount active (SlotFile.holds_visited sized.active) sized.active⟩

end Stages

/-! ## The digest check -/

section Digests
variable [Digest] {m : TipMeta} {d i : Disk} {w : Windows} {c : Content} {s : Settled} {t : Tip} {generation : Nat}

/-- The digest `tip.meta` should have for a content. -/
def TipMeta.digestOf (m : TipMeta) (c : Content) : Hash := BlockIndex.contentDigest m.version c m.activeFence

/-- The meta published after a tail was cut off. -/
def TipMeta.republished (m : TipMeta) (c : Content) : TipMeta := { m with version := 3, contentDigest := m.digestOf c }

/-- The directory with the active store put back. -/
def Disk.restored (d : Disk) (active : SlotFile Nat) : Disk := { d with active, backup := none }

/-- How the digest check ends. -/
inductive Ending (m : TipMeta) (tail : Bool) (w : Windows) (i : Disk) : Settled → Prop
  | matched (same : m.digestOf (region m i) = m.contentDigest) :
    Ending m tail w i ⟨m, { i with backup := none }, w, region m i⟩
  | republished (tailed : tail = true) (differs : m.digestOf (region m i) ≠ m.contentDigest) :
    Ending m tail w i ⟨m.republished (region m i),
      { i with head := some (some (encodeTipMeta (m.republished (region m i)))) }, w, region m i⟩
  | restored {active : SlotFile Nat} {w' : Windows} (untailed : tail = false)
    (differs : m.digestOf (region m i) ≠ m.contentDigest) (copy : i.backup = some active)
    (reopened : initWindows m (i.restored active) "tip window init after undo-restore failed" = .ok w')
    (sized : Sized m (region m (i.restored active)))
      (same : m.digestOf (region m (i.restored active)) = m.contentDigest) :
    Ending m tail w i ⟨m, i.restored active, w', region m (i.restored active)⟩

private theorem settleDigest_ok (settled : settleDigest m tail w i = .ok s) :
    Sized m (region m i) ∧ Ending m tail w i s := by
  simp only [settleDigest, bind, Except.bind, pure, Except.pure, throw, throwThe, MonadExceptOf.throw] at settled
  split at settled
  case h_2 => cases settled
  next c scanned =>
  obtain ⟨rfl, sized⟩ := scanContent_some.mp scanned
  refine ⟨sized, ?_⟩
  split at settled
  · next same => cases settled; exact .matched same
  next differs =>
  split at settled
  · next tailed => cases settled; exact .republished tailed differs
  next untailed =>
  split at settled
  case h_2 => cases settled
  next active copy =>
  split at settled
  · cases settled
  next w' reopened =>
  split at settled
  case h_2 => cases settled
  next c rescanned =>
  split at settled
  · cases settled
  next same =>
  cases settled
  obtain ⟨rfl, resized⟩ := scanContent_some.mp rescanned
  exact .restored (by simpa using untailed) differs copy reopened resized (not_not.mp same)

/-- What a successful opening went through. -/
structure Opening (generation : Nat) (d : Disk) (m : TipMeta) where
  repaired : Disk
  reconciled : Disk
  windows : Windows
  settled : Settled
  entries : List InvalidEntry
  loaded : loadMeta generation d = .ok m
  repairs : repairStores m d = .ok repaired
  opens : initWindows m repaired "tip window init failed" = .ok windows
  reconciles : reconcileSideIndexOnOpen m windows repaired = .ok reconciled
  settles : settleDigest m (hasTail m d) windows reconciled = .ok settled
  logged : loadInvalid m settled.disk = .ok entries

theorem openTip_ok (loaded : loadMeta generation d = .ok m) (opened : openTip generation d = .ok t) :
    ∃ o : Opening generation d m, t = openedTip m o.settled o.entries := by
  simp only [openTip, bind, Except.bind, pure, Except.pure, loaded] at opened
  split at opened
  · cases opened
  next repaired repairs =>
  split at opened
  · cases opened
  next windows opens =>
  split at opened
  · cases opened
  next reconciled reconciles =>
  split at opened
  · cases opened
  next settled settles =>
  split at opened
  · cases opened
  next entries logged =>
  cases opened
  exact ⟨⟨repaired, reconciled, windows, settled, entries, loaded, repairs, opens, reconciles, settles, logged⟩, rfl⟩

namespace Opening
variable (o : Opening generation d m)
include o

/-- The stages put together. -/
theorem openTip : openTip generation d = .ok (openedTip m o.settled o.entries) := by
  simp only [BlockIndex.openTip, bind, Except.bind, pure, Except.pure, o.loaded, o.repairs,
    o.opens, o.reconciles, o.settles,
    o.logged]

theorem frame : o.reconciled = { o.repaired with index := o.reconciled.index, marker := some m.tipRecordCount } :=
  reconcile_frame o.reconciles

private theorem alike : ReadAlike m d o.reconciled := by
  have repaired := repairStores_alike o.repairs
  rw [o.frame]
  exact ⟨repaired.records, repaired.derived, repaired.active⟩

theorem region_eq : region m o.reconciled = region m d := o.alike.region

theorem ending : Ending m (hasTail m d) o.windows o.reconciled o.settled := (settleDigest_ok o.settles).2

theorem sized : Sized m (region m d) := o.region_eq ▸ (settleDigest_ok o.settles).1

theorem opens_reconciled : initWindows m o.reconciled "tip window init failed" = .ok o.windows := by
  rw [o.frame]
  exact o.opens

theorem presents : Presents (openedTip m o.settled o.entries) o.settled.content := by
  have opened := initWindows_serves o.opens_reconciled (o.region_eq ▸ o.sized)
  have ended := o.ending
  revert ended
  generalize o.settled = s
  intro ended
  cases ended with
  | matched => exact ⟨opened.1, opened.2.1, opened.2.2⟩
  | republished => exact ⟨opened.1, opened.2.1, opened.2.2⟩
  | restored _ _ _ reopened resized =>
    have opened := initWindows_serves reopened resized
    exact ⟨opened.1, opened.2.1, opened.2.2⟩

end Opening

/-! ## Integrity -/

/-- The byte strings a chained digest hashes. -/
def chainHashed : Hash → List Bytes → List Bytes
  | _, [] => []
  | state, entry :: rest => (state.val ++ entry) :: chainHashed (digestChainExtend state entry) rest

/-- The byte strings a content digest hashes past the initial states. -/
def hashedFor (version : Nat) (c : Content) (fence : Nat) : List Bytes :=
  if version = 3 then
    ((chainsOf c).chainR.val ++ (chainsOf c).chainD.val ++ (chainsOf c).chainA.val ++ Bytes.le 1 fence) ::
      (chainHashed (digestChainInit "INNOVA-TIP-DIGEST-V3/R") (c.records.map recordDigestBytes) ++
        chainHashed (digestChainInit "INNOVA-TIP-DIGEST-V3/D") (c.derived.map derivedDigestBytes) ++
        chainHashed (digestChainInit "INNOVA-TIP-DIGEST-V3/A") (c.active.map activeDigestBytes))
  else [c.records.flatMap recordDigestBytes ++ c.derived.flatMap derivedDigestBytes ++
    c.active.flatMap activeDigestBytes ++ Bytes.le 1 fence]

/-- No two of these byte strings have one hash. -/
def CollisionFree (xs ys : List Bytes) : Prop := ∀ x ∈ xs, ∀ y ∈ ys, Digest.sha256 x = Digest.sha256 y → x = y

/-- Two contents agree in everything a content digest covers. -/
structure Agrees (c c' : Content) : Prop where
  records : c.records.map recordDigestBytes = c'.records.map recordDigestBytes
  derived : c.derived.map derivedDigestBytes = c'.derived.map derivedDigestBytes
  active : c.active.map activeDigestBytes = c'.active.map activeDigestBytes

omit [Digest] in
private theorem flatMap_append_inj {α : Type} {f : α → Bytes} {n : Nat} (width : ∀ x, (f x).length = n) {xs ys : List α}
    {one two : Bytes} (length : xs.length = ys.length) (same : xs.flatMap f ++ one = ys.flatMap f ++ two) :
    xs.map f = ys.map f ∧ one = two := by
  induction xs generalizing ys with
  | nil =>
    cases ys with
    | nil => exact ⟨rfl, same⟩
    | cons y ys => cases length
  | cons x xs ih =>
    cases ys with
    | nil => cases length
    | cons y ys =>
      rw [List.flatMap_cons, List.flatMap_cons, List.append_assoc, List.append_assoc] at same
      obtain ⟨first, rest⟩ := List.append_inj same (by rw [width, width])
      obtain ⟨maps, tails⟩ := ih (Nat.succ.inj length) rest
      exact ⟨by rw [List.map_cons, List.map_cons, first, maps], tails⟩

private theorem chainHashed_append (state : Hash) (xs : List Bytes) (x : Bytes) :
    chainHashed state (xs ++ [x]) = chainHashed state xs ++ [(xs.foldl digestChainExtend state).val ++ x] := by
  induction xs generalizing state with
  | nil => rfl
  | cons y xs ih => rw [List.cons_append, chainHashed, ih, chainHashed, List.cons_append, List.foldl_cons]

/-- Chains of one length over different entries collide somewhere. -/
theorem foldl_digestChain_inj (length : xs.length = ys.length)
    (free : CollisionFree (chainHashed state xs) (chainHashed state ys))
    (same : xs.foldl digestChainExtend state = ys.foldl digestChainExtend state) : xs = ys := by
  induction xs using List.reverseRecOn generalizing ys with
  | nil => exact (List.length_eq_zero_iff.mp length.symm).symm
  | append_singleton xs x ih =>
    obtain ⟨ys, y, rfl⟩ : ∃ ys' y, ys = ys' ++ [y] := by
      cases ys using List.reverseRecOn with
      | nil => simp at length
      | append_singleton ys y => exact ⟨ys, y, rfl⟩
    rw [chainHashed_append, chainHashed_append] at free
    simp only [List.foldl_append, List.foldl_cons, List.foldl_nil] at same
    have last := free _ (by simp) _ (by simp) same
    have widths := (xs.foldl digestChainExtend state).property.trans (ys.foldl digestChainExtend state).property.symm
    obtain ⟨states, entries⟩ := List.append_inj last widths
    have earlier := ih (by simpa using length) (fun a left b right => free a (by simp [left]) b (by simp [right]))
      (Subtype.ext states)
    rw [earlier, entries]

/-- The digest tells contents of one size apart. -/
theorem agrees_of_digest {c c' : Content} (sized : Sized m c) (sized' : Sized m c')
    (free : CollisionFree (hashedFor m.version c m.activeFence) (hashedFor m.version c' m.activeFence))
    (same : m.digestOf c = m.digestOf c') : Agrees c c' := by
  have records := sized.records.trans sized'.records.symm
  have derived := sized.derived.trans sized'.derived.symm
  have active := sized.active.trans sized'.active.symm
  unfold TipMeta.digestOf contentDigest at same
  unfold hashedFor at free
  split at same
  · next chained =>
    rw [if_pos chained, if_pos chained] at free
    have final := free _ List.mem_cons_self _ List.mem_cons_self same
    have inner {x y : Bytes} (left : x ∈ _) (right : y ∈ _) :=
      free x (List.mem_cons_of_mem _ left) y (List.mem_cons_of_mem _ right)
    obtain ⟨heads, -⟩ := List.append_inj' final rfl
    obtain ⟨heads, chainA⟩ :=
      List.append_inj' heads ((chainsOf c).chainA.property.trans (chainsOf c').chainA.property.symm)
    obtain ⟨chainR, chainD⟩ :=
      List.append_inj' heads ((chainsOf c).chainD.property.trans (chainsOf c').chainD.property.symm)
    exact {
      records := foldl_digestChain_inj (by simpa using records)
        (fun x left y right => inner (by simp [left]) (by simp [right])) (Subtype.ext chainR)
      derived := foldl_digestChain_inj (by simpa using derived)
        (fun x left y right => inner (by simp [left]) (by simp [right])) (Subtype.ext chainD)
      active := foldl_digestChain_inj (by simpa using active)
        (fun x left y right => inner (by simp [left]) (by simp [right])) (Subtype.ext chainA) }
  · next plain =>
    rw [if_neg plain, if_neg plain] at free
    have bytes := free _ List.mem_cons_self _ List.mem_cons_self same
    simp only [List.append_assoc] at bytes
    obtain ⟨records, bytes⟩ := flatMap_append_inj (n := 68) (fun r => by
      rw [recordDigestBytes, List.length_append, List.length_append, r.hash.property,
        r.hashPrev.property, Bytes.le_length]) records bytes
    obtain ⟨derived, bytes⟩ := flatMap_append_inj (n := 36) (fun d => by
      rw [derivedDigestBytes, List.length_append, Bytes.le_length, Bytes.le_length]) derived bytes
    obtain ⟨active, -⟩ :=
      flatMap_append_inj (n := 8) (fun id => by rw [activeDigestBytes, Bytes.le_length]) active bytes
    exact ⟨records, derived, active⟩

/-- A content is the one a meta's digest was made of: it has that digest, and without a collision
no other content of its size has. -/
structure CommittedTo (m : TipMeta) (c : Content) : Prop where
  digest : m.digestOf c = m.contentDigest
  unique : ∀ c', Sized m c' → m.digestOf c' = m.contentDigest →
    CollisionFree (hashedFor m.version c' m.activeFence) (hashedFor m.version c m.activeFence) → Agrees c' c

private theorem committedTo_iff (sized : Sized m c) : CommittedTo m c ↔ m.digestOf c = m.contentDigest :=
  ⟨CommittedTo.digest, fun same =>
    ⟨same, fun _ sized' same' free => agrees_of_digest sized' sized free (same'.trans same.symm)⟩⟩

theorem Opening.sized_content (o : Opening generation d m) : Sized m o.settled.content := by
  have opened := o.sized
  rw [← o.region_eq] at opened
  have ended := o.ending
  revert ended
  generalize o.settled = s
  intro ended
  cases ended with
  | matched => exact opened
  | republished => exact opened
  | restored _ _ _ _ resized => exact resized

/-- An opened tip serves what `tip.meta` committed to, except after a cut-off tail: then whatever
the committed region holds is served. -/
theorem served_committed_iff (loaded : loadMeta generation d = .ok m) (opened : openTip generation d = .ok t) :
    CommittedTo m t.served ↔ ¬(hasTail m d = true ∧ m.digestOf (region m d) ≠ m.contentDigest) := by
  obtain ⟨o, rfl⟩ := openTip_ok loaded opened
  rw [o.presents.served, committedTo_iff o.sized_content, ← o.region_eq]
  have ended := o.ending
  revert ended
  generalize o.settled = s
  intro ended
  cases ended with
  | matched same => simp [same]
  | republished tailed differs => simp [tailed, differs]
  | restored untailed _ _ _ _ same => simp [untailed, same]

end Digests

/-- A tip of one block. -/
def grownTip : Tip := endState (@appendBatch sha256Digest quiet [plainBlock 2 1 11] [11]) freshTip

/-- Its directory with an uncommitted entry at the end and without its side index. -/
def crashedDisk : Disk :=
  { grownTip.disk with
    derived := .whole (grownTip.disk.derived.body ++ [some {}]), index := fun _ => none, marker := none }

theorem crashed_opens : loadMeta 1 crashedDisk = .ok grownTip.tipMeta ∧
    ∃ t, @openTip sha256Digest 1 crashedDisk = .ok t := by
  obtain ⟨t, opened, -⟩ :=
    ok_of_map (show (@openTip sha256Digest 1 crashedDisk).map (fun _ => ()) = .ok () by decide +kernel)
  exact ⟨by decide +kernel, t, opened⟩

theorem crashed_served_committed : ∃ t, @openTip sha256Digest 1 crashedDisk = .ok t ∧
    @CommittedTo sha256Digest grownTip.tipMeta t.served := by
  let := sha256Digest
  obtain ⟨loaded, t, opened⟩ := crashed_opens
  exact ⟨t, opened, (served_committed_iff loaded opened).mpr (by decide +kernel)⟩

/-- The directory of `grownTip` with its derived entry overwritten and one more entry behind it. -/
def tamperedDisk : Disk := { grownTip.disk with derived := .whole [some { chainTrust := 1 }, some {}] }

/-- The extra entry makes the opening accept the overwritten one. -/
theorem tampered_tail_accepted : ∃ t m, loadMeta 1 tamperedDisk = .ok m ∧ @openTip sha256Digest 1 tamperedDisk = .ok t ∧
    t.served.derived = [{ chainTrust := 1 }] ∧ ¬@CommittedTo sha256Digest m t.served := by
  let := sha256Digest
  have loaded : loadMeta 1 tamperedDisk = .ok grownTip.tipMeta := by decide +kernel
  obtain ⟨t, opened, found⟩ := ok_of_map (show ((openTip 1 tamperedDisk).map fun t =>
    (t.served.derived, decide (grownTip.tipMeta.digestOf t.served = grownTip.tipMeta.contentDigest))) =
      .ok ([{ chainTrust := 1 }], false) by decide +kernel)
  rw [Prod.mk.injEq, decide_eq_false_iff_not] at found
  exact ⟨t, _, loaded, opened, found.1, fun committed => found.2 committed.digest⟩

end Innova.BlockIndex
