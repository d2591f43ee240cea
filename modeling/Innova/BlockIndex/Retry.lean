import Innova.BlockIndex.TipAppend

/-! A publication that failed is tried again. Entries of the side index are written before the
commit and are not taken back, and a block the index knows is skipped as already appended. So a
retry commits the batch only if the first attempt stopped before its first index entry. -/
namespace Innova.BlockIndex
open Lib Chainstate

/-! ## A committed batch -/

/-- The active chain has the block at its height. -/
def Tip.Stands (t : Tip) (item : Append × Int) : Prop :=
  ∃ read, t.lookupActiveByHeight item.2 = .ok read ∧ read.record.hash = item.1.record.hash

structure Committed (t : Tip) (batch : List (Append × Int)) : Prop where
  found : ∀ item ∈ batch, t.Finds item.1.record.hash
  stands : ∀ item ∈ actives batch, t.Stands item
  tip : ∀ last, (actives batch).getLast? = some last →
    t.tipMeta.tipHeight = last.2 ∧ t.tipMeta.tipHash = last.1.record.hash

/-- The authority with the caches that are left when new entries pushed old ones out. -/
def Tip.shedBy (cap records active : Nat) (t : Tip) : Tip :=
  { t with
    recordsWin := t.recordsWin.shed cap records
    derivedWin := t.derivedWin.shed cap records
    activeWin := t.activeWin.shed cap active }

private theorem shedBy_counts {t : Tip} {cap records active : Nat} :
    (t.shedBy cap records active).recordsWin.count = t.recordsWin.count ∧
      (t.shedBy cap records active).derivedWin.count = t.derivedWin.count ∧
      (t.shedBy cap records active).activeWin.count = t.activeWin.count := ⟨rfl, rfl, rfl⟩

/-- The authority with the caches an append of these blocks leaves for the entries before them. -/
def Tip.aged (t : Tip) (batch : List (Append × Int)) : Tip :=
  t.shedBy ringCap (t.fresh batch).length (actives (t.fresh batch)).length

private theorem shedBy_pend {t : Tip} {cap n k : Nat} (pend : List (Append × Int)) :
    Tip.Alike (t.shedBy cap n k) (({ t with pend } : Tip).shedBy cap n k) :=
  ⟨rfl, rfl, rfl, rfl, rfl, fun _ => rfl, fun _ => rfl, fun _ => rfl⟩

private theorem aged_counts {t : Tip} {batch : List (Append × Int)} :
    (t.aged batch).recordsWin.count = t.recordsWin.count ∧ (t.aged batch).derivedWin.count = t.derivedWin.count ∧
      (t.aged batch).activeWin.count = t.activeWin.count := shedBy_counts

/-- The blocks of a batch that the side index knows are committed where they belong. -/
@[mk_iff] structure KnownCommitted (t : Tip) (batch : List (Append × Int)) : Prop where
  found : ∀ item ∈ batch, t.knows item = true → (t.aged batch).Finds item.1.record.hash
  stands : ∀ item ∈ actives batch, t.knows item = true → (t.aged batch).Stands item
  tip : ∀ last, (actives batch).getLast? = some last → t.knows last = true →
    actives (t.fresh batch) = [] ∧ t.tipMeta.tipHeight = last.2 ∧ t.tipMeta.tipHash = last.1.record.hash

/-- Nothing is asked of a batch the index knows nothing of. -/
theorem settled_of_fresh {t : Tip} {batch : List (Append × Int)} (unknown : ∀ item ∈ batch, t.knows item = false) :
    KnownCommitted t batch := by
  have absurdity {item : Append × Int} (member : item ∈ batch) (known : t.knows item = true) : False := by
    rw [unknown item member] at known
    cases known
  exact ⟨fun item member known => (absurdity member known).elim,
    fun item member known => (absurdity (List.mem_filter.mp member).1 known).elim,
    fun last isLast known => (absurdity (List.mem_filter.mp (List.mem_of_getLast? isLast)).1 known).elim⟩

section Published
variable [Digest] {io : Point → Option Fault} {t : Tip} {batch : List (Append × Int)} {g : Gathered}

/-- A batch that was published, from a state where its stores could be written. -/
structure Publishes (io : Point → Option Fault) (t : Tip) (batch : List (Append × Int)) (g : Gathered) : Prop where
  wf : t.WellFormed
  gathers : Gathers t (t.fresh batch) g
  passed : ∀ x ∈ commitSteps t g, x.Passes io

namespace Publishes
variable (pub : Publishes io t batch g)
include pub

private theorem room : Room t := room_of_commit pub.passed

private theorem records : g.content.records = (t.fresh batch).map (·.1.record) := by
  simp [Gathered.content, pub.gathers.blocks]

private theorem blocks_length : g.blocks.length = (t.fresh batch).length := by rw [pub.gathers.blocks, List.length_map]

section
variable {i : Nat} (place : (t.fresh batch)[i]? = some item)
include place

/-- A new block is indexed at its slot. -/
theorem index_fresh :
    (t.published g).disk.index item.1.record.hash = some (t.tipMeta.idOf (t.tipMeta.tipRecordCount + i)) := by
  have passed := pub.passed
  unfold commitSteps filing enterSteps at passed
  simp only [List.forall_mem_append] at passed
  exact puts_entered passed.1.2.1 (by rw [pub.records, List.getElem?_map, place]; rfl)

omit place in
omit pub in
/-- A block the index knew stays where it was. -/
theorem index_known {hash : Hash} {id : Nat} (known : t.disk.index hash = some id) :
    (t.published g).disk.index hash = some id :=
  enterRecords_known known

private theorem record_fresh :
    (t.published g).record? (t.tipMeta.tipRecordCount + i) = some item.1.record := by
  rw [published_record pub.wf pub.room, if_neg (by omega), Nat.add_sub_cancel_left, pub.gathers.blocks,
    List.getElem?_map,
    List.getElem?_map, place]
  rfl

private theorem derived_fresh :
    (t.published g).derived? (t.tipMeta.tipRecordCount + i) = some item.1.derived := by
  rw [published_derived pub.wf pub.room, if_neg (by omega), Nat.add_sub_cancel_left, pub.gathers.blocks,
    List.getElem?_map,
    List.getElem?_map, place]
  rfl

end

private theorem record_old {slot : Nat} (old : slot < t.tipMeta.tipRecordCount) :
    (t.published g).record? slot = (t.aged batch).record? slot := by
  rw [published_record pub.wf pub.room, if_pos old, pub.blocks_length, Tip.record?, Tip.aged, Tip.shedBy]

private theorem derived_old {slot : Nat} (old : slot < t.tipMeta.tipRecordCount) :
    (t.published g).derived? slot = (t.aged batch).derived? slot := by
  rw [published_derived pub.wf pub.room, if_pos old, pub.blocks_length, Tip.derived?, Tip.aged, Tip.shedBy]

private theorem active_old {rel : Nat} (old : rel < t.tipMeta.activeCount) :
    (t.published g).active? rel = (t.aged batch).active? rel := by
  rw [published_active pub.wf pub.room, if_pos old, pub.gathers.length, Tip.active?, Tip.aged, Tip.shedBy]

/-- Every entry of the active chain can be read. -/
theorem active_readable {rel : Nat} (inside : rel < (t.published g).activeWin.count) :
    ∃ id, (t.published g).active? rel = some id := by
  rw [(published_counts pub.wf).2.2] at inside
  rw [published_active pub.wf pub.room]
  split
  · next old =>
    have readable := pub.wf.active.readable pub.room.active
    rw [← pub.wf.activeCount] at readable old
    exact Window.get_readable (by rwa [Window.count_shed]) (by rwa [Window.count_shed])
  · next new => exact ⟨_, List.getElem?_eq_getElem (by omega)⟩

/-- Whether a record is active can be told. -/
theorem flag_readable (id : Nat) (r : Record) : ∃ active, (t.published g).activeFlag id r = .ok active := by
  unfold Tip.activeFlag
  split
  · next within =>
    obtain ⟨entry, read⟩ := pub.active_readable within.2
    rw [read]
    exact ⟨_, rfl⟩
  · exact ⟨_, rfl⟩

private theorem aged_flag (id : Nat) (r : Record) : ∃ active, (t.aged batch).activeFlag id r = .ok active := by
  unfold Tip.activeFlag
  split
  · next within =>
    have old := within.2
    rw [aged_counts.2.2, pub.wf.activeCount] at old
    have inside : (r.height - (t.aged batch).tipMeta.baseTipHeight - 1).toNat < (t.published g).activeWin.count := by
      rw [(published_counts pub.wf).2.2]
      exact Nat.lt_add_right _ old
    obtain ⟨entry, read⟩ := pub.active_readable inside
    rw [← pub.active_old old, read]
    exact ⟨_, rfl⟩
  · exact ⟨_, rfl⟩

private theorem finds_fresh (member : item ∈ t.fresh batch) : (t.published g).Finds item.1.record.hash := by
  obtain ⟨i, place⟩ := List.mem_iff_getElem?.mp member
  have inside := (List.getElem?_eq_some_iff.mp place).1
  obtain ⟨active, flag⟩ := pub.flag_readable (t.tipMeta.idOf (t.tipMeta.tipRecordCount + i)) item.1.record
  obtain ⟨records, derived, -⟩ := published_counts (g := g) pub.wf
  refine ⟨⟨item.1.record, item.1.derived, active, item.1.record.height⟩, Tip.lookupDurable_ok.mpr
    ⟨_, t.tipMeta.tipRecordCount + i, pub.index_fresh place, ?_, ?_, ?_, pub.record_fresh place,
      pub.derived_fresh place, rfl, flag, rfl⟩⟩
  · exact slotOf_idOf _ _
  · rw [records, pub.blocks_length]; omega
  · rw [derived, pub.blocks_length]; omega

private theorem stands_fresh (member : item ∈ actives (t.fresh batch)) : (t.published g).Stands item := by
  obtain ⟨j, found⟩ := List.mem_iff_getElem?.mp member
  obtain ⟨i, place, entry, height⟩ := pub.gathers.placed j item found
  have inside := (List.getElem?_eq_some_iff.mp place).1
  have above := pub.wf.above
  have within := (List.getElem?_eq_some_iff.mp entry).1
  obtain ⟨records, -, active⟩ := published_counts (g := g) pub.wf
  refine ⟨⟨item.1.record, item.1.derived, true, item.1.record.height⟩, Tip.lookupActive_ok.mpr
    ⟨t.tipMeta.activeCount + j, _, t.tipMeta.tipRecordCount + i, ?_, ?_, ?_, slotOf_idOf _ _,
      ?_, pub.record_fresh place,
      pub.derived_fresh place, rfl, rfl⟩, rfl⟩
  · rw [show (t.published g).tipMeta.baseTipHeight = t.tipMeta.baseTipHeight from rfl, TipMeta.activeCount]
    omega
  · rw [active]; omega
  · rw [published_active pub.wf pub.room, if_neg (by omega), Nat.add_sub_cancel_left, entry]
    rfl
  · rw [records, pub.blocks_length]; omega

omit pub [Digest] in
/-- A new block is not one the index knows. -/
theorem fresh_ne_known {other : Append × Int} (new : other ∈ t.fresh batch) (known : t.knows item = true) :
    other.1.record.hash ≠ item.1.record.hash := by
  intro same
  have unknown := (List.mem_filter.mp new).2
  unfold Tip.knows at known unknown
  rw [same, known] at unknown
  cases unknown

/-- A slot that answers with a known block's hash is an old one. -/
theorem slot_old {slot : Nat} {r : Record} (known : t.knows item = true) (read : (t.published g).record? slot = some r)
    (hash : r.hash = item.1.record.hash) : slot < t.tipMeta.tipRecordCount := by
  by_contra new
  rw [published_record pub.wf pub.room, if_neg new, pub.gathers.blocks, List.map_map, List.getElem?_map,
    Option.map_eq_some_iff] at read
  obtain ⟨other, place, rfl⟩ := read
  exact fresh_ne_known (List.mem_of_getElem? place) known hash

private theorem finds_known (known : t.knows item = true) :
    (t.published g).Finds item.1.record.hash ↔ (t.aged batch).Finds item.1.record.hash := by
  obtain ⟨id, indexed⟩ := Option.isSome_iff_exists.mp known
  obtain ⟨records, derived, active⟩ := published_counts (g := g) pub.wf
  constructor
  · rintro ⟨read, found⟩
    obtain ⟨id', slot, indexed', slotted, -, -, record, entry, hash, -, -⟩ := Tip.lookupDurable_ok.mp found
    rw [index_known indexed] at indexed'
    cases indexed'
    have old := pub.slot_old known record hash
    obtain ⟨active, flag⟩ := pub.aged_flag id read.record
    refine ⟨⟨read.record, read.derived, active, read.record.height⟩, Tip.lookupDurable_ok.mpr
      ⟨id, slot, indexed, slotted, ?_, ?_, ?_, ?_, hash, flag, rfl⟩⟩
    · rwa [aged_counts.1, pub.wf.recordCount]
    · rwa [aged_counts.2.1, pub.wf.derivedCount]
    · rw [← pub.record_old old, record]
    · rw [← pub.derived_old old, entry]
  · rintro ⟨read, found⟩
    obtain ⟨id', slot, indexed', slotted, inside, -, record, entry, hash, -, -⟩ := Tip.lookupDurable_ok.mp found
    rw [show (t.aged batch).disk.index = t.disk.index from rfl, indexed] at indexed'
    cases indexed'
    have old : slot < t.tipMeta.tipRecordCount := by rwa [aged_counts.1, pub.wf.recordCount] at inside
    obtain ⟨active, flag⟩ := pub.flag_readable id read.record
    refine ⟨⟨read.record, read.derived, active, read.record.height⟩, Tip.lookupDurable_ok.mpr
      ⟨id, slot, index_known indexed, slotted, ?_, ?_, ?_, ?_, hash, flag, rfl⟩⟩
    · rw [records]; omega
    · rw [derived]; omega
    · rw [pub.record_old old, record]
    · rw [pub.derived_old old, entry]

private theorem stands_known (known : t.knows item = true) : (t.published g).Stands item ↔
    (t.aged batch).Stands item := by
  obtain ⟨records, derived, active⟩ := published_counts (g := g) pub.wf
  constructor
  · rintro ⟨read, found, hash⟩
    obtain ⟨rel, id, slot, height, inside, entry, slotted, -, record, derived, -, -⟩ := Tip.lookupActive_ok.mp found
    have old := pub.slot_old known record hash
    have below : rel < t.tipMeta.activeCount := by
      by_contra new
      rw [published_active pub.wf pub.room, if_neg new] at entry
      obtain ⟨i, other, -, -, rfl, -⟩ := pub.gathers.entry entry
      change t.tipMeta.slotOf _ = some slot at slotted
      rw [slotOf_idOf] at slotted
      cases slotted
      omega
    refine ⟨⟨read.record, read.derived, true, read.record.height⟩, Tip.lookupActive_ok.mpr
      ⟨rel, id, slot, height, ?_, ?_, slotted, ?_, ?_, ?_, rfl, rfl⟩, hash⟩
    · rwa [aged_counts.2.2, pub.wf.activeCount]
    · rw [← pub.active_old below, entry]
    · rwa [aged_counts.1, pub.wf.recordCount]
    · rw [← pub.record_old old, record]
    · rw [← pub.derived_old old, derived]
  · rintro ⟨read, found, hash⟩
    obtain ⟨rel, id, slot, height, inside, entry, slotted, stored, record, entry', -, -⟩ := Tip.lookupActive_ok.mp found
    rw [aged_counts.2.2, pub.wf.activeCount] at inside
    rw [aged_counts.1, pub.wf.recordCount] at stored
    refine ⟨⟨read.record, read.derived, true, read.record.height⟩, Tip.lookupActive_ok.mpr
      ⟨rel, id, slot, height, ?_, ?_, slotted, ?_, ?_, ?_, rfl, rfl⟩, hash⟩
    · rw [active]; omega
    · rw [pub.active_old inside, entry]
    · rw [records]; omega
    · rw [pub.record_old stored, record]
    · rw [pub.derived_old stored, entry']

/-- The tip is the last new active block. -/
theorem tip_fresh {last : Append × Int} (isLast : (actives (t.fresh batch)).getLast? = some last) :
    (t.published g).tipMeta.tipHeight = last.2 ∧ (t.published g).tipMeta.tipHash = last.1.record.hash := by
  rw [List.getLast?_eq_getElem?] at isLast
  obtain ⟨i, place, entry, height⟩ := pub.gathers.placed _ last isLast
  have some : g.active ≠ [] := by rintro empty; simp [empty] at entry
  have above := pub.wf.above
  have length := pub.gathers.length
  have positive := List.length_pos_iff.mpr some
  have final : g.active.getLast? = Option.some (t.tipMeta.idOf (t.tipMeta.tipRecordCount + i)) := by
    rw [List.getLast?_eq_getElem?, length, entry]
  have total : t.tipMeta.activeCount + g.active.length ≠ 0 := by omega
  change (appendMeta t.tipMeta g).tipHeight = _ ∧ (appendMeta t.tipMeta g).tipHash = _
  simp only [appendMeta, if_neg total, if_pos some, final]
  constructor
  · rw [TipMeta.activeCount]
    omega
  · have offset : t.tipMeta.idOf (t.tipMeta.tipRecordCount + i) - t.tipMeta.idOf t.tipMeta.tipRecordCount = i := by
      unfold TipMeta.idOf
      omega
    simp only [Option.bind_some, offset, pub.gathers.blocks, List.getElem?_map, place, Option.map_some,
      Option.getD_some]

/-- Without new active blocks the tip stays. -/
theorem tip_old (none : actives (t.fresh batch) = []) (some : 0 < t.tipMeta.activeCount) :
    (t.published g).tipMeta.tipHeight = t.tipMeta.tipHeight ∧ (t.published g).tipMeta.tipHash = t.tipMeta.tipHash := by
  have empty : g.active = [] := List.eq_nil_of_length_eq_zero (by rw [pub.gathers.length, none, List.length_nil])
  change (appendMeta t.tipMeta g).tipHeight = _ ∧ (appendMeta t.tipMeta g).tipHash = _
  simp only [appendMeta, empty, List.length_nil, Nat.add_zero, if_neg (Nat.ne_of_gt some), ne_eq,
    not_true_eq_false, if_false,
    and_self]

/-- A published batch is committed exactly if its known blocks were. -/
theorem committed_iff : Committed (t.published g) batch ↔ KnownCommitted t batch := by
  have known_or_fresh (item : Append × Int) (member : item ∈ batch) : t.knows item = true ∨ item ∈ t.fresh batch := by
    cases known : t.knows item with
    | true => exact .inl rfl
    | false => exact .inr (List.mem_filter.mpr ⟨member, by simp [known]⟩)
  constructor
  · intro committed
    refine ⟨fun item member known => ?_, fun item member known => ?_, fun last isLast known => ?_⟩
    · exact (pub.finds_known known).mp (committed.found item member)
    · exact (pub.stands_known known).mp (committed.stands item member)
    · have member := List.mem_of_getLast? isLast
      obtain ⟨read, found, -⟩ := (pub.stands_known known).mp (committed.stands last member)
      obtain ⟨rel, -, -, -, inside, -⟩ := Tip.lookupActive_ok.mp found
      rw [aged_counts.2.2, pub.wf.activeCount] at inside
      obtain ⟨height, hash⟩ := committed.tip last isLast
      have none : actives (t.fresh batch) = [] := by
        by_contra some
        have isLast' := List.getLast?_eq_some_getLast some
        have new := (List.mem_filter.mp (List.mem_of_getLast? isLast')).1
        exact fresh_ne_known new known ((pub.tip_fresh isLast').2.symm.trans hash)
      obtain ⟨height', hash'⟩ := pub.tip_old none (by omega)
      exact ⟨none, height' ▸ height, hash' ▸ hash⟩
  · intro settled
    refine ⟨fun item member => ?_, fun item member => ?_, fun last isLast => ?_⟩
    · rcases known_or_fresh item member with known | new
      · exact (pub.finds_known known).mpr (settled.found item member known)
      · exact pub.finds_fresh new
    · obtain ⟨inBatch, active⟩ := List.mem_filter.mp member
      rcases known_or_fresh item inBatch with known | new
      · exact (pub.stands_known known).mpr (settled.stands item member known)
      · exact pub.stands_fresh (List.mem_filter.mpr ⟨new, active⟩)
    · have member := List.mem_of_getLast? isLast
      obtain ⟨inBatch, active⟩ := List.mem_filter.mp member
      rcases known_or_fresh last inBatch with known | new
      · obtain ⟨none, height, hash⟩ := settled.tip last isLast known
        obtain ⟨read, found, -⟩ := settled.stands last member known
        obtain ⟨rel, -, -, -, inside, -⟩ := Tip.lookupActive_ok.mp found
        rw [aged_counts.2.2, pub.wf.activeCount] at inside
        obtain ⟨height', hash'⟩ := pub.tip_old none (by omega)
        exact ⟨height'.trans height, hash'.trans hash⟩
      · obtain ⟨before, split⟩ := List.getLast?_eq_some_iff.mp isLast
        have same : actives (t.fresh batch) = (actives batch).filter fun item => !t.knows item := by
          simp only [actives, Tip.fresh, List.filter_filter, Bool.and_comm]
        have unknown : t.knows last = false := by simpa using (List.mem_filter.mp new).2
        refine pub.tip_fresh ?_
        rw [same, split]
        simp [unknown]

end Publishes
end Published

/-! ## Where the first attempt stops -/

section Stops
variable [Digest] {t u : Tip} {batch : List (Append × Int)}

/-- The steps of an append up to its first entry of the side index. -/
def Tip.earlyPoints (t : Tip) (batch : List (Append × Int)) : List Point :=
  [.trim .records, .trim .derived, .trim .active, .append .records, .append .derived] ++
  (if actives (t.fresh batch) = [] then [] else [.append .active]) ++
  (if t.logDue then [.write .invalid, .rename .invalid, .sync .invalid] else []) ++ [.put 0]

/-- What a stop before the first index entry leaves: the stores may have grown behind their
committed entries, the rest is as it was. -/
structure Residue (t u : Tip) : Prop where
  frame : u = { t with disk := u.disk, invalidDisk := u.invalidDisk }
  index : u.disk.index = t.disk.index
  records : SlotFile.Extends t.tipMeta.tipRecordCount t.disk.records u.disk.records
  derived : SlotFile.Extends t.tipMeta.tipRecordCount t.disk.derived u.disk.derived
  active : SlotFile.Extends t.tipMeta.activeCount t.disk.active u.disk.active

section
omit [Digest]

private theorem headed_long {α : Type} {f : SlotFile α} {n : Nat} (long : f.short n = false) :
    f.header = true ∧ n ≤ f.slots.length := by
  simpa [SlotFile.short] using long

private theorem residue_self : Residue t t where
  frame := rfl
  index := rfl
  records := SlotFile.extends_self
  derived := SlotFile.extends_self
  active := SlotFile.extends_self

/-- Changes of the stores behind their committed entries, and of files no answer rests on. -/
theorem Residue.onDisk {s : Tip} {effect : Disk → Disk} (residue : Residue t s)
    (index : (effect s.disk).index = s.disk.index)
    (records : SlotFile.Extends t.tipMeta.tipRecordCount t.disk.records (effect s.disk).records)
    (derived : SlotFile.Extends t.tipMeta.tipRecordCount t.disk.derived (effect s.disk).derived)
    (active : SlotFile.Extends t.tipMeta.activeCount t.disk.active (effect s.disk).active) :
    Residue t (s.onDisk effect) where
  frame := by
    have frame := residue.frame
    unfold Tip.onDisk
    rw [frame]
  index := index.trans residue.index
  records := records
  derived := derived
  active := active

/-- Writing new entries keeps to the residue. -/
theorem residue_growth (room : Room t) : Step.Keeps (Residue t) (growthSteps t g) := by
  have records := (headed_long room.records).2
  have derived := (headed_long room.derived).2
  have active := (headed_long room.active).2
  refine (keeps_trim fun v held => ?_).append
    ((keeps_trim fun v held => ?_).append ((keeps_trim fun v held => ?_).append
    ((keeps_grow fun v entries torn held => ?_).append ((keeps_grow fun v entries torn held => ?_).append
      (keeps_grow fun v entries torn held => ?_)))))
  · exact held.onDisk rfl (held.records.cut records) held.derived held.active
  · exact held.onDisk rfl held.records (held.derived.cut derived) held.active
  · exact held.onDisk rfl held.records held.derived (held.active.cut active)
  · exact held.onDisk rfl (held.records.grown entries) held.derived held.active
  · exact held.onDisk rfl held.records (held.derived.grown entries) held.active
  · exact held.onDisk rfl held.records held.derived (held.active.grown entries)

end

private theorem residue_stores (room : Room t) : Step.Keeps (Residue t) (storeSteps t g) := by
  refine (residue_growth room).append ?_
  split
  · refine (keeps_cow fun v held => held.onDisk rfl held.records held.derived held.active).append
      (.change ?_ Step.keeps_nil)
    intro v held
    exact ⟨by rw [held.frame], held.index, held.records, held.derived, held.active⟩
  · exact Step.keeps_nil

section
omit [Digest]

/-- A store that is not cut stays as it is. -/
theorem trim_error {α : Type} {w : Tip} {s : StoreAt α} {n : Nat} {text : String}
    (stopped : Step.run io (trimSteps w s n text) t = .error e u) : u = t := by
  rcases Step.run_append_error.mp stopped with refused | ⟨-, failed⟩
  · cases long : !(s.file w.disk).short n with
    | true => rw [long] at refused; cases refused
    | false => rw [long] at refused; cases refused; rfl
  · rw [after_check] at failed
    simp only [Step.run, diskStep] at failed
    split at failed
    · cases failed
    · next fault _ => cases fault <;> cases failed <;> rfl

private theorem trim_passes {α : Type} {w : Tip} {s : StoreAt α} {n : Nat} {text : String} :
    (∀ x ∈ trimSteps w s n text, x.Passes io) ↔ (s.file w.disk).short n = false ∧ io (.trim s.store) = none := by
  rw [trimSteps, List.forall_mem_append, passes_check]
  simp [diskStep, Step.Passes]

private theorem grow_passes {α : Type} {s : StoreAt α} {new : List α} {text : String} :
    (∀ x ∈ growSteps s new text, x.Passes io) ↔ (new ≠ [] → io (.append s.store) = none) := by
  unfold growSteps
  cases new <;> simp [diskStep, Step.Passes]

private theorem room_of_stop (stopped : Step.run io (growthSteps t g) t = .error e u) (room : Room u) : Room t := by
  have cut {α : Type} (f : SlotFile α) (n : Nat) : (f.cut n).short n = f.short n := by
    simp [SlotFile.short, SlotFile.cut, List.length_take]
  rcases Step.run_append_error.mp stopped with records | ⟨recordsPassed, stopped⟩
  · cases trim_error records
    exact room
  rcases Step.run_append_error.mp stopped with derived | ⟨derivedPassed, stopped⟩
  · cases trim_error derived
    rw [after_trim] at room
    exact ⟨by rw [← cut]; exact room.records, room.derived, room.active⟩
  rcases Step.run_append_error.mp stopped with active | ⟨activePassed, -⟩
  · cases trim_error active
    rw [after_trim, after_trim] at room
    exact ⟨by rw [← cut]; exact room.records, by rw [← cut]; exact room.derived, room.active⟩
  · exact ⟨(trim_passes.mp recordsPassed).1, (trim_passes.mp derivedPassed).1, (trim_passes.mp activePassed).1⟩

private theorem settled_congr (alike : Tip.Alike (t.aged batch) (u.aged batch)) (index : u.disk.index = t.disk.index)
    (tipMeta : u.tipMeta = t.tipMeta) : KnownCommitted u batch ↔ KnownCommitted t batch := by
  have knows (item : Append × Int) : u.knows item = t.knows item := by rw [Tip.knows, index, Tip.knows]
  have fresh : u.fresh batch = t.fresh batch := by simp only [Tip.fresh, knows]
  have finds (hash : Hash) : (u.aged batch).Finds hash ↔ (t.aged batch).Finds hash := by
    unfold Tip.Finds
    rw [alike.lookupDurable]
  have stands (item : Append × Int) : (u.aged batch).Stands item ↔ (t.aged batch).Stands item := by
    unfold Tip.Stands
    rw [alike.lookupActive]
  simp only [knownCommitted_iff, knows, finds, stands, fresh, tipMeta]

section Residue
variable (residue : Residue t u)
include residue

private theorem Residue.windows :
    u.recordsWin = t.recordsWin ∧ u.derivedWin = t.derivedWin ∧ u.activeWin = t.activeWin ∧ u.tipMeta = t.tipMeta := by
  rw [residue.frame]
  exact ⟨rfl, rfl, rfl, rfl⟩

private theorem Residue.fresh : u.fresh batch = t.fresh batch := by
  unfold Tip.fresh Tip.knows
  rw [residue.index]

section
variable (wf : t.WellFormed) (room : Room t)
include wf room

/-- The answers with shed caches do not see the residue. -/
theorem Residue.shed (cap n k : Nat) : Tip.Alike (t.shedBy cap n k) (u.shedBy cap n k) := by
  obtain ⟨records, derived, active, tipMeta⟩ := residue.windows
  refine ⟨tipMeta, residue.index, by simp only [shedBy_counts, records], by simp only [shedBy_counts, derived],
    by simp only [shedBy_counts, active], fun slot => ?_, fun slot => ?_, fun rel => ?_⟩
  · simp only [Tip.record?, Tip.shedBy, records]
    refine Window.get_congr (fun i inside => ?_) slot
    rw [Window.count_shed, wf.recordCount] at inside
    exact residue.records.read (headed_long room.records).2 inside
  · simp only [Tip.derived?, Tip.shedBy, derived]
    refine Window.get_congr (fun i inside => ?_) slot
    rw [Window.count_shed, wf.derivedCount] at inside
    exact residue.derived.read (headed_long room.derived).2 inside
  · simp only [Tip.active?, Tip.shedBy, active]
    refine Window.get_congr (fun i inside => ?_) rel
    rw [Window.count_shed, wf.activeCount] at inside
    exact residue.active.read (headed_long room.active).2 inside

private theorem Residue.aged : Tip.Alike (t.aged batch) (u.aged batch) := by
  unfold Tip.aged
  rw [residue.fresh]
  exact residue.shed wf room _ _ _

private theorem Residue.settled : KnownCommitted u batch ↔ KnownCommitted t batch :=
  settled_congr (residue.aged wf room) residue.index residue.windows.2.2.2

end

end Residue

end

/-- The steps before the first index entry go through exactly if none of their points meets a fault. -/
theorem stores_pass (gathers : Gathers t (t.fresh batch) g) (some : t.fresh batch ≠ []) :
    ((∀ x ∈ storeSteps t g, x.Passes io) ∧ io (.put 0) = none) ↔ Room t ∧ ∀ p ∈ t.earlyPoints batch, io p = none := by
  have records : g.content.records ≠ [] := by simpa [Gathered.content, gathers.blocks] using some
  have derived : g.content.derived ≠ [] := by simpa [Gathered.content, gathers.blocks] using some
  have active : g.content.active ≠ [] ↔ actives (t.fresh batch) ≠ [] := by
    rw [← List.length_pos_iff, ← List.length_pos_iff, show g.content.active = g.active from rfl, gathers.length]
  have log : (∀ x ∈ (if t.logDue then logSteps t.invalidEntries "append tip-invalid failed" else []), x.Passes io) ↔
      (t.logDue = true → io (.write .invalid) = none ∧ io (.rename .invalid) = none ∧ io (.sync .invalid) = none) := by
    split
    · next due => simp [logSteps, cowSteps, diskStep, Step.Passes, due]
    · next undue => simp [undue]
  have room : Room t ↔ t.disk.records.short t.tipMeta.tipRecordCount = false ∧
      t.disk.derived.short t.tipMeta.tipRecordCount = false ∧ t.disk.active.short t.tipMeta.activeCount = false :=
    ⟨fun r => ⟨r.records, r.derived, r.active⟩, fun r => ⟨r.1, r.2.1, r.2.2⟩⟩
  have activePoints : (∀ p ∈ (if actives (t.fresh batch) = [] then [] else [Point.append .active]), io p = none) ↔
      (actives (t.fresh batch) ≠ [] → io (.append .active) = none) := by
    split <;> simp [*]
  have logPoints : (∀ p ∈ (if t.logDue then [Point.write .invalid, .rename .invalid, .sync .invalid] else []),
    io p = none) ↔
      (t.logDue = true → io (.write .invalid) = none ∧ io (.rename .invalid) = none ∧ io (.sync .invalid) = none) := by
    split <;> simp [*]
  simp only [storeSteps, growthSteps, List.forall_mem_append, trim_passes, grow_passes, log,
    active, records, derived, room,
    Tip.earlyPoints, activePoints, logPoints, recordsAt, derivedAt, activeAt, List.forall_mem_cons, List.not_mem_nil,
    false_implies, implies_true, and_true, ne_eq, not_false_eq_true, true_implies]
  constructor
  · rintro ⟨⟨⟨⟨r, trimR⟩, ⟨d, trimD⟩, ⟨a, trimA⟩, appendR, appendD, appendA⟩, log⟩, put⟩
    exact ⟨⟨r, d, a⟩, ⟨⟨⟨trimR, trimD, trimA, appendR, appendD⟩, appendA⟩, log⟩, put⟩
  · rintro ⟨⟨r, d, a⟩, ⟨⟨⟨trimR, trimD, trimA, appendR, appendD⟩, appendA⟩, log⟩, put⟩
    exact ⟨⟨⟨⟨r, trimR⟩, ⟨d, trimD⟩, ⟨a, trimA⟩, appendR, appendD, appendA⟩, log⟩, put⟩

private theorem stores_unindexed : Step.Keeps (fun s : Tip => s.disk.index = t.disk.index) (storeSteps t g) :=
  keeps_storeSteps (fun _ _ same held => same.trans held) fun _ _ held => held

omit [Digest] in
private theorem fresh_unknown {item : Append × Int} {rest : List (Append × Int)}
    (first : t.fresh batch = item :: rest) :
    t.disk.index item.1.record.hash = none := by
  have member : item ∈ t.fresh batch := by rw [first]; exact List.mem_cons_self
  simpa [Tip.knows] using (List.mem_filter.mp member).2

section
variable {item : Append × Int} {rest : List (Append × Int)} (gathers : Gathers t (t.fresh batch) g)
    (first : t.fresh batch = item :: rest)
include gathers first

/-- The first index entry of a batch is that of its first new block. -/
theorem enter_first : enterSteps t g = diskStep (.put 0) "append tip-hashindex put failed" (fun d =>
        { d with
          index := Function.update d.index item.1.record.hash (some (t.tipMeta.idOf t.tipMeta.tipRecordCount)) }) ::
      (putSteps t.tipMeta "append tip-hashindex put failed" t.tipMeta.tipRecordCount 1
          (enterRecord (t.tipMeta.idOf t.tipMeta.tipRecordCount) item.1.record t.disk.index) (rest.map (·.1.record)) ++
        (cowSteps .marker "append tip-hashindex marker failed"
          (fun d => { d with marker := some (t.tipMeta.tipRecordCount + g.blocks.length) }) ++
            [.change Tip.withChains])) := by
  have records : g.content.records = item.1.record :: rest.map (·.1.record) := by
    simp [Gathered.content, gathers.blocks, first]
  rw [enterSteps, records, putSteps, fresh_unknown first]
  rfl

omit gathers first in
/-- A batch that stops before its first index entry leaves a residue, if the stores it leaves have room. -/
theorem early_residue (gathers : Gathers t (t.fresh batch) g) (new : t.fresh batch ≠ [])
    (early : ¬((∀ x ∈ storeSteps t g, x.Passes io) ∧ io (.put 0) = none))
    (stopped : Step.run io (commitSteps t g) t = .error e u) : u.disk.index = t.disk.index ∧
    (Room u → Room t ∧ Residue t u) := by
  obtain ⟨item, rest, first⟩ := List.exists_cons_of_ne_nil new
  have entering := enter_first gathers first
  rcases commit_error stopped with filing | ⟨passed, -⟩
  · rcases Step.run_append_error.mp filing with stores | ⟨passed, entered⟩
    · refine ⟨stores_unindexed.error rfl stores, fun room => ?_⟩
      have room : Room t := by
        rcases Step.run_append_error.mp stores with growth | ⟨passed, -⟩
        · exact room_of_stop growth room
        · exact room_of_growth passed
      exact ⟨room, (residue_stores room).error residue_self stores⟩
    · rw [entering, after_stores] at entered
      simp only [Step.run, diskStep] at entered
      have room := room_of_growth (g := g) fun x member => passed x (List.mem_append_left _ member)
      have residue : Residue t (t.stored g) := by
        rw [← after_stores]
        exact (residue_stores room).after residue_self
      split at entered
      · next fine => exact absurd ⟨passed, fine⟩ early
      · next fault _ => cases fault <;> cases entered <;> exact ⟨rfl, fun _ => ⟨room, residue⟩⟩
  · unfold filing at passed
    rw [List.forall_mem_append, entering, List.forall_mem_cons] at passed
    exact absurd ⟨passed.1, passed.2.1⟩ early

/-- Past the first index entry, the first new block stays in the index. -/
theorem late_indexed (passed : ∀ x ∈ storeSteps t g, x.Passes io) (entered : io (.put 0) = none)
    (stopped : Step.run io (commitSteps t g) t = .error e u) :
    u.disk.index item.1.record.hash = some (t.tipMeta.idOf t.tipMeta.tipRecordCount) := by
  have known : enterRecord (t.tipMeta.idOf t.tipMeta.tipRecordCount) item.1.record t.disk.index item.1.record.hash =
      some (t.tipMeta.idOf t.tipMeta.tipRecordCount) := by simp [enterRecord, fresh_unknown first]
  have marker : Step.Keeps
    (fun s : Tip => s.disk.index item.1.record.hash = some (t.tipMeta.idOf t.tipMeta.tipRecordCount))
      (cowSteps .marker "append tip-hashindex marker failed"
        (fun d => { d with marker := some (t.tipMeta.tipRecordCount + g.blocks.length) }) ++
          [.change Tip.withChains]) :=
    (keeps_cow fun _ held => held).append (.change (fun _ held => held) Step.keeps_nil)
  have entering := enter_first gathers first
  rcases commit_error stopped with filing | ⟨-, effect, only, rfl⟩
  · rcases Step.run_append_error.mp filing with stores | ⟨-, stopped⟩
    · cases stores.symm.trans (Step.run_ok.mpr ⟨passed, rfl⟩)
    · rw [entering] at stopped
      simp only [Step.run, diskStep, entered] at stopped
      exact ((keeps_known known).append marker).error (Function.update_self _ _ _) stopped
  · have indexed : (t.filed g).disk.index item.1.record.hash = some (t.tipMeta.idOf t.tipMeta.tipRecordCount) := by
      rw [← after_filing, filing, Step.after_append, entering]
      exact ((keeps_known known).append marker).after (Function.update_self _ _ _)
    obtain ⟨head, written⟩ := only (t.filed g).disk
    change (effect (t.filed g).disk).index _ = _
    rw [written]
    exact indexed

end

end Stops

/-! ## The retry -/

section Retry
variable [Digest]

/-- A block the index has at the first uncommitted slot is not found after an append: the slot is
either not committed or holds another block. -/
theorem residue_lost {item : Append × Int} (wf : t.WellFormed)
    (indexed : t.disk.index item.1.record.hash = some (t.tipMeta.idOf t.tipMeta.tipRecordCount))
    (ok : appendBatch io blocks heights t = .ok () t₂) : ¬t₂.Finds item.1.record.hash := by
  rintro ⟨read, found⟩
  obtain ⟨id, slot, indexed', slotted, inside, -, record, -, hash, -⟩ := Tip.lookupDurable_ok.mp found
  obtain ⟨-, appended⟩ := appendBatch_ok ok
  cases appended with
  | nothing known same =>
    subst same
    rw [indexed] at indexed'
    cases indexed'
    rw [slotOf_idOf] at slotted
    cases slotted
    exact absurd inside (by rw [wf.recordCount]; omega)
  | published g gathers new valid passed is =>
    subst is
    have pub : Publishes io t (blocks.zip heights) g := ⟨wf, gathers, passed⟩
    rw [Publishes.index_known indexed] at indexed'
    cases indexed'
    change t.tipMeta.slotOf _ = some slot at slotted
    rw [slotOf_idOf] at slotted
    cases slotted
    have known : t.knows item = true := by rw [Tip.knows, indexed]; rfl
    have old := pub.slot_old known record hash
    omega

/-- The retry of a batch that stopped: it is committed exactly if the first attempt met a fault
before its first index entry and the blocks known before it are committed. -/
theorem batch_retry (wf : t.WellFormed) (failed : appendBatch io₁ blocks heights t = .error e t₁)
    (retried : appendBatch io₂ blocks heights t₁ = .ok () t₂) : Committed t₂ (blocks.zip heights) ↔
      (∃ p ∈ t.earlyPoints (blocks.zip heights), io₁ p ≠ none) ∧ KnownCommitted t (blocks.zip heights) := by
  rcases appendBatch_error failed with ⟨rfl, always⟩ | ⟨g, gathers, new, stopped⟩
  · rw [always io₂] at retried
    cases retried
  obtain ⟨wf₁, sameMeta⟩ := commit_error_steady wf stopped
  by_cases early : (∀ x ∈ storeSteps t g, x.Passes io₁) ∧ io₁ (.put 0) = none
  · -- the first new block is in the index and in no store
    have passing := ((stores_pass gathers new).mp early).2
    obtain ⟨item, rest, first⟩ := List.exists_cons_of_ne_nil new
    have indexed := late_indexed gathers first early.1 early.2 stopped
    rw [← sameMeta] at indexed
    have lost := residue_lost wf₁ indexed retried
    have member : item ∈ blocks.zip heights :=
      (List.mem_filter.mp (by rw [← Tip.fresh, first]; exact List.mem_cons_self)).1
    constructor
    · intro committed
      exact absurd (committed.found item member) lost
    · rintro ⟨⟨p, point, fault⟩, -⟩
      exact absurd (passing p point) fault
  · -- nothing but the stores has changed
    obtain ⟨sameIndex, residue⟩ := early_residue gathers new early stopped
    obtain ⟨-, appended⟩ := appendBatch_ok retried
    cases appended with
    | nothing known same =>
      unfold Tip.fresh Tip.knows at known
      rw [sameIndex] at known
      exact absurd known new
    | published g' gathers' new' valid passed is =>
      subst is
      obtain ⟨room, residue⟩ := residue (room_of_commit passed)
      have fault : ∃ p ∈ t.earlyPoints (blocks.zip heights), io₁ p ≠ none := by
        by_contra none
        push Not at none
        exact early ((stores_pass gathers new).mpr ⟨room, none⟩)
      have pub : Publishes io₂ t₁ (blocks.zip heights) g' := ⟨wf₁, gathers', passed⟩
      rw [pub.committed_iff, residue.settled wf room]
      exact ⟨fun settled => ⟨fault, settled⟩, fun both => both.2⟩

end Retry

/-! ## Batches and buffered windows -/

/-- The calls that publish appends. -/
inductive Publication where
  | batch (blocks : List Append) (activeHeights : List Int)
  /-- What `Append` has buffered. -/
  | buffered

def Publication.run [Digest] (io : Point → Option Fault) : Publication → TipM Unit
  | .batch blocks activeHeights => appendBatch io blocks activeHeights
  | .buffered => flushPendingAppends io

def Publication.items (t : Tip) : Publication → List (Append × Int)
  | .batch blocks activeHeights => blocks.zip activeHeights
  | .buffered => t.pend

section Publication
variable [Digest] {io₁ io₂ : Point → Option Fault} {t t₁ t₂ : Tip} {status : Status} {error : String}

/-- A failed publication that is retried and then returns OK has committed its blocks exactly if
it met its fault before its first entry of the side index, and the blocks the index knew before
were committed where they belong. -/
theorem retry_commits_iff (call : Publication) (wf : t.WellFormed)
    (failed : call.run io₁ t = .error (.failed status error) t₁)
    (retried : call.run io₂ t₁ = .ok () t₂) :
    Committed t₂ (call.items t) ↔ (∃ p ∈ t.earlyPoints (call.items t), io₁ p ≠ none) ∧
      KnownCommitted t (call.items t) := by
  cases call with
  | batch blocks heights => exact batch_retry wf failed retried
  | buffered =>
    obtain ⟨pending, v, first, emptied, rfl⟩ := flush_error failed
    rcases flush_ok retried with ⟨none, -⟩ | ⟨-, second⟩
    · exact absurd none pending
    have same : ({ ({ v with pend := t.pend } : Tip) with pend := [] } : Tip) = v := by rw [← emptied]
    rw [same] at second
    have zipped : (t.pend.map (·.1)).zip (t.pend.map (·.2)) = t.pend := (List.zip_of_prod rfl rfl).symm
    have retry := batch_retry (t := { t with pend := [] }) { wf with } first second
    rw [zipped] at retry
    exact retry.trans (and_congr Iff.rfl (settled_congr (shedBy_pend []) rfl rfl))

end Publication

/-- A fault when the marker of the side index is written. -/
def markerFault : Point → Option Fault := fun p => if p = .write .marker then some (.fails 0 false) else none

/-- A fault when the records are appended, after part of them was written. -/
def recordsFault : Point → Option Fault := fun p => if p = .append .records then some (.fails 0 true) else none

theorem recordsFault_retried :
    ∃ t₁ t₂ error, (@Publication.run sha256Digest recordsFault (.batch [plainBlock 2 1 11] [11])) freshTip =
      .error (.failed .ioError error) t₁ ∧
    (@Publication.run sha256Digest quiet (.batch [plainBlock 2 1 11] [11])) t₁ = .ok () t₂ ∧
    Committed t₂ [(plainBlock 2 1 11, 11)] := by
  let := sha256Digest
  have failed := run_of_stopped (x := Publication.run recordsFault (.batch [plainBlock 2 1 11] [11])) (s := freshTip)
    (e := .failed .ioError "append tip records/derived/active + count failed") (by decide +kernel)
  have retried := run_of_succeeds (x := Publication.run quiet (.batch [plainBlock 2 1 11] [11]))
    (s := endState (Publication.run recordsFault (.batch [plainBlock 2 1 11] [11])) freshTip) (by decide +kernel)
  refine ⟨_, _, _, failed, retried,
    (retry_commits_iff _ (createTip_wellFormed 1 0 10 (shortHash 1)) failed retried).mpr ⟨?_, ?_⟩⟩
  · exact ⟨.append .records, by decide +kernel, by decide⟩
  · exact settled_of_fresh (by decide +kernel)

theorem lost_after_retry :
    ∃ t₁ t₂ error, (@Publication.run sha256Digest markerFault (.batch [plainBlock 2 1 11] [11])) freshTip =
      .error (.failed .ioError error) t₁ ∧
    (@Publication.run sha256Digest quiet (.batch [plainBlock 2 1 11] [11])) t₁ = .ok () t₂ ∧
    t₂.lookupByHash (shortHash 2) = .error .notFound ∧ t₂.tipHeight = 10 := by
  let := sha256Digest
  have failed := run_of_stopped (x := Publication.run markerFault (.batch [plainBlock 2 1 11] [11])) (s := freshTip)
    (e := .failed .ioError "append tip-hashindex marker failed") (by decide +kernel)
  have retried := run_of_succeeds (x := Publication.run quiet (.batch [plainBlock 2 1 11] [11]))
    (s := endState (Publication.run markerFault (.batch [plainBlock 2 1 11] [11])) freshTip) (by decide +kernel)
  exact ⟨_, _, _, failed, retried, by decide +kernel, by decide +kernel⟩

end Innova.BlockIndex
