import Innova.Store3A.BTree
import Mathlib.Data.List.Perm.Subperm

/-! What the tree programs do to the page file. Every program only writes pages
that were free when it started (`Grows`), and a copy-on-write update replaces a
subtree by one or two subtrees whose pages are old ones it kept or fresh ones
(`Reworked`). The update of the entries is the one of a sorted list. -/
namespace Innova.Store3A
open Lib Lib.PagedTree Chainstate

namespace BTree

/-- Pages the next appends may write. -/
def Free (t : BTree) (id : PageId) : Prop := id ∈ t.freeList ∨ t.nextId ≤ id

/-- The allocator is sound: no page is offered twice, and the file cannot reach
the page count at which a 32-bit page id wraps. -/
structure Alloc (t : BTree) : Prop where
  nodup : t.freeList.Nodup
  bound : ∀ id ∈ t.freeList, id < t.nextId
  reach : t.nextId.toNat ≤ t.fileLimit
  small : t.fileLimit < 2 ^ 32

/-- No node is served from the batch overlay. -/
def Plain (t : BTree) : Prop := ∀ id, t.overlayNode id = none

/-- What page appends and retirements may change. -/
structure Grows (t t' : BTree) : Prop where
  alloc : Alloc t'
  free : ∀ id, Free t' id → Free t id
  pages : ∀ id, ¬Free t id → t'.pages id = t.pages id
  fileLimit : t'.fileLimit = t.fileLimit
  writes : ∃ fresh, t'.writes = fresh ++ t.writes ∧ ∀ id ∈ fresh, Free t id

/-- The same page file with the same free pages: only the root, the overlay or the
retired pages may differ. -/
structure SameFile (t t' : BTree) : Prop where
  pages : t'.pages = t.pages
  nextId : t'.nextId = t.nextId
  freeList : t'.freeList = t.freeList
  fileLimit : t'.fileLimit = t.fileLimit
  writes : t'.writes = t.writes

variable {t t' : BTree}

theorem SameFile.free (same : SameFile t t') (id : PageId) : Free t' id ↔ Free t id := by
  rw [Free, Free, same.freeList, same.nextId]

theorem SameFile.alloc (same : SameFile t t') (alloc : Alloc t) : Alloc t' := by
  constructor
  · rw [same.freeList]; exact alloc.nodup
  · rw [same.freeList, same.nextId]; exact alloc.bound
  · rw [same.nextId, same.fileLimit]; exact alloc.reach
  · rw [same.fileLimit]; exact alloc.small

theorem Grows.refl (alloc : Alloc t) : Grows t t := ⟨alloc, fun _ h => h, fun _ _ => rfl, rfl, [], rfl, by simp⟩

theorem Grows.trans (first : Grows t t') (second : Grows t' t'') : Grows t t'' where
  alloc := second.alloc
  free id := first.free id ∘ second.free id
  pages id live := by rw [second.pages id (fun h => live (first.free id h)), first.pages id live]
  fileLimit := second.fileLimit.trans first.fileLimit
  writes := by
    obtain ⟨early, one, allEarly⟩ := first.writes
    obtain ⟨late, two, allLate⟩ := second.writes
    refine ⟨late ++ early, by rw [two, one, List.append_assoc], fun id member => ?_⟩
    rcases List.mem_append.mp member with new | old
    · exact first.free id (allLate id new)
    · exact allEarly id old

theorem Grows.sameFile (grows : Grows t t') (same : SameFile t' t'') : Grows t t'' where
  alloc := same.alloc grows.alloc
  free id free := grows.free id ((same.free id).mp free)
  pages id live := by rw [same.pages, grows.pages id live]
  fileLimit := same.fileLimit.trans grows.fileLimit
  writes := same.writes ▸ grows.writes

theorem not_free_lt {id : PageId} (live : ¬Free t id) : id < t.nextId :=
  UInt32.not_le.mp fun past => live (.inr past)

private theorem readPage_live {id : PageId} (live : ¬Free t id) : t.readPage id = .ok (t.pages id) := by
  rw [readPage, if_neg (UInt32.not_le.mpr (not_free_lt live))]

section Reads
variable [Digest] {r : PageRef}

/-- The authenticated page file, without the batch overlay. -/
def disk (t : BTree) (r : PageRef) : Option Node := (t.readAuthentic r "").toOption

/-- What a traversal sees at a reference. -/
def rd (t : BTree) (r : PageRef) : Option Node := (t.readNodeVerified r).toOption

theorem readAuthentic_eq_ok : t.readAuthentic r msg = .ok n ↔ t.disk r = some n := by
  simp only [disk, readAuthentic, bind, Except.bind]
  cases t.readPage r.id with
  | error e => simp [Except.toOption]
  | ok buf =>
    simp only
    cases decodeNode buf with
    | error e => simp [Except.toOption]
    | ok n =>
      simp only
      split <;> simp [Except.toOption, pure, Except.pure, throw, throwThe, MonadExceptOf.throw]

theorem rd_eq_some : t.rd r = some n ↔ t.readNodeVerified r = .ok n := by
  rw [rd]
  cases t.readNodeVerified r <;> simp [Except.toOption]

theorem rd_of_plain (plain : Plain t) : t.rd = t.disk := by
  funext r
  refine Option.ext fun n => ?_
  rw [rd_eq_some, readNodeVerified, plain r.id, readAuthentic_eq_ok]

theorem SameFile.disk (same : SameFile t t') : t'.disk = t.disk := by
  funext r
  rw [BTree.disk, BTree.disk, readAuthentic, readAuthentic, readPage, readPage, same.pages, same.nextId]

theorem Grows.disk (grows : Grows t t') (live : ¬Free t r.id) : t'.disk r = t.disk r := by
  rw [BTree.disk, BTree.disk, readAuthentic, readAuthentic, readPage_live live,
    readPage_live fun free => live (grows.free _ free), grows.pages _ live]

theorem disk_of_decoded (live : ¬Free t r.id) (decoded : decodeNode (t.pages r.id) = .ok n)
    (hash : nodeHash n = r.hash) :
    t.disk r = some n := by
  have read : t.readAuthentic r "" = .ok n := by
    simp [readAuthentic, readPage_live live, decoded, hash, bind, Except.bind, pure, Except.pure]
  exact readAuthentic_eq_ok.mp read

/-- A node written to a page is what a later authenticated read returns. -/
theorem disk_written {id : PageId} (live : ¬Free t id) (shaped : Shaped n)
    (encoded : encodeNode n = some (t.pages id)) : t.disk ⟨id, nodeHash n⟩ = some n :=
  disk_of_decoded (r := ⟨id, nodeHash n⟩) live (decode_encode shaped encoded) rfl

end Reads

/-! ## Appending pages -/

theorem writePage_cases (t : BTree) (id : PageId) (buf : Bytes) (msg : String) : Ends (writePage id buf msg) t
      (fun _ t' => id.toNat < t.fileLimit ∧
        ∃ rest, t' = { t with pages := Function.update t.pages id buf, faults := rest, writes := id :: t.writes })
      (fun e t' => e.code = .io ∧ (t' = t ∨ ∃ junk rest,
        t' = { t with pages := Function.update t.pages id junk, faults := rest, writes := id :: t.writes })) := by
  unfold writePage Ends
  by_cases full : t.fileLimit ≤ id.toNat
  · simp only [full, if_true, true_or, and_self]
  · simp only [full, if_false]
    split
    next ran =>
      split at ran
      · cases ran
      · cases ran; exact ⟨by omega, _, rfl⟩
    next ran =>
      split at ran
      · cases ran; exact ⟨rfl, .inr ⟨_, _, rfl⟩⟩
      · cases ran

/-- Whatever a write leaves in a page that was free, nothing else has changed. -/
theorem Grows.write (grows : Grows t t') {id : PageId} (free : Free t id) (raw : Bytes) (rest : List (Option Bytes)) :
    Grows t { t' with pages := Function.update t'.pages id raw, faults := rest, writes := id :: t'.writes } where
  alloc := ⟨grows.alloc.nodup, grows.alloc.bound, grows.alloc.reach, grows.alloc.small⟩
  free := grows.free
  pages j live := by
    show Function.update t'.pages id raw j = t.pages j
    rw [Function.update_of_ne (by rintro rfl; exact live free), grows.pages j live]
  fileLimit := grows.fileLimit
  writes := by
    obtain ⟨fresh, written, all⟩ := grows.writes
    exact ⟨id :: fresh, congrArg (id :: ·) written, by simpa [free] using all⟩

/-- A page taken from the free pages of `t` and in use from `t'` on. -/
def Fresh (t t' : BTree) (id : PageId) : Prop := Free t id ∧ ¬Free t' id

private theorem Grows.pop (alloc : Alloc t) {id : PageId} (list : t.freeList = id :: rest) :
    Grows t { t with freeList := rest } ∧ Fresh t { t with freeList := rest } id := by
  have nodup := alloc.nodup
  have bound := alloc.bound
  rw [list] at nodup bound
  obtain ⟨first, others⟩ := List.nodup_cons.mp nodup
  refine ⟨⟨⟨others, fun j member => bound j (by simp [member]), alloc.reach, alloc.small⟩,
    fun j free => free.imp_left fun member => by simp [list, member], fun _ _ => rfl, rfl, [], rfl, by simp⟩,
    .inl (by simp [list]), ?_⟩
  rintro (again | past)
  · exact first again
  · exact absurd (bound id (by simp)) (UInt32.not_lt.mpr past)

/-- Growing the file by the page at its end. -/
theorem Grows.extend (alloc : Alloc t) (list : t.freeList = []) (room : t.nextId.toNat < t.fileLimit) :
    Grows t { t with nextId := t.nextId + 1 } ∧ Fresh t { t with nextId := t.nextId + 1 } t.nextId := by
  have small := alloc.small
  have next : (t.nextId + 1).toNat = t.nextId.toNat + 1 := by
    exact Nat.mod_eq_of_lt (by simp; omega)
  have above : t.nextId < t.nextId + 1 := UInt32.lt_iff_toNat_lt.mpr (by omega)
  refine ⟨⟨⟨by simp [list], by simp [list], by simp only [next]; omega, alloc.small⟩, fun j free => ?_, fun _ _ => rfl,
    rfl, [], rfl, by simp⟩, .inr (UInt32.le_refl _), ?_⟩
  · exact free.imp_right fun past => UInt32.le_trans (UInt32.le_of_lt above) past
  · rintro (again | past)
    · simp [list] at again
    · exact absurd above (UInt32.not_lt.mpr past)

private theorem appendPage_spec (alloc : Alloc t) (buf : Bytes) : Ends (appendPage buf) t
      (fun id t' => Grows t t' ∧ Fresh t t' id ∧ t'.pages id = buf ∧ t'.commitRetired = t.commitRetired)
      (fun e t' => e.code = .io ∧ Grows t t' ∧ t'.commitRetired = t.commitRetired) := by
  refine Ends.get ?_
  cases list : t.freeList with
  | cons id rest =>
    obtain ⟨pop, fresh⟩ := Grows.pop alloc list
    refine Ends.bind (ends_set.mpr ((writePage_cases _ id buf _).seqMono ?_ ?_))
    · rintro _ _ ⟨-, faults, rfl⟩
      exact ends_pure.mpr ⟨pop.write fresh.1 buf faults, fresh, Function.update_self .., rfl⟩
    · rintro _ _ ⟨io, rfl | ⟨junk, faults, rfl⟩⟩
      · exact ⟨io, pop, rfl⟩
      · exact ⟨io, pop.write fresh.1 junk faults, rfl⟩
  | nil =>
    refine (writePage_cases _ t.nextId buf _).seqMono ?_ ?_
    · rintro _ _ ⟨room, faults, rfl⟩
      obtain ⟨extend, fresh⟩ := Grows.extend alloc list room
      exact ends_modifyGet.mpr ⟨extend.write fresh.1 buf faults, fresh, Function.update_self .., rfl⟩
    · rintro _ _ ⟨io, rfl | ⟨junk, faults, rfl⟩⟩
      · exact ⟨io, .refl alloc, rfl⟩
      · exact ⟨io, (Grows.refl alloc).write (.inr (UInt32.le_refl _)) junk faults, rfl⟩

/-! ## Copy-on-write rewrites -/

def ids (refs : List PageRef) : List PageId := refs.map PageRef.id

@[simp] theorem ids_nil : ids [] = [] := rfl
@[simp] theorem ids_cons (r : PageRef) (refs : List PageRef) : ids (r :: refs) = r.id :: ids refs := rfl
@[simp] theorem ids_append (one two : List PageRef) : ids (one ++ two) = ids one ++ ids two := List.map_append

theorem mem_ids (member : r ∈ refs) : r.id ∈ ids refs := List.mem_map_of_mem member

/-- The separators and references by which a rewritten subtree enters its parent. -/
def Split.seps (split : Split) : List Key := (split.map Prod.fst).toList
def Split.refs (split : Split) (left : PageRef) : List PageRef := left :: (split.map Prod.snd).toList

@[simp] theorem Split.seps_none : Split.seps none = [] := rfl
@[simp] theorem Split.seps_some (s : Key × PageRef) : Split.seps (some s) = [s.1] := rfl
@[simp] theorem Split.refs_none (r : PageRef) : Split.refs none r = [r] := rfl
@[simp] theorem Split.refs_some (r : PageRef) (s : Key × PageRef) : Split.refs (some s) r = [r, s.2] := rfl

theorem Grows.retire (grows : Grows t t') (list : List PageId) : Grows t { t' with commitRetired := list } :=
  grows.sameFile ⟨rfl, rfl, rfl, rfl, rfl⟩

theorem Fresh.later {id : PageId} (fresh : Fresh t t' id) (grows : Grows t' t'') : Fresh t t'' id :=
  ⟨fresh.1, fun free => fresh.2 (grows.free id free)⟩

theorem Fresh.earlier {id : PageId} (grows : Grows t t') (fresh : Fresh t' t'' id) : Fresh t t'' id :=
  ⟨grows.free id fresh.1, fresh.2⟩

theorem Fresh.not_mem {id : PageId} (fresh : Fresh t t' id) (live : ∀ s ∈ refs, ¬Free t s.id) : id ∉ ids refs := by
  intro member
  obtain ⟨s, inside, rfl⟩ := List.mem_map.mp member
  exact live s inside fresh.1

/-- How a program that rewrote a node left the tree when it gave up. -/
def Stopped (t : BTree) (old : List PageRef) (t' : BTree) : Prop :=
  Grows t t' ∧ ∃ ret, t'.commitRetired = t.commitRetired ++ ret ∧ ∀ id ∈ ret, id ∈ ids old

private theorem stopped_of_retired (member : old ∈ base) (grows : Grows t t')
    (retired : t'.commitRetired = t.commitRetired ++ [old.id]) : Stopped t base t' :=
  ⟨grows, [old.id], retired, by simpa using mem_ids member⟩

private theorem stopped_refl (alloc : Alloc t) (base : List PageRef) : Stopped t base t :=
  ⟨.refl alloc, [], by simp, by simp⟩

theorem encodeNode_of_fits (fits : nodeSize n ≤ pageSize) : encodeNode n = some ((encodeNode n).getD []) := by
  rw [encodeNode, if_neg (by omega)]
  rfl

/-- Both halves of a cut leaf keep to the ranges its first right key leaves them. -/
theorem leaf_halves {first least : Entry} (sorted : Entries.Sorted (left ++ first :: right))
    (within : ∀ e ∈ left ++ first :: right, lo ≤ (e.1 : WithBot Key) ∧ (e.1 : WithTop Key) < hi)
    (inLeft : least ∈ left) :
    Entries.Sorted left ∧ Entries.Sorted (first :: right) ∧ lo < (first.1 : WithBot Key) ∧
      (first.1 : WithTop Key) < hi ∧
      (∀ e ∈ left, lo ≤ (e.1 : WithBot Key) ∧ (e.1 : WithTop Key) < (first.1 : WithTop Key)) ∧
      ∀ e ∈ first :: right, (first.1 : WithBot Key) ≤ (e.1 : WithBot Key) ∧ (e.1 : WithTop Key) < hi := by
  obtain ⟨sortedLeft, sortedRight, across⟩ := Entries.sorted_append.mp sorted
  have inRight : first ∈ first :: right := List.mem_cons_self
  refine ⟨sortedLeft, sortedRight, ?_, (within first (List.mem_append_right _ inRight)).2, fun e member => ?_,
    fun e member => ⟨WithBot.coe_le_coe.mpr ?_, (within e (List.mem_append_right _ member)).2⟩⟩
  · exact (within least (List.mem_append_left _ inLeft)).1.trans_lt
      (WithBot.coe_lt_coe.mpr (across least inLeft first inRight))
  · exact ⟨(within e (List.mem_append_left _ member)).1, WithTop.coe_lt_coe.mpr (across e member first inRight)⟩
  · rcases List.mem_cons.mp member with rfl | later
    · exact le_rfl
    · exact ((Entries.sorted_cons.mp sortedRight).1 e later).le

/-- A subtree over the pages `old` became one over the pages `new`; the pages `ret` went out of use. -/
structure Reworked (t : BTree) (old : List PageRef) (t' : BTree) (new : List PageRef) (ret : List PageId) : Prop where
  grows : Grows t t'
  retired : t'.commitRetired = t.commitRetired ++ ret
  fromOld : ∀ id ∈ ret, id ∈ ids old
  kept : ∀ s ∈ new, s ∈ old ∧ s.id ∉ ret ∨ Fresh t t' s.id
  nodup : (ids new).Nodup

/-- Replacing one child's extent inside its parent's pages. -/
theorem Reworked.within (inner : Reworked t old t' new ret) (live : ∀ s ∈ left ++ (old ++ right), ¬Free t s.id)
    (nodup : (ids (left ++ (old ++ right))).Nodup) :
    Reworked t (left ++ (old ++ right)) t' (left ++ (new ++ right)) ret := by
  simp only [ids_append, List.nodup_append, List.mem_append] at nodup
  obtain ⟨nodupLeft, ⟨-, nodupRight, apartRight⟩, apartLeft⟩ := nodup
  have fresh {s : PageRef} (member : s ∈ left ++ (old ++ right)) {id : PageId} (new : Fresh t t' id) : s.id ≠ id :=
    fun same => live s member (same ▸ new.1)
  refine ⟨inner.grows, inner.retired, fun id member => ?_, fun s member => ?_, ?_⟩
  · simp [inner.fromOld id member]
  · rcases List.mem_append.mp member with before | rest
    · exact .inl ⟨by simp [before], fun gone => apartLeft _ (mem_ids before) _ (.inl (inner.fromOld _ gone)) rfl⟩
    rcases List.mem_append.mp rest with inside | behind
    · exact (inner.kept s inside).imp_left fun ⟨still, alive⟩ => ⟨by simp [still], alive⟩
    · exact .inl ⟨by simp [behind], fun gone => apartRight _ (inner.fromOld _ gone) _ (mem_ids behind) rfl⟩
  · simp only [ids_append, List.nodup_append, List.mem_append]
    refine ⟨nodupLeft, ⟨inner.nodup, nodupRight, fun a inNew b inRight => ?_⟩, fun a inLeft b inRest => ?_⟩
    · obtain ⟨s, inside, rfl⟩ := List.mem_map.mp inNew
      obtain ⟨u, behind, rfl⟩ := List.mem_map.mp inRight
      rcases inner.kept s inside with ⟨still, -⟩ | new
      · exact apartRight _ (mem_ids still) _ inRight
      · exact (fresh (by simp [behind]) new).symm
    · obtain ⟨s, before, rfl⟩ := List.mem_map.mp inLeft
      rcases inRest with inNew | inRight
      · obtain ⟨u, inside, rfl⟩ := List.mem_map.mp inNew
        rcases inner.kept u inside with ⟨still, -⟩ | new
        · exact apartLeft _ inLeft _ (.inl (mem_ids still))
        · exact fresh (by simp [before]) new
      · exact apartLeft _ inLeft _ (.inr inRight)

theorem editEntries_sorted (sorted : Entries.Sorted entries) (k : Key) (val : Option Bytes) :
    Entries.Sorted (editEntries k val entries) := by
  cases val with
  | some v => exact Entries.insert_sorted sorted k v
  | none => exact Entries.erase_sorted sorted k

theorem mem_editEntries (member : e ∈ editEntries k val entries) : e.1 = k ∨ e ∈ entries := by
  cases val with
  | some v => exact (Entries.mem_insert member).imp_left (by rintro rfl; rfl)
  | none => exact .inr (Entries.mem_erase member)

theorem editEntries_local (k : Key) (val : Option Bytes) : Local k (editEntries k val) := by
  cases val with
  | some v => exact insert_local k v
  | none => exact erase_local k

private theorem Stopped.after (inner : Reworked t old t' mid ret) (outer : Stopped t' [r] t'') :
    Stopped t (r :: old) t'' := by
  obtain ⟨grows, more, retired, fromRoot⟩ := outer
  refine ⟨inner.grows.trans grows, ret ++ more, by rw [retired, inner.retired, List.append_assoc], fun id member => ?_⟩
  rcases List.mem_append.mp member with early | last
  · exact List.mem_cons_of_mem _ (inner.fromOld id early)
  · have := fromRoot id last
    simp only [ids_cons, ids_nil, List.mem_singleton] at this
    simp [this]

theorem Stopped.mono (stopped : Stopped t old t') (sub : ∀ s ∈ old, s ∈ more) : Stopped t more t' := by
  obtain ⟨grows, ret, retired, fromOld⟩ := stopped
  refine ⟨grows, ret, retired, fun id member => ?_⟩
  obtain ⟨s, inside, rfl⟩ := List.mem_map.mp (fromOld id member)
  exact mem_ids (sub s inside)

private theorem spliceChildren_at (place : rl.length = ci) (split : Split) :
    spliceChildren (rl ++ c :: rr) ci nc split = rl ++ split.refs nc ++ rr := by
  subst place
  simp [spliceChildren, Split.refs]

private theorem spliceKeys_at (place : kl.length = ci) (split : Split) :
    spliceKeys (kl ++ kr) ci split = kl ++ split.seps ++ kr := by
  subst place
  simp [spliceKeys, Split.seps]

private theorem childAt_at (place : rl.length = ci) : childAt (rl ++ c :: rr) ci = c := by
  subst place
  simp [childAt]

theorem childAt_of_getElem? (child : rs[i]? = some c) : childAt rs i = c := by
  rw [childAt, List.getD_eq_getElem?_getD, child]
  rfl

section Rewrites
variable [Digest] {lo : WithBot Key} {hi : WithTop Key} {d : Nat}

/-- One page `old` was rewritten, over children that stay: the result is one or
two subtrees with the given entries, made of pages of `base` and fresh pages. -/
structure Rewritten (t : BTree) (d : Nat) (lo : WithBot Key) (hi : WithTop Key) (entries : List Entry)
    (base : List PageRef) (old : PageId) (out : PageRef × Split) (t' : BTree)
    (ys : List (Extent Key Bytes PageRef)) : Prop where
  chain : Chain (Holds t'.disk d) lo hi out.2.seps (out.2.refs out.1) ys
  entries : (Extent.join ys).entries = entries
  grows : Grows t t'
  retired : t'.commitRetired = t.commitRetired ++ [old]
  pages : ∀ s ∈ (Extent.join ys).refs, s ∈ base ∨ Fresh t t' s.id
  nodup : (ids (Extent.join ys).refs).Nodup

theorem appendNode_spec (alloc : Alloc t) (n : Node) (shaped : Shaped n) (encoded : encodeNode n = some buf) :
    Ends (appendPage buf) t
      (fun id t' => Grows t t' ∧ Fresh t t' id ∧ t'.disk ⟨id, nodeHash n⟩ = some n ∧ t'.commitRetired = t.commitRetired)
      (fun e t' => e.code = .io ∧ Grows t t' ∧ t'.commitRetired = t.commitRetired) := by
  refine (appendPage_spec alloc buf).imp ?_
  rintro id t' ⟨grows, fresh, page, retired⟩
  exact ⟨grows, fresh, disk_written fresh.2 shaped (page ▸ encoded), retired⟩

section Appends
variable (alloc : Alloc t) (one two : Node) {lb rb : Bytes} (shapedOne : Shaped one) (shapedTwo : Shaped two)
  (encodedOne : encodeNode one = some lb) (encodedTwo : encodeNode two = some rb) (old : PageRef) {α : Type}
include alloc shapedOne encodedOne

/-- A node written in place of another. -/
theorem ends_appendOne {next : PageId → TreeM α}
    (written : ∀ id t', Grows t t' → t'.commitRetired = t.commitRetired ++ [old.id] → Fresh t t' id →
      t'.disk ⟨id, nodeHash one⟩ = some one → Ends (next id) t' Q E)
    (failed : ∀ e t', e.code = .io → Stopped t [old] t' → E e t') :
    Ends (do retire old.id; let id ← appendPage lb; next id) t Q E := by
  have start := (Grows.refl alloc).retire (t.commitRetired ++ [old.id])
  refine (appendNode_spec start.alloc one shapedOne encodedOne).seqMono ?_ ?_
  · rintro id t' ⟨grows, fresh, read, retired⟩
    exact written id t' (start.trans grows) retired (fresh.earlier start) read
  · rintro e t' ⟨io, grows, retired⟩
    exact failed e t' io (stopped_of_retired (by simp) (start.trans grows) retired)

include shapedTwo encodedTwo in
/-- Two nodes written one after the other, the way both splits do it. -/
theorem appendTwo_spec (result : PageId → PageId → α) :
    Ends (do retire old.id; let lid ← appendPage lb; let rid ← appendPage rb; return result lid rid) t
      (fun out t' => Grows t t' ∧ t'.commitRetired = t.commitRetired ++ [old.id] ∧ ∃ lid rid, out = result lid rid ∧
        Fresh t t' lid ∧ Fresh t t' rid ∧ lid ≠ rid ∧ t'.disk ⟨lid, nodeHash one⟩ = some one ∧
        t'.disk ⟨rid, nodeHash two⟩ = some two) (fun e t' => e.code = .io ∧ Stopped t [old] t') := by
  refine ends_appendOne alloc one shapedOne encodedOne old ?_ fun _ _ => .intro
  intro lid t1 first retired freshLeft readLeft
  refine (appendNode_spec first.alloc two shapedTwo encodedTwo).seqMono ?_ ?_
  · rintro rid t2 ⟨second, freshRight, readRight, unchanged⟩
    have distinct : lid ≠ rid := by rintro rfl; exact freshLeft.2 freshRight.1
    exact ends_pure.mpr ⟨first.trans second, unchanged.trans retired, lid, rid, rfl, freshLeft.later second,
      freshRight.earlier first, distinct, (second.disk freshLeft.2).trans readLeft, readRight⟩
  · rintro _ t2 ⟨io, second, unchanged⟩
    exact ⟨io, stopped_of_retired (by simp) (first.trans second) (unchanged.trans retired)⟩

end Appends

section
variable (alloc : Alloc t) {entries : List Entry} (sorted : Entries.Sorted entries)
    (within : ∀ e ∈ entries, lo ≤ (e.1 : WithBot Key) ∧ (e.1 : WithTop Key) < hi) (old : PageRef)
include alloc sorted within old

private theorem splitLeaf_spec (large : pageSize < leafSize entries) : Ends (splitLeaf old.id entries) t
      (fun out t' => ∃ ys, Rewritten t 0 lo hi entries [] old.id out t' ys) (fun _ t' => Stopped t [old] t') := by
  have whole := List.take_append_drop (entries.length / 2) entries
  unfold splitLeaf
  cases right : entries.drop (entries.length / 2) with
  | nil => exact ends_throw.mpr (stopped_refl alloc _)
  | cons first rest =>
    rw [right] at whole
    simp only
    cases encodedLeft : encodeNode (.leaf (entries.take (entries.length / 2))) with
    | none => exact ends_throw.mpr (stopped_refl alloc _)
    | some lb =>
      cases encodedRight : encodeNode (.leaf (first :: rest)) with
      | none => exact ends_throw.mpr (stopped_refl alloc _)
      | some rb =>
        -- an empty left half would leave the whole oversized leaf on the right
        obtain ⟨least, inLeft⟩ : ∃ e, e ∈ entries.take (entries.length / 2) := by
          refine List.exists_mem_of_ne_nil _ fun empty => ?_
          rw [empty, List.nil_append] at whole
          rw [whole, encodeNode, if_pos (by simpa [nodeSize] using large)] at encodedRight
          cases encodedRight
        obtain ⟨sortedLeft, sortedRight, above, below, inLeft, inRight⟩ :=
          leaf_halves (whole.symm ▸ sorted) (whole.symm ▸ within) inLeft
        refine (appendTwo_spec alloc (.leaf _) (.leaf _) trivial trivial encodedLeft encodedRight
          old fun lid rid => ((⟨lid, leafHash (entries.take (entries.length / 2))⟩ : PageRef),
            (some (first.1, ⟨rid, leafHash (first :: rest)⟩) : Split))).mono ?_ fun _ _ => And.right
        rintro _ t' ⟨grows, retired, lid, rid, rfl, freshLeft, freshRight, distinct, readLeft, readRight⟩
        exact ⟨[⟨entries.take (entries.length / 2), [_]⟩, ⟨first :: rest, [_]⟩],
          .cons ⟨_, readLeft, sortedLeft, inLeft, rfl⟩ above below (.last ⟨_, readRight, sortedRight, inRight, rfl⟩),
          by simpa using whole, grows, retired, by simp [freshLeft, freshRight], by simpa using distinct⟩

private theorem rewriteLeaf_spec :
    Ends (rewriteLeaf old.id entries) t
      (fun out t' => ∃ ys, Rewritten t 0 lo hi entries [] old.id out t' ys) (fun _ t' => Stopped t [old] t') := by
  unfold rewriteLeaf
  by_cases fits : leafSize entries ≤ pageSize
  · rw [if_pos fits]
    refine ends_appendOne alloc (.leaf entries) trivial (encodeNode_of_fits fits) old ?_ fun _ _ _ => id
    intro id t' grows retired fresh read
    exact ends_pure.mpr
      ⟨[⟨entries, [⟨id, leafHash entries⟩]⟩], .last ⟨entries, read, sorted, within, rfl⟩, by simp, grows, retired,
      by simpa using fresh, by simp⟩
  · rw [if_neg fits]
    exact splitLeaf_spec alloc sorted within old (by omega)

end

/-! ### Internal nodes -/

private theorem splitInternal_spec (alloc : Alloc t) (chain : Chain (Holds t.disk d) lo hi ks rs xs)
    (live : ∀ s ∈ (Extent.join xs).refs, ¬Free t s.id) (nodup : (ids (Extent.join xs).refs).Nodup) (old : PageRef)
    (large : pageSize < internalSize rs ks) : Ends (splitInternal old.id rs ks) t
      (fun out t' => ∃ ys, Rewritten t (d + 1) lo hi (Extent.join xs).entries (Extent.join xs).refs old.id out t' ys)
      (fun _ t' => Stopped t [old] t') := by
  have lengths := chain.length
  have many : 56 < ks.length := by
    unfold internalSize pageSize at large
    omega
  have middle : ks[ks.length / 2]? = some (ks.getD (ks.length / 2) (ByteArr.zero 36)) := by
    rw [List.getD_eq_getElem?_getD, List.getElem?_eq_getElem (by omega)]
    rfl
  obtain ⟨above, below, left, right⟩ := chain.cut middle
  unfold splitInternal
  simp only
  cases encodedLeft : encodeNode (.internal (rs.take (ks.length / 2 + 1)) (ks.take (ks.length / 2))) with
  | none => exact ends_throw.mpr (stopped_refl alloc _)
  | some lb =>
    cases encodedRight : encodeNode (.internal (rs.drop (ks.length / 2 + 1)) (ks.drop (ks.length / 2 + 1))) with
    | none => exact ends_throw.mpr (stopped_refl alloc _)
    | some rb =>
      refine (appendTwo_spec alloc (.internal _ _) (.internal _ _) left.length.1 right.length.1 encodedLeft
        encodedRight old fun lid rid => ((⟨lid, internalHash (rs.take (ks.length / 2 + 1))⟩ : PageRef),
          (some (ks.getD (ks.length / 2) (ByteArr.zero 36), ⟨rid, internalHash (rs.drop (ks.length / 2 + 1))⟩) :
            Split))).mono ?_ fun _ _ => And.right
      rintro _ t' ⟨grows, retired, lid, rid, rfl, freshLeft, freshRight, distinct, readLeft, readRight⟩
      have whole := congrArg Extent.join (List.take_append_drop (ks.length / 2 + 1) xs)
      have refs := (Extent.join_append_refs _ _).symm.trans (congrArg Extent.refs whole)
      have entries := (Extent.join_append_entries _ _).symm.trans (congrArg Extent.entries whole)
      have same : ∀ s ∈ (Extent.join xs).refs, t'.disk s = t.disk s := fun s member => grows.disk (live s member)
      rw [← refs] at live nodup same
      refine ⟨[⟨_, _ :: (Extent.join (xs.take (ks.length / 2 + 1))).refs⟩,
          ⟨_, _ :: (Extent.join (xs.drop (ks.length / 2 + 1))).refs⟩],
        .cons ⟨_, _, _, readLeft, ?_, left.frame fun s member => same s (List.mem_append_left _ member), rfl⟩
          above below
            (.last ⟨_, _, _, readRight, ?_, right.frame fun s member => same s (List.mem_append_right _ member),
            rfl⟩), by simpa using entries, grows, retired, ?_, ?_⟩
      · exact List.ne_nil_of_length_pos (by simp only [List.length_take]; omega)
      · exact List.ne_nil_of_length_pos (by simp only [List.length_drop]; omega)
      · rw [← refs]
        simp only [Extent.join_cons_refs, Extent.join_nil, List.append_nil, List.mem_append, List.mem_cons]
        rintro s ((rfl | member) | rfl | member)
        · exact .inr freshLeft
        · exact .inl (.inl member)
        · exact .inr freshRight
        · exact .inl (.inr member)
      · have leftNew := freshLeft.not_mem live
        have rightNew := freshRight.not_mem live
        simp only [Extent.join_cons_refs, Extent.join_nil, List.append_nil, List.cons_append, ids_cons, ids_append,
          List.nodup_cons, List.nodup_middle] at nodup leftNew rightNew ⊢
        exact ⟨by simpa [distinct] using leftNew, rightNew, nodup⟩

private theorem rewriteInternal_spec (alloc : Alloc t) (chain : Chain (Holds t.disk d) lo hi ks rs xs)
    (nonempty : ks ≠ []) (live : ∀ s ∈ (Extent.join xs).refs, ¬Free t s.id) (nodup : (ids (Extent.join xs).refs).Nodup)
    (old : PageRef) : Ends (rewriteInternal old.id rs ks) t
      (fun out t' => ∃ ys, Rewritten t (d + 1) lo hi (Extent.join xs).entries (Extent.join xs).refs old.id out t' ys)
      (fun _ t' => Stopped t [old] t') := by
  unfold rewriteInternal
  by_cases fits : internalSize rs ks ≤ pageSize
  · rw [if_pos fits]
    refine ends_appendOne alloc (.internal rs ks) chain.length.1 (encodeNode_of_fits fits) old ?_ fun _ _ _ => id
    intro id t' grows retired fresh read
    refine ends_pure.mpr ⟨[⟨_, ⟨id, internalHash rs⟩ :: (Extent.join xs).refs⟩],
      .last ⟨rs, ks, xs, read, nonempty, chain.frame fun s member => grows.disk (live s member), rfl⟩, by simp, grows,
      retired, ?_, ?_⟩
    · simp only [Extent.join_cons_refs, Extent.join_nil, List.append_nil, List.mem_cons]
      rintro s (rfl | member)
      · exact .inr fresh
      · exact .inl member
    · simpa using ⟨fresh.not_mem live, nodup⟩
  · rw [if_neg fits]
    exact splitInternal_spec alloc chain live nodup old (by omega)

/-! ### The whole path -/

theorem ends_read (found : t.rd r = some n) (next : Q n t) : Ends (read r) t Q E := by
  rw [Ends, read, rd_eq_some.mp found]
  exact next

theorem Rewritten.after {entries : List Entry} (inner : Reworked t old t' mid ret)
    (outer : Rewritten t' d lo hi entries mid r.id out t'' ys) (new : r.id ∉ ids old) :
    Reworked t (r :: old) t'' (Extent.join ys).refs (ret ++ [r.id]) where
  grows := inner.grows.trans outer.grows
  retired := by rw [outer.retired, inner.retired, List.append_assoc]
  fromOld := by
    intro id member
    rcases List.mem_append.mp member with early | last
    · exact List.mem_cons_of_mem _ (inner.fromOld id early)
    · simp [List.mem_singleton.mp last]
  kept := by
    intro s member
    rcases outer.pages s member with early | fresh
    · rcases inner.kept s early with ⟨inside, alive⟩ | fresh
      · have other : s.id ≠ r.id := fun same => new (same ▸ mem_ids inside)
        exact .inl ⟨List.mem_cons_of_mem _ inside, by simp [alive, other]⟩
      · exact .inr (fresh.later outer.grows)
    · exact .inr (fresh.earlier inner.grows)
  nodup := outer.nodup

/-- The update of one subtree: its entries change as a sorted list does, in one or
two subtrees for the same key range, over kept and fresh pages. -/
theorem modRec_spec (alloc : Alloc t) (plain : Plain t) {k : Key} (holds : Holds t.disk d lo hi r x)
    (live : ∀ s ∈ x.refs, ¬Free t s.id) (nodup : (ids x.refs).Nodup) (lower : lo ≤ (k : WithBot Key))
    (upper : (k : WithTop Key) < hi) (deep : d < fuel) : Ends (modRec k val fuel r) t
      (fun out t' => ∃ ys ret, Chain (Holds t'.disk d) lo hi out.2.seps (out.2.refs out.1) ys ∧
        (Extent.join ys).entries = editEntries k val x.entries ∧ Reworked t x.refs t' (Extent.join ys).refs ret)
      (fun _ t' => Stopped t x.refs t') := by
  induction d generalizing lo hi r x fuel with
  | zero =>
    obtain ⟨fuel, rfl⟩ := Nat.exists_eq_add_of_lt deep
    obtain ⟨entries, found, sorted, within, rfl⟩ := holds
    refine Ends.bind (ends_read ((congrFun (rd_of_plain plain) r).trans found) ?_)
    have inside : ∀ e ∈ editEntries k val entries, lo ≤ (e.1 : WithBot Key) ∧ (e.1 : WithTop Key) < hi := by
      intro e member
      rcases mem_editEntries member with same | inside
      · rw [same]; exact ⟨lower, upper⟩
      · exact within e inside
    refine (rewriteLeaf_spec alloc (editEntries_sorted sorted k val) inside r).imp ?_
    rintro out t' ⟨ys, rewritten⟩
    have empty : Reworked t [] t [] [] := ⟨.refl alloc, by simp, by simp, by simp, by simp⟩
    exact ⟨ys, _, rewritten.chain, rewritten.entries, rewritten.after empty (by simp)⟩
  | succ d ih =>
    obtain ⟨fuel, rfl⟩ := Nat.exists_eq_add_of_lt deep
    obtain ⟨rs, ks, xs, found, nonempty, chain, rfl⟩ := holds
    obtain ⟨kl, kr, rl, c, rr, xl, x, xr, rfl, rfl, rfl, keysAt, refsAt, hole, held⟩ := chain.route lower upper
    simp only [Extent.join_append_refs, Extent.join_cons_refs, List.mem_cons, forall_eq_or_imp, ids_cons,
      List.nodup_cons] at live nodup ⊢
    refine Ends.bind (ends_read ((congrFun (rd_of_plain plain) r).trans found) ?_)
    simp only [childAt_at refsAt]
    refine (ih held (fun s member => live.2 s (by simp [member])) ?_ hole.lower hole.upper (by omega)).seqMono ?_ ?_
    · simp only [ids_append, List.nodup_append] at nodup
      exact nodup.2.2.1.1
    · -- the child is rewritten; put the result in its place and rewrite this node over it
      rintro ⟨nc, split⟩ t1 ⟨zs, ret, childChain, childEntries, child⟩
      have inner := child.within live.2 nodup.2
      have alive : ∀ s ∈ (Extent.join xl).refs ++ ((Extent.join zs).refs ++ (Extent.join xr).refs), ¬Free t1 s.id := by
        intro s member
        rcases inner.kept s member with ⟨still, -⟩ | fresh
        · exact fun free => live.2 s still (inner.grows.free _ free)
        · exact fresh.2
      have moved := hole.fill (Q := Holds t1.disk d) (fun member held => held.frame fun s inside => inner.grows.disk
        (live.2 s (by
          rcases List.mem_append.mp member with before | behind
          · simp [Extent.mem_join_refs.mpr ⟨_, before, inside⟩]
          · simp [Extent.mem_join_refs.mpr ⟨_, behind, inside⟩]))) childChain
      simp only [spliceChildren_at refsAt, spliceKeys_at keysAt]
      refine (rewriteInternal_spec inner.grows.alloc moved ?_ ?_ ?_ r).mono ?_ ?_
      · intro empty
        simp only [List.append_eq_nil_iff] at empty
        exact nonempty (by simp [empty])
      · simpa using alive
      · simpa using inner.nodup
      · rintro out t2 ⟨ys, rewritten⟩
        refine ⟨ys, ret ++ [r.id], rewritten.chain, ?_, ?_⟩
        · rw [rewritten.entries]
          simp only [Extent.join_append_entries, Extent.join_cons_entries, childEntries]
          rw [← hole.edit (editEntries_local k val), List.append_assoc]
        · simp only [Extent.join_append_refs, List.append_assoc] at rewritten
          exact rewritten.after inner nodup.1
      · intro _ t2 stopped
        exact stopped.after inner
    · intro _ t1 stopped
      exact stopped.mono fun s member => by simp [member]

end Rewrites
end BTree
end Innova.Store3A
