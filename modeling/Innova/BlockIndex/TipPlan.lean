import Innova.BlockIndex.TipAppend

/-! What a reorganisation plans. Planning reads the tip and writes nothing: the plan is the ids
of the fork prefix followed by one id for each branch block, that of its committed record when
the side index knows the block, and that of a new slot otherwise. -/
namespace Innova.BlockIndex
open Lib Chainstate

/-! ## Reads -/

/-- The authority after reads: only its caches have changed. -/
inductive Touched (t : Tip) : Tip → Prop where
  | refl : Touched t t
  | record {u : Tip} (touched : Touched t u) (slot : Nat) :
    Touched t { u with recordsWin := u.recordsWin.touch (recentCap 228) u.disk.records slot }
  | derived {u : Tip} (touched : Touched t u) (cap slot : Nat) :
    Touched t { u with derivedWin := u.derivedWin.touch cap u.disk.derived slot }
  | active {u : Tip} (touched : Touched t u) (rel : Nat) :
    Touched t { u with activeWin := u.activeWin.touch (recentCap 8) u.disk.active rel }

namespace Touched
/-- All but the windows is as it was. -/
theorem frame (touched : Touched t u) :
    u = { t with recordsWin := u.recordsWin, derivedWin := u.derivedWin, activeWin := u.activeWin } := by
  induction touched with
  | refl => rfl
  | record _ slot ih => rw [ih]
  | derived _ cap slot ih => rw [ih]
  | active _ rel ih => rw [ih]

theorem disk (touched : Touched t u) : u.disk = t.disk := by rw [touched.frame]

theorem tipMeta (touched : Touched t u) : u.tipMeta = t.tipMeta := by rw [touched.frame]

private theorem baseTipHash (touched : Touched t u) : u.baseTipHash = t.baseTipHash := by rw [touched.frame]

end Touched

/-! ## The plan -/

section Ends
variable {α : Type} {c : Prop} [Decidable c]

/-- A computation that stops if `c`. -/
theorem ends_guard {f : PUnit → TipM α} (stops : c → E (.failed status text) t) (goes : ¬c → Ends (f ⟨⟩) t Q E) :
    Ends (if c then (do let r ← fail status text; f r) else f ⟨⟩) t Q E := by
  split
  · next refused => exact stops refused
  · next passed => exact goes passed

theorem ends_getRecord {Q : Option Record → Tip → Prop} : Ends (getRecord slot) t Q E ↔
    Q (t.record? slot) { t with recordsWin := t.recordsWin.touch (recentCap 228) t.disk.records slot } := Iff.rfl

private theorem ends_getActive {Q : Option Nat → Tip → Prop} : Ends (getActive rel) t Q E ↔
    Q (t.active? rel) { t with activeWin := t.activeWin.touch (recentCap 8) t.disk.active rel } := Iff.rfl

theorem ends_modify {Q : PUnit → Tip → Prop} : Ends (modify f : TipM PUnit) t Q E ↔ Q ⟨⟩ (f t) := Iff.rfl

end Ends

section Plan
variable {kind : ReorgKind} {t : Tip} {keep : Nat} {forkIds : List Nat} {done : List (Append × Int)} {p : Plan}
  {item : Append × Int}

/-- The branch's money supply or mint is not the committed one. -/
def Differs (committed : Record) (blk : Append) : Prop :=
  committed.nMoneySupply ≠ blk.record.nMoneySupply ∨ committed.nMint ≠ blk.record.nMint

/-- A branch block the index knows, with the record found at its slot when it was read. -/
structure Promoted (t : Tip) (blk : Append) (id slot : Nat) (committed : Record) : Prop where
  indexed : t.disk.index blk.record.hash = some id
  slotted : t.tipMeta.slotOf id = some slot
  inside : slot < t.tipMeta.tipRecordCount
  read : ∃ v, Touched t v ∧ v.record? slot = some committed
  parent : committed.hashPrev = blk.record.hashPrev
  height : committed.height = blk.record.height

/-- A plan over the fork prefix and the branch blocks seen so far. -/
structure Planned (kind : ReorgKind) (t : Tip) (keep : Nat) (forkIds : List Nat) (done : List (Append × Int))
    (p : Plan) : Prop where
  keep : p.keep = keep
  length : p.active.length = forkIds.length + done.length
  fork : p.active.take forkIds.length = forkIds
  append : p.append = (t.fresh done).map (·.1)
  seen : p.seen = done.map (·.1.record.hash)
  distinct : (done.map (·.1.record.hash)).Nodup
  dense : ∀ (i : Nat) item, done[i]? = some item → item.2 = t.tipMeta.baseTipHeight + forkIds.length + i + 1
  promoted : ∀ (i : Nat) item, done[i]? = some item → t.knows item = true → ∃ id slot committed,
    Promoted t item.1 id slot committed ∧ p.active[forkIds.length + i]? = some id ∧
      (kind.corrects = true → Differs committed item.1 → (slot, item.1) ∈ p.fixes)
  fresh : ∀ (i : Nat) item, done[i]? = some item → t.knows item = false →
    p.active[forkIds.length + i]? = some (t.tipMeta.idOf (t.tipMeta.tipRecordCount + (t.fresh (done.take i)).length))
  fixed : ∀ fix ∈ p.fixes, kind.corrects = true ∧ fix.2 ∈ done.map (·.1) ∧
    ∃ id committed, Promoted t fix.2 id fix.1 committed ∧ Differs committed fix.2

private theorem planned_nil : Planned kind t keep forkIds [] ⟨keep, forkIds, [], [], []⟩ where
  keep := rfl
  length := rfl
  fork := List.take_length
  append := rfl
  seen := rfl
  distinct := List.nodup_nil
  dense := by simp
  promoted := by simp
  fresh := by simp
  fixed := by simp

/-- One more branch block, with the id it gets. -/
theorem Planned.snoc (planned : Planned kind t keep forkIds done p) {id : Nat} {append : List Append}
    (dense : item.2 = t.tipMeta.baseTipHeight + p.active.length + 1)
    (unseen : p.seen.contains item.1.record.hash = false)
    (append_eq : append = p.append ++ if t.knows item then [] else [item.1])
    (known : t.knows item = true → ∃ slot committed, Promoted t item.1 id slot committed ∧
      ((kind.corrects = true ∧ Differs committed item.1 ∧ fixes = p.fixes ++ [(slot, item.1)]) ∨
        (¬(kind.corrects = true ∧ Differs committed item.1) ∧ fixes = p.fixes)))
    (fresh : t.knows item = false → id = t.tipMeta.idOf (t.tipMeta.tipRecordCount + p.append.length) ∧
    fixes = p.fixes) :
    Planned kind t keep forkIds (done ++ [item])
      { p with active := p.active ++ [id], append, fixes, seen := p.seen ++ [item.1.record.hash] } := by
  have length := planned.length
  have freshSnoc : t.fresh (done ++ [item]) = t.fresh done ++ if t.knows item then [] else [item] := by
    cases knows : t.knows item <;> simp [Tip.fresh, knows]
  have more : ∀ fix ∈ p.fixes, fix ∈ fixes := by
    intro fix member
    cases knows : t.knows item with
    | false => rw [(fresh knows).2]; exact member
    | true =>
      obtain ⟨slot, committed, -, ⟨-, -, fixed⟩ | ⟨-, same⟩⟩ := known knows
      · rw [fixed]; exact List.mem_append_left _ member
      · rw [same]; exact member
  -- a position in the longer branch is an old one or the last
  have place {i : Nat} {found : Append × Int} (at_ : (done ++ [item])[i]? = some found) :
      (i < done.length ∧ done[i]? = some found) ∨ (i = done.length ∧ found = item) := by
    rw [List.getElem?_append] at at_
    split at at_
    · next old => exact .inl ⟨old, at_⟩
    · next new =>
      have last := (List.getElem?_eq_some_iff.mp at_).1
      rw [List.length_singleton] at last
      have here : i - done.length = 0 := by omega
      rw [here] at at_
      cases at_
      exact .inr ⟨by omega, rfl⟩
  refine ⟨planned.keep, by simp; omega, ?_, ?_, by simp [planned.seen], ?_, ?_, ?_, ?_, ?_⟩
  · rw [List.take_append_of_le_length (by omega), planned.fork]
  · rw [freshSnoc, append_eq, planned.append]
    cases t.knows item <;> simp
  · rw [List.map_append, List.nodup_append]
    refine ⟨planned.distinct, by simp, fun hash member other isLast => ?_⟩
    rw [List.map_singleton, List.mem_singleton] at isLast
    rintro rfl
    rw [planned.seen, ← Bool.not_eq_true, List.contains_iff_mem] at unseen
    exact unseen (isLast ▸ member)
  · intro i found at_
    rcases place at_ with ⟨-, old⟩ | ⟨rfl, rfl⟩
    · exact planned.dense i found old
    · omega
  · intro i found at_ knows
    rcases place at_ with ⟨inside, old⟩ | ⟨rfl, rfl⟩
    · obtain ⟨id', slot, committed, promoted, entry, fix⟩ := planned.promoted i found old knows
      refine ⟨id', slot, committed, promoted, ?_, fun corrects differs => more _ (fix corrects differs)⟩
      rw [List.getElem?_append_left (by omega), entry]
    · obtain ⟨slot, committed, promoted, fix⟩ := known knows
      refine ⟨id, slot, committed, promoted, ?_, fun corrects differs => ?_⟩
      · rw [← length]; simp
      · rcases fix with ⟨-, -, fixed⟩ | ⟨unfixed, -⟩
        · rw [fixed]; exact List.mem_append_right _ (List.mem_singleton_self _)
        · exact absurd ⟨corrects, differs⟩ unfixed
  · intro i found at_ unknown
    rcases place at_ with ⟨inside, old⟩ | ⟨rfl, rfl⟩
    · rw [List.getElem?_append_left (by omega), List.take_append_of_le_length (by omega)]
      exact planned.fresh i found old unknown
    · rw [← length]
      simp [(fresh unknown).1, planned.append]
  · intro fix member
    have earlier (old : fix ∈ p.fixes) : kind.corrects = true ∧ fix.2 ∈ (done ++ [item]).map (·.1) ∧
        ∃ id committed, Promoted t fix.2 id fix.1 committed ∧ Differs committed fix.2 := by
      obtain ⟨corrects, inBranch, rest⟩ := planned.fixed fix old
      exact ⟨corrects, by rw [List.map_append]; exact List.mem_append_left _ inBranch, rest⟩
    cases knows : t.knows item with
    | false => exact earlier ((fresh knows).2 ▸ member)
    | true =>
      obtain ⟨slot, committed, promoted, ⟨corrects, differs, fixed⟩ | ⟨-, same⟩⟩ := known knows
      · rw [fixed] at member
        rcases List.mem_append.mp member with old | new
        · exact earlier old
        · rw [List.mem_singleton] at new
          subst new
          exact ⟨corrects, by simp, id, committed, promoted, differs⟩
      · exact earlier (same ▸ member)

section
variable (touched : Touched t u)
include touched

/-- One branch block. -/
theorem planBlock_ends (planned : Planned kind t keep forkIds done p) :
    Ends (planBlock kind t.tipMeta p item) u
      (fun p' v => Touched t v ∧ Planned kind t keep forkIds (done ++ [item]) p') (fun _ v => Touched t v) := by
  obtain ⟨blk, height⟩ := item
  unfold planBlock
  refine ends_guard (fun _ => touched) fun dense => ends_guard (fun _ => touched) fun unseen => Ends.get ?_
  rw [touched.disk]
  have unseen : p.seen.contains blk.record.hash = false := by simpa using unseen
  have dense : height = t.tipMeta.baseTipHeight + p.active.length + 1 := not_not.mp dense
  cases indexed : t.disk.index blk.record.hash with
  | none =>
    have unknown : t.knows (blk, height) = false := by rw [Tip.knows, indexed]; rfl
    refine ends_pure.mpr
      ⟨touched, planned.snoc dense unseen (by rw [unknown]; rfl) (fun known => ?_) fun _ => ⟨rfl, rfl⟩⟩
    rw [unknown] at known
    cases known
  | some id =>
    have known : t.knows (blk, height) = true := by rw [Tip.knows, indexed]; rfl
    dsimp only
    cases slotted : t.tipMeta.slotOf id with
    | none => exact touched
    | some slot =>
      refine ends_guard (fun _ => touched) fun inside => Ends.bind (ends_getRecord.mpr ?_)
      cases read : u.record? slot with
      | none => exact touched.record slot
      | some committed =>
        refine ends_guard (fun _ => touched.record slot) fun same => ends_pure.mpr ⟨touched.record slot, ?_⟩
        push Not at same
        have promoted : Promoted t blk id slot committed :=
          ⟨indexed, slotted, by omega, ⟨u, touched, read⟩, same.1, same.2⟩
        refine planned.snoc dense unseen (by simp [known]) (fun _ => ⟨slot, committed, promoted, ?_⟩) fun unknown => ?_
        · by_cases fixes : kind.corrects = true ∧ Differs committed blk
          · exact .inl ⟨fixes.1, fixes.2, if_pos fixes⟩
          · exact .inr ⟨fixes, if_neg fixes⟩
        · rw [known] at unknown
          cases unknown

private theorem planBranch_ends (planned : Planned kind t keep forkIds done p) :
    Ends (planBranch kind t.tipMeta p rest) u
      (fun p' v => Touched t v ∧ Planned kind t keep forkIds (done ++ rest) p') (fun _ v => Touched t v) := by
  induction rest generalizing u p done with
  | nil => exact ⟨touched, by rw [List.append_nil]; exact planned⟩
  | cons item rest ih =>
    refine (planBlock_ends touched planned).seq (fun p' v ⟨touched', planned'⟩ => ?_)
    have later := ih touched' planned'
    rwa [List.append_assoc] at later

private theorem forkPrefix_ends : Ends (forkPrefix error rel n) u
    (fun ids v => Touched t v ∧ ids.length = n ∧ ∀ (i : Nat) id, ids[i]? = some id →
    ∃ w, Touched t w ∧ w.active? (rel + i) = some id) (fun _ v => Touched t v) := by
  induction n generalizing rel u with
  | zero => exact ⟨touched, rfl, by simp⟩
  | succ n ih =>
    refine Ends.bind (ends_getActive.mpr ?_)
    cases read : u.active? rel with
    | none => exact touched.active rel
    | some id =>
      refine (ih (touched.active rel)).seqMono (fun ids v ⟨touched', length, reads⟩ => ?_) fun _ _ stopped => stopped
      refine ends_pure.mpr ⟨touched', by rw [List.length_cons, length], fun i id' at_ => ?_⟩
      cases i with
      | zero =>
        cases at_
        exact ⟨u, touched, read⟩
      | succ i =>
        obtain ⟨w, touched, read⟩ := reads i id' at_
        exact ⟨w, touched, by rw [← read]; congr 1; omega⟩

/-- What the first branch block must attach to. -/
def Attach (t : Tip) (forkIds : List Nat) (attach : Option Hash) : Prop :=
  match forkIds.getLast? with
  | none => attach = if t.baseTipHash ≠ ByteArr.zero 32 then some t.baseTipHash else none
  | some id =>
    ∃ slot v r, t.tipMeta.slotOf id = some slot ∧ Touched t v ∧ v.record? slot = some r ∧ attach = some r.hash

private theorem forkHash_ends : Ends (forkHash kind t.tipMeta forkIds) u
    (fun attach v => Touched t v ∧ Attach t forkIds attach) (fun _ v => Touched t v) := by
  unfold forkHash Attach
  cases forkIds.getLast? with
  | none =>
    refine Ends.get (ends_pure.mpr ⟨touched, ?_⟩)
    rw [touched.baseTipHash]
  | some id =>
    dsimp only
    cases slotted : t.tipMeta.slotOf id with
    | none => exact touched
    | some slot =>
      refine Ends.bind (ends_getRecord.mpr ?_)
      cases read : u.record? slot with
      | none => exact touched.record slot
      | some r => exact ⟨touched.record slot, slot, u, r, rfl, touched, read, rfl⟩

end

/-- A whole plan. -/
structure Plans (kind : ReorgKind) (t : Tip) (fork : Int) (branch : List Append) (heights : List Int)
    (p : Plan) : Prop where
  sizes : branch.length = heights.length
  range : kind.inRange t.tipMeta fork = true
  planned : ∃ forkIds, forkIds.length = (fork - t.tipMeta.baseTipHeight).toNat ∧
    (∀ (i : Nat) id, forkIds[i]? = some id → ∃ v, Touched t v ∧ v.active? i = some id) ∧
    (∀ first ∈ branch.head?, ∃ attach, Attach t forkIds attach ∧ ∀ hash ∈ attach, first.record.hashPrev = hash) ∧
    Planned kind t (fork - t.tipMeta.baseTipHeight).toNat forkIds (branch.zip heights) p

theorem planReorg_ends : Ends (planReorg kind fork branch heights) t
    (fun p u => Touched t u ∧ Plans kind t fork branch heights p) (fun _ u => Touched t u) := by
  unfold planReorg
  refine ends_guard (fun _ => .refl) fun sizes => Ends.get ?_
  refine ends_guard (fun _ => .refl) fun range => ?_
  refine (forkPrefix_ends .refl).seq (fun forkIds u ⟨touched, length, reads⟩ => ?_)
  simp only [Nat.zero_add] at reads
  have finish {u : Tip} (touched : Touched t u)
      (attached : ∀ first ∈ branch.head?, ∃ attach, Attach t forkIds attach ∧ ∀ hash ∈ attach,
        first.record.hashPrev = hash) :
      Ends (planBranch kind t.tipMeta ⟨(fork - t.tipMeta.baseTipHeight).toNat, forkIds, [], [], []⟩
        (branch.zip heights)) u
        (fun p u => Touched t u ∧ Plans kind t fork branch heights p) (fun _ u => Touched t u) := by
    refine (planBranch_ends touched planned_nil).imp (fun p v ⟨touched', planned⟩ => ⟨touched', ?_⟩)
    exact ⟨not_not.mp sizes, by simpa using range, forkIds, length, reads, attached, planned⟩
  cases branch with
  | nil => exact finish touched (by simp)
  | cons first rest =>
    refine (forkHash_ends touched).seq (fun attach v ⟨touched', isAttach⟩ => ?_)
    refine ends_guard (fun _ => touched') fun attached => finish touched' ?_
    intro first' isFirst
    cases isFirst
    refine ⟨attach, isAttach, fun hash isHash => ?_⟩
    cases isHash
    simpa using attached

end Plan
end Innova.BlockIndex
