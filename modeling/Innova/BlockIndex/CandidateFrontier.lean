import Mathlib.Data.List.Induction
import Innova.Chainstate.Basic

/-! The candidate frontier by value (`candidate_frontier.cpp`): the choice of the best tip, which
follows the ancestry of each candidate for 100000 blocks. -/
namespace Innova.BlockIndex.Frontier
open Lib Chainstate

/-- `CandidateFrontierAuthorityRecord`. -/
structure AuthorityRecord where
  hash : Hash := ByteArr.zero 32
  chainTrust : Nat := 0
  height : Int := -1
  found : Bool := false
  isEligible : Bool := false

structure BVec where
  parent : Hash
  chainTrust : Nat
  height : Int

/-- `SnapshotCandidateFrontierStore`. -/
structure Store where
  bestTrust : Nat
  hasBest : Bool
  blocks : Hash → Option BVec
  /-- No block has the null hash. -/
  blocks_zero : blocks (ByteArr.zero 32) = none
  tipHashes : List Hash
  operatorInvalid : Hash → Bool
  hasData : Hash → Bool

variable (s : Store)

def lookup (hash : Hash) : AuthorityRecord :=
  match s.blocks hash with
  | none => {}
  | some b => { hash := hash, chainTrust := b.chainTrust, height := b.height, found := true }

def getParent (child : Hash) : AuthorityRecord :=
  match s.blocks child with
  | none => {}
  | some b => if b.parent = ByteArr.zero 32 then {} else lookup s b.parent

/-- `AncestryOperatorInvalidByValue`. -/
def ancestryOperatorInvalid : (guard : Nat) → (cur : Hash) → Bool
  | 0, _ => false
  | guard + 1, cur =>
    if cur = ByteArr.zero 32 then false
    else if s.operatorInvalid cur then true
    else if (getParent s cur).found then ancestryOperatorInvalid guard (getParent s cur).hash
    else false

/-- The filters of the loop. -/
def passes (tip : Hash) : Bool :=
  (lookup s tip).found && decide (s.bestTrust < (lookup s tip).chainTrust) && !ancestryOperatorInvalid s 100000 tip &&
    s.hasData tip

/-- One turn of the loop. Equal trust never replaces. -/
def consider (best : AuthorityRecord) (tip : Hash) : AuthorityRecord :=
  if passes s tip && (!best.found || decide (best.chainTrust < (lookup s tip).chainTrust)) then
    { lookup s tip with isEligible := true }
  else best

/-- `EvaluateCandidateFrontierByValue`. -/
def evaluateCandidateFrontier : AuthorityRecord := if s.hasBest then s.tipHashes.foldl (consider s) {} else {}

/-! ## What the choice is for -/

/-- The block at a depth of the stored ancestry; the tip itself is at depth 0. -/
def ancestor : (depth : Nat) → (tip : Hash) → Option Hash
  | 0, tip => some tip
  | depth + 1, tip => if (getParent s tip).found then ancestor depth (getParent s tip).hash else none

/-- A block at this depth is marked operator-invalid. -/
def TaintedAt (tip : Hash) (depth : Nat) : Prop := ∃ h, ancestor s depth tip = some h ∧ s.operatorInvalid h = true

def Untainted (tip : Hash) : Prop := ∀ depth, ¬ TaintedAt s tip depth

def Eligible (tip : Hash) : Prop :=
  (lookup s tip).found = true ∧ s.bestTrust < (lookup s tip).chainTrust ∧ Untainted s tip ∧ s.hasData tip = true

/-- The record of the first tip of maximal trust among those that satisfy `P`, or none found. -/
def Selects (P : Hash → Prop) (tips : List Hash) (r : AuthorityRecord) : Prop :=
  (r.found = false ∧ ∀ tip ∈ tips, ¬P tip) ∨
  ∃ before tip after, tips = before ++ tip :: after ∧ P tip ∧ r = { lookup s tip with isEligible := true } ∧
    (∀ other ∈ before, P other → (lookup s other).chainTrust < r.chainTrust) ∧
    ∀ other ∈ after, P other → (lookup s other).chainTrust ≤ r.chainTrust

variable {s}

private theorem lookup_hash (found : (lookup s tip).found = true) : (lookup s tip).hash = tip := by
  unfold lookup at found ⊢
  split at found
  · cases found
  · rfl

/-- The loop over the tips, one more at the end. -/
theorem foldl_selects (tips : List Hash) :
    Selects s (fun tip => passes s tip = true) tips (tips.foldl (consider s) {}) := by
  induction tips using List.reverseRecOn with
  | nil => exact .inl ⟨rfl, by simp⟩
  | append_singleton tips tip ih =>
    rw [List.foldl_concat]
    generalize tips.foldl (consider s) {} = best at ih
    unfold consider
    split
    · next better =>
      obtain ⟨pass, more⟩ : passes s tip = true ∧
        (best.found = true → best.chainTrust < (lookup s tip).chainTrust) := by
        cases found : best.found <;> simp_all
      refine .inr ⟨tips, tip, [], rfl, pass, rfl, fun other member eligible => ?_, by simp⟩
      rcases ih with ⟨-, none⟩ | ⟨before, first, after, rfl, held, rfl, less, atMost⟩
      · exact absurd eligible (none other member)
      · have found : (lookup s first).found = true := by unfold passes at held; simp_all
        have over_ := more found
        rcases List.mem_append.mp member with earlier | later
        · exact (less other earlier eligible).trans over_
        · rcases List.mem_cons.mp later with rfl | later
          · exact over_
          · exact (atMost other later eligible).trans_lt over_
    · next worse =>
      rcases ih with ⟨missing, none⟩ | ⟨before, first, after, rfl, held, rfl, less, atMost⟩
      · refine .inl ⟨missing, fun other member => ?_⟩
        rcases List.mem_append.mp member with earlier | here
        · exact none other earlier
        · simp_all
      · have found : (lookup s first).found = true := by unfold passes at held; simp_all
        refine .inr ⟨before, first, after ++ [tip], by simp, held, rfl, less, fun other member eligible => ?_⟩
        rcases List.mem_append.mp member with earlier | here
        · exact atMost other earlier eligible
        · rw [List.mem_singleton.mp here] at eligible ⊢
          simpa [eligible, found] using worse

private theorem nonzero_of_found (found : (lookup s tip).found = true) : tip ≠ ByteArr.zero 32 := by
  rintro rfl
  simp [lookup, s.blocks_zero] at found

private theorem getParent_eq_lookup (found : (getParent s tip).found = true) :
    (lookup s (getParent s tip).hash).found = true := by
  unfold getParent at found ⊢
  split at found
  · cases found
  · split at found
    · cases found
    · rw [if_neg ‹_›, lookup_hash found]
      exact found

/-- The walk sees the marks down to its bound. -/
theorem ancestryOperatorInvalid_iff (found : (lookup s tip).found = true) (guard : Nat) :
    ancestryOperatorInvalid s guard tip = true ↔ ∃ depth < guard, TaintedAt s tip depth := by
  induction guard generalizing tip with
  | zero => simp [ancestryOperatorInvalid]
  | succ guard ih =>
    rw [ancestryOperatorInvalid, if_neg (nonzero_of_found found), Nat.exists_lt_succ_left]
    cases mark : s.operatorInvalid tip with
    | true => simp [TaintedAt, ancestor, mark]
    | false =>
      cases more : (getParent s tip).found with
      | true => simp [TaintedAt, ancestor, mark, more, ih (getParent_eq_lookup more)]
      | false => simp [TaintedAt, ancestor, mark, more]

/-- A tip that is eligible but for a mark at a depth of 100000 or more. -/
def Overlooked (s : Store) (tip : Hash) : Prop :=
  (lookup s tip).found = true ∧ s.bestTrust < (lookup s tip).chainTrust ∧ s.hasData tip = true ∧
    (∃ depth, TaintedAt s tip depth) ∧ ∀ depth, TaintedAt s tip depth → 100000 ≤ depth

private theorem passes_iff : passes s tip = true ↔ Eligible s tip ∨ Overlooked s tip := by
  cases found : (lookup s tip).found with
  | false => simp [passes, Eligible, Overlooked, found]
  | true =>
    have walk := (ancestryOperatorInvalid_iff found 100000).not
    simp only [Bool.not_eq_true, not_exists, not_and] at walk
    simp only [passes, Eligible, Overlooked, found, Bool.and_eq_true, decide_eq_true_eq,
      Bool.not_eq_true', walk, Untainted,
      true_and]
    constructor
    · rintro ⟨⟨trust, seen⟩, data⟩
      by_cases clean : ∀ depth, ¬ TaintedAt s tip depth
      · exact .inl ⟨trust, clean, data⟩
      · exact .inr ⟨trust, data, by simpa using clean, fun depth mark => not_lt.mp fun low => seen depth low mark⟩
    · rintro (⟨trust, clean, data⟩ | ⟨trust, data, -, deep⟩)
      · exact ⟨⟨trust, fun depth _ => clean depth⟩, data⟩
      · exact ⟨⟨trust, fun depth low mark => absurd (deep depth mark) (not_le.mpr low)⟩, data⟩

private theorem Eligible.passes (eligible : Eligible s tip) : passes s tip = true := passes_iff.mpr (.inl eligible)

private theorem Overlooked.not_eligible (overlooked : Overlooked s tip) : ¬ Eligible s tip := by
  obtain ⟨-, -, -, ⟨depth, mark⟩, -⟩ := overlooked
  exact fun eligible => eligible.2.2.1 depth mark

/-! ## A deep ancestor -/

def numbered (n : Nat) : Hash := ByteArr.ofNat 32 n

private theorem toNat_numbered (small : n < 256 ^ 32) : Bytes.toNat (numbered n).val = n := Bytes.toNat_le_of_lt small

/-- Blocks numbered from `depth + 1` down to an invalid one. -/
def deepStore (depth : Nat) : Store where
  bestTrust := 0
  hasBest := true
  blocks h := if Bytes.toNat h.val = 0 then none else
    some ⟨numbered (Bytes.toNat h.val - 1), Bytes.toNat h.val, Bytes.toNat h.val⟩
  blocks_zero := by decide
  tipHashes := [numbered (depth + 1)]
  operatorInvalid h := decide (Bytes.toNat h.val = 1)
  hasData _ := true

section Deep
variable {depth guard n : Nat} (small : n + 1 < 256 ^ 32)
include small

private theorem numbered_ne_zero : numbered (n + 1) ≠ ByteArr.zero 32 := by
  intro same
  have number := toNat_numbered small
  rw [same, show Bytes.toNat (ByteArr.zero 32).val = 0 by decide] at number
  omega

private theorem lookup_deep : lookup (deepStore depth) (numbered (n + 1)) =
    { hash := numbered (n + 1), chainTrust := n + 1, height := n + 1, found := true } := by
  simp [lookup, deepStore, toNat_numbered small]

omit small in
private theorem getParent_deep (small : n + 2 < 256 ^ 32) :
    getParent (deepStore depth) (numbered (n + 2)) = lookup (deepStore depth) (numbered (n + 1)) := by
  have nonzero := numbered_ne_zero (n := n) (by omega)
  simp [getParent, deepStore, toNat_numbered small, nonzero]

/-- A walk that is shorter than the chain does not meet its end. -/
theorem deep_missed (short : guard ≤ n) :
    ancestryOperatorInvalid (deepStore depth) guard (numbered (n + 1)) = false := by
  induction guard generalizing n with
  | zero => rfl
  | succ guard ih =>
    obtain ⟨n, rfl⟩ := Nat.exists_eq_add_of_lt short
    have valid : (deepStore depth).operatorInvalid (numbered (guard + n + 1 + 1)) = false := by
      simp [deepStore, toNat_numbered small]
    rw [ancestryOperatorInvalid, if_neg (numbered_ne_zero small), valid, getParent_deep small, lookup_deep (by omega)]
    exact ih (by omega) (by omega)

private theorem deep_reached : ancestor (deepStore depth) n (numbered (n + 1)) = some (numbered 1) := by
  induction n with
  | zero => rfl
  | succ n ih =>
    rw [ancestor, getParent_deep small, lookup_deep (by omega)]
    exact ih (by omega)

private theorem evaluate_deep (deep : 100000 ≤ n) : (evaluateCandidateFrontier (deepStore n)).found = true ∧
    (evaluateCandidateFrontier (deepStore n)).hash = numbered (n + 1) := by
  have missed : ancestryOperatorInvalid (deepStore n) _ _ = false := deep_missed small deep
  have pass : passes (deepStore n) (numbered (n + 1)) = true := by
    rw [passes, missed, lookup_deep small]
    simp [deepStore]
  rw [evaluateCandidateFrontier, if_pos (show (deepStore n).hasBest = true from rfl),
    show (deepStore n).tipHashes = [numbered (n + 1)] from rfl, List.foldl_cons, List.foldl_nil,
      consider, pass, lookup_deep small]
  exact ⟨rfl, rfl⟩

end Deep

/-! ## Exactly when the choice is right -/

/-- A tip among the others that an enumeration in its order prefers to every eligible one. -/
def Outranks (s : Store) (tip : Hash) : Prop :=
  ∃ before after, s.tipHashes = before ++ tip :: after ∧
    (∀ other ∈ before, Eligible s other → (lookup s other).chainTrust < (lookup s tip).chainTrust) ∧
    ∀ other ∈ after, Eligible s other → (lookup s other).chainTrust ≤ (lookup s tip).chainTrust

/-- A tip with a mark that the walk overlooks is chosen over all eligible ones, if it outranks them. -/
theorem selects_not_outranked (chosen : Selects s (fun tip => passes s tip = true) s.tipHashes r)
    (right : Selects s (Eligible s) s.tipHashes r) (overlooked : Overlooked s tip) : ¬ Outranks s tip := by
  rintro ⟨first, last, whole, below, atMost⟩
  have pass := passes_iff.mpr (.inr overlooked)
  rcases chosen with ⟨-, none⟩ | ⟨before, best, after, split, held, rfl, less, most⟩
  · exact none tip (by simp [whole]) pass
  · rcases right with ⟨missing, -⟩ | ⟨_, best', _, -, eligible, same, -⟩
    · have found : (lookup s best).found = true := by
        rcases passes_iff.mp held with eligible | overlooked
        exacts [eligible.1, overlooked.1]
      simp [found] at missing
    · have found := eligible.1
      have hash := congrArg AuthorityRecord.hash same
      have known : (lookup s best).found = true := by simpa [found] using congrArg AuthorityRecord.found same
      simp only [lookup_hash found, lookup_hash known] at hash
      subst hash
      -- of the two tips the one that comes first has more trust than the other, or as much
      rw [split] at whole
      rcases List.append_eq_append_iff.mp whole with ⟨between, rfl, rest⟩ | ⟨between, rfl, rest⟩
      · cases between with
        | nil =>
          cases rest
          exact overlooked.not_eligible eligible
        | cons head between =>
          cases rest
          exact absurd (most tip (by simp) pass) (not_le.mpr (below best (by simp) eligible))
      · cases between with
        | nil =>
          cases rest
          exact overlooked.not_eligible eligible
        | cons head between =>
          cases rest
          exact absurd (atMost best (by simp) eligible) (not_le.mpr (less tip (by simp) pass))

/-- The loop selects among the eligible tips exactly if no tip whose first mark is at a depth of 100000
or more outranks them. -/
theorem evaluateCandidateFrontier_selects_iff (active : s.hasBest = true) :
    Selects s (Eligible s) s.tipHashes (evaluateCandidateFrontier s) ↔ ∀ tip, Overlooked s tip → ¬ Outranks s tip := by
  have chosen := foldl_selects (s := s) s.tipHashes
  rw [evaluateCandidateFrontier, if_pos active]
  refine ⟨fun right tip => selects_not_outranked chosen right, fun none => ?_⟩
  generalize s.tipHashes.foldl (consider s) {} = r at chosen
  rcases chosen with ⟨missing, none⟩ | ⟨before, tip, after, whole, held, rfl, less, atMost⟩
  · exact .inl ⟨missing, fun tip member eligible => none tip member eligible.passes⟩
  · have below := fun other member (eligible : Eligible s other) => less other member eligible.passes
    have upto := fun other member (eligible : Eligible s other) => atMost other member eligible.passes
    rcases passes_iff.mp held with eligible | overlooked
    · exact .inr ⟨before, tip, after, whole, eligible, rfl, below, upto⟩
    · exact absurd ⟨before, after, whole, below, upto⟩ (none tip overlooked)

/-- Three tips over one block, the one with the most trust marked. -/
def forkStore : Store where
  bestTrust := 1
  hasBest := true
  blocks h :=
    [(numbered 1, ⟨ByteArr.zero 32, 1, 0⟩), (numbered 2, ⟨numbered 1, 5, 1⟩), (numbered 3, ⟨numbered 1, 9, 1⟩),
    (numbered 4, (⟨numbered 1, 7, 1⟩ : BVec))].lookup h
  blocks_zero := by decide
  tipHashes := [numbered 2, numbered 3, numbered 4]
  operatorInvalid h := h == numbered 3
  hasData _ := true

/-- The tip with the most trust of the other two is chosen. -/
theorem evaluateCandidateFrontier_selects_iff_fork :
    Selects forkStore (Eligible forkStore) forkStore.tipHashes (evaluateCandidateFrontier forkStore) ∧
      (evaluateCandidateFrontier forkStore).hash = numbered 4 := by
  refine ⟨(evaluateCandidateFrontier_selects_iff (s := forkStore) rfl).mpr ?_, by decide +kernel⟩
  rintro tip ⟨-, -, -, ⟨depth, mark⟩, deep⟩ ⟨before, after, whole, -⟩
  have listed : tip ∈ forkStore.tipHashes := by simp [whole]
  have short : ∀ tip ∈ forkStore.tipHashes, (getParent forkStore tip).hash = numbered 1 := by decide +kernel
  have ends : (getParent forkStore (numbered 1)).found = false := by decide +kernel
  obtain ⟨depth, rfl⟩ := Nat.exists_eq_add_of_le (deep depth mark)
  obtain ⟨h, reached, -⟩ := mark
  rw [show 100000 + depth = 99998 + depth + 1 + 1 by omega, ancestor, short tip listed, ancestor, ends] at reached
  simp at reached

/-- The walk of the highest block stops one block above the invalid one. -/
theorem deep_taint_selected : ∃ s, s.hasBest = true ∧ (evaluateCandidateFrontier s).found = true ∧
      TaintedAt s (evaluateCandidateFrontier s).hash 100000 := by
  have small : 100000 + 1 < 256 ^ 32 := by decide
  obtain ⟨found, hash⟩ := evaluate_deep small le_rfl
  exact ⟨deepStore 100000, rfl, found, numbered 1, hash ▸ deep_reached small, by decide⟩

end Innova.BlockIndex.Frontier
