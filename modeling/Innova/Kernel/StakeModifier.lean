import Innova.BlockIndex.BlockTree
import Mathlib.Data.List.Perm.Subperm

/-! The stake modifier of a block (`kernel.cpp`): sixty-four rounds that each pick one block of a
window of chain time and take its entropy bit, and the computation over blocks linked by pointers.
A block index entry with its `pprev` chain is the list of blocks from it down to genesis. -/
namespace Innova.Kernel
open Lib Chainstate BlockIndex

/-! ## Selection -/

/-- `nModifierInterval`, in seconds. -/
def modifierInterval : Nat := 600

/-- `GetStakeModifierSelectionIntervalSection`. -/
def selectionIntervalSection (section_ : Nat) : Nat :=
  if section_ < 64 then modifierInterval * 63 / (63 + (63 - section_) * 2) else 0

/-- `GetStakeModifierSelectionInterval`. -/
def selectionInterval : Nat := ((List.range 64).map selectionIntervalSection).sum

/-- Where the candidate window of a block of time `nTime` begins. -/
def selectionIntervalStart (nTime : Nat) : Int :=
  ((nTime / modifierInterval * modifierInterval : Nat) : Int) - selectionInterval

/-- `StakeModifierCandidateValue`. -/
structure Candidate where
  nTime : Nat
  hash : Hash
  hashProof : Hash
  nFlags : Nat
  haveRecord : Bool
deriving DecidableEq

def Candidate.ofRecord (b : Record) : Candidate := ⟨b.nTime, b.hash, b.hashProof, b.nFlags, true⟩

/-- A hash as the number `uint256` compares. -/
def hashValue (h : Hash) : Nat := Bytes.toNat h.val

/-- `StakeModifierCandidateLess`, as the order `std::sort` leaves: by time, then by hash. -/
def timeThenHash (a b : Nat × Hash) : Bool :=
  decide (a.1 < b.1) || (a.1 == b.1 && decide (hashValue a.2 ≤ hashValue b.2))

def Candidate.le (a b : Candidate) : Bool := timeThenHash (a.nTime, a.hash) (b.nTime, b.hash)

section Selection
variable [Digest]

/-- `Hash` of `hash.h`: SHA-256 twice, as a number. -/
def doubleHash (bytes : Bytes) : Nat := hashValue (Digest.sha256 (Digest.sha256 bytes).val)

/-- `StakeModifierSelectionHash`. -/
def selectionHash (prevModifier : Nat) (c : Candidate) : Nat :=
  let h := doubleHash (c.hashProof.val ++ Bytes.le 8 prevModifier)
  if c.nFlags.testBit 0 then h / 2 ^ 32 else h

/-- The loop of `SelectBlockFromCandidateValues`; `best` is the candidate picked so far with its
selection hash. A candidate without a record aborts the loop. -/
def selectFrom (prevModifier : Nat) (selected : List Hash) (stop : Int) :
    Option (Candidate × Nat) → List Candidate → Option (Option (Candidate × Nat))
  | best, [] => some best
  | best, c :: rest =>
    if !c.haveRecord then none
    else if best.isSome ∧ stop < c.nTime then some best
    else if c.hash ∈ selected then selectFrom prevModifier selected stop best rest
    else
      match best with
      | some (_, least) =>
        if selectionHash prevModifier c < least then
          selectFrom prevModifier selected stop (some (c, selectionHash prevModifier c)) rest
        else selectFrom prevModifier selected stop best rest
      | none => selectFrom prevModifier selected stop (some (c, selectionHash prevModifier c)) rest

/-- `SelectBlockFromCandidateValues`. -/
def selectBlock (prevModifier : Nat) (candidates : List Candidate) (selected : List Hash)
    (stop : Int) : Option Candidate :=
  (selectFrom prevModifier selected stop none candidates).bind fun best => best.map Prod.fst

/-- The rounds from `round` on, `left` of them: each takes the entropy bit of the block it picks. -/
def rounds (prevModifier : Nat) (candidates : List Candidate) :
    (left round : Nat) → (stop : Int) → (selected : List Hash) → (modifier : Nat) → Option Nat
  | 0, _, _, _, modifier => some modifier
  | left + 1, round, stop, selected, modifier =>
    let stop := stop + selectionIntervalSection round
    match selectBlock prevModifier candidates selected stop with
    | none => none
    | some c =>
      rounds prevModifier candidates left (round + 1) stop (c.hash :: selected)
        (modifier ||| ((c.nFlags.testBit 1).toNat <<< round))

/-- The outputs of `ComputeNextStakeModifier`: a failure resets them. -/
structure NextModifier where
  success : Bool
  modifier : Nat
  generated : Bool
deriving DecidableEq

def NextModifier.failed : NextModifier := ⟨false, 0, false⟩

/-- `ComputeNextStakeModifier` after its two look-ups: the last generated modifier with its time,
and the sorted candidates, which are collected only when a new interval has begun. -/
def nextModifier (prev : Record) (last : Option (Nat × Nat)) (candidates : Option (List Candidate)) : NextModifier :=
  match last with
  | none => .failed
  | some (modifier, time) =>
    if prev.nTime / modifierInterval ≤ time / modifierInterval then ⟨true, modifier, false⟩
    else
      match candidates with
      | none => .failed
      | some candidates =>
        match rounds modifier candidates (min 64 candidates.length) 0 (selectionIntervalStart prev.nTime) [] 0 with
        | none => .failed
        | some new => ⟨true, new, true⟩

end Selection

section Selectable
variable [Digest] (prevModifier : Nat) (stop : Int)

section
variable {candidates : List Candidate} (records : ∀ c ∈ candidates, c.haveRecord = true)
include records

/-- The loop over candidates that all have a record picks one, as soon as one is not selected yet. -/
theorem selectFrom_spec (best : Option (Candidate × Nat))
    (fresh : best.isSome ∨ ∃ c ∈ candidates, c.hash ∉ selected) :
    ∃ c, (∃ h, selectFrom prevModifier selected stop best candidates = some (some (c, h))) ∧
      ((∃ h, best = some (c, h)) ∨ c ∈ candidates ∧ c.hash ∉ selected) := by
  induction candidates generalizing best with
  | nil =>
    obtain ⟨⟨c, h⟩, rfl⟩ := Option.isSome_iff_exists.mp (by simpa using fresh)
    exact ⟨c, ⟨h, rfl⟩, .inl ⟨h, rfl⟩⟩
  | cons c rest ih =>
    have others : ∀ c ∈ rest, c.haveRecord = true := fun c member => records c (List.mem_cons_of_mem _ member)
    have widen : ∀ {best' : Option (Candidate × Nat)} {x : Candidate},
        ((∃ h, best' = some (x, h)) → (∃ h, best = some (x, h)) ∨ x ∈ c :: rest ∧ x.hash ∉ selected) →
        ((∃ h, best' = some (x, h)) ∨ x ∈ rest ∧ x.hash ∉ selected) →
        (∃ h, best = some (x, h)) ∨ x ∈ c :: rest ∧ x.hash ∉ selected := by
      intro best' x kept picked
      rcases picked with held | ⟨member, new⟩
      · exact kept held
      · exact .inr ⟨List.mem_cons_of_mem _ member, new⟩
    unfold selectFrom
    simp only [records c List.mem_cons_self, Bool.not_true, Bool.false_eq_true, if_false]
    split
    · next past =>
      obtain ⟨⟨x, h⟩, rfl⟩ := Option.isSome_iff_exists.mp past.1
      exact ⟨x, ⟨h, rfl⟩, .inl ⟨h, rfl⟩⟩
    split
    · next used =>
      have fresh' : best.isSome ∨ ∃ c ∈ rest, c.hash ∉ selected := by
        rcases fresh with held | ⟨x, member, new⟩
        · exact .inl held
        · rcases List.mem_cons.mp member with rfl | below
          · exact absurd used new
          · exact .inr ⟨x, below, new⟩
      obtain ⟨x, ran, picked⟩ := ih others best fresh'
      exact ⟨x, ran, widen .inl picked⟩
    next unused =>
    have taken : ∀ {x : Candidate}, (∃ h, some (c, selectionHash prevModifier c) = some (x, h)) →
        (∃ h, best = some (x, h)) ∨ x ∈ c :: rest ∧ x.hash ∉ selected := by
      rintro x ⟨h, same⟩
      cases same
      exact .inr ⟨List.mem_cons_self, unused⟩
    cases best with
    | none =>
      obtain ⟨x, ran, picked⟩ := ih others (some (c, selectionHash prevModifier c)) (.inl rfl)
      exact ⟨x, ran, widen taken picked⟩
    | some pair =>
      dsimp only
      split
      · obtain ⟨x, ran, picked⟩ := ih others (some (c, selectionHash prevModifier c)) (.inl rfl)
        exact ⟨x, ran, widen taken picked⟩
      · obtain ⟨x, ran, picked⟩ := ih others (some pair) (.inl rfl)
        exact ⟨x, ran, widen .inl picked⟩

private theorem selectBlock_spec (fresh : ∃ c ∈ candidates, c.hash ∉ selected) :
    ∃ c ∈ candidates, c.hash ∉ selected ∧ selectBlock prevModifier candidates selected stop = some c := by
  obtain ⟨c, ⟨h, ran⟩, picked⟩ := selectFrom_spec prevModifier stop records none (.inr fresh)
  rcases picked with ⟨h, held⟩ | ⟨member, new⟩
  · cases held
  · exact ⟨c, member, new, by simp [selectBlock, ran]⟩

/-- Candidates with different hashes are never used up before the rounds end. -/
theorem rounds_isSome (distinct : (candidates.map Candidate.hash).Nodup)
    (left round modifier : Nat) (once : selected.Nodup) (enough : left + selected.length ≤ candidates.length) :
    (rounds prevModifier candidates left round stop selected modifier).isSome := by
  induction left generalizing round stop modifier selected with
  | zero => rfl
  | succ left ih =>
    have fresh : ∃ c ∈ candidates, c.hash ∉ selected := by
      by_contra all
      push Not at all
      have inside : candidates.map Candidate.hash ⊆ selected := by
        intro h member
        obtain ⟨c, held, rfl⟩ := List.mem_map.mp member
        exact all c held
      have most := (List.subperm_of_subset distinct inside).length_le
      rw [List.length_map] at most
      omega
    obtain ⟨c, -, new, ran⟩ := selectBlock_spec prevModifier (stop + selectionIntervalSection round) records fresh
    rw [rounds, ran]
    exact ih _ _ _ (List.nodup_cons.mpr ⟨new, once⟩) (by rw [List.length_cons]; omega)

end

end Selectable

/-! ## The walk over pointers -/

/-- `GetLastStakeModifier`: the modifier and the time of the nearest block that generated one. -/
def getLastStakeModifier : List Record → Option (Nat × Nat)
  | [] => none
  | b :: rest => if b.generatedStakeModifier then some (b.nStakeModifier, b.nTime) else getLastStakeModifier rest

/-- The blocks of the window, from the block down, as the pointer walk pairs them. -/
def windowPairs (start : Int) : List Record → List (Nat × Hash)
  | [] => []
  | b :: rest => if start ≤ b.nTime then (b.nTime, b.hash) :: windowPairs start rest else []

/-- `CollectCandidatesResident`: the records of the sorted pairs, from the resident index. -/
def collectCandidatesResident (mapBlockIndex : Hash → Option Record) (pairs : List (Nat × Hash)) : List Candidate :=
  pairs.map fun pair =>
    match mapBlockIndex pair.2 with
    | some b => .ofRecord b
    | none => ⟨0, pair.2, ByteArr.zero 32, 0, false⟩

/-- `ComputeNextStakeModifier` with no navigator: `chain` is the block and its `pprev` chain. -/
def computeNextStakeModifier [Digest] (mapBlockIndex : Hash → Option Record) : List Record → NextModifier
  | [] => ⟨true, 0, true⟩
  | prev :: rest =>
    let pairs := (windowPairs (selectionIntervalStart prev.nTime) (prev :: rest)).reverse.mergeSort timeThenHash
    nextModifier prev (getLastStakeModifier (prev :: rest)) (some (collectCandidatesResident mapBlockIndex pairs))

/-! ## What the pointer walk computes -/

theorem getLastStakeModifier_eq (chain : List Record) : getLastStakeModifier chain =
      (chain.find? Record.generatedStakeModifier).map fun b => (b.nStakeModifier, b.nTime) := by
  induction chain with
  | nil => rfl
  | cons b rest ih =>
    rw [getLastStakeModifier, List.find?_cons]
    cases b.generatedStakeModifier
    · exact ih
    · rfl

/-- The blocks of the window, from the block down to the first one before it. -/
def window (start : Int) (chain : List Record) : List Record := chain.takeWhile fun b => start ≤ b.nTime

/-- The candidates both providers hand to the selection. -/
def sortedCandidates (start : Int) (chain : List Record) : List Candidate :=
  ((window start chain).map Candidate.ofRecord).reverse.mergeSort Candidate.le

private theorem windowPairs_eq (start : Int) (chain : List Record) :
    windowPairs start chain = (window start chain).map fun b => (b.nTime, b.hash) := by
  induction chain with
  | nil => rfl
  | cons b rest ih =>
    by_cases inside : start ≤ b.nTime
    · simp [windowPairs, window, inside, ih]
    · simp [windowPairs, window, inside]

variable {t : BlockTree}

/-- In a fully linked tree the resident records of the sorted pairs are the sorted candidates. -/
theorem collect_resident (inside : ∀ b ∈ chain, t.Has b) (start : Int) :
    collectCandidatesResident t.find ((windowPairs start chain).reverse.mergeSort timeThenHash) =
      sortedCandidates start chain := by
  have held : ∀ b ∈ window start chain, t.find b.hash = some b := fun b member =>
    inside b ((List.takeWhile_sublist _).subset member)
  have named : ∀ pair ∈ (windowPairs start chain).reverse, ∃ b ∈ window start chain, pair = (b.nTime, b.hash) := by
    intro pair member
    rw [List.mem_reverse, windowPairs_eq, List.mem_map] at member
    obtain ⟨b, inWindow, rfl⟩ := member
    exact ⟨b, inWindow, rfl⟩
  rw [collectCandidatesResident, List.map_mergeSort (s := Candidate.le)]
  · rw [sortedCandidates, windowPairs_eq, ← List.map_reverse, ← List.map_reverse, List.map_map]
    congr 1
    apply List.map_congr_left
    intro b member
    simp [held b (List.mem_reverse.mp member)]
  · intro pair member pair' member'
    obtain ⟨b, inWindow, rfl⟩ := named pair member
    obtain ⟨b', inWindow', rfl⟩ := named pair' member'
    simp [Candidate.le, Candidate.ofRecord, held b inWindow, held b' inWindow']

private theorem sortedCandidates_records (start : Int) : ∀ c ∈ sortedCandidates start chain, c.haveRecord = true := by
  intro c member
  rw [sortedCandidates, List.mem_mergeSort, List.mem_reverse, List.mem_map] at member
  obtain ⟨b, -, rfl⟩ := member
  rfl

private theorem sortedCandidates_distinct (distinct : (chain.map Record.hash).Nodup) (start : Int) :
    ((sortedCandidates start chain).map Candidate.hash).Nodup := by
  have perm : ((sortedCandidates start chain).map Candidate.hash).Perm ((window start chain).map Record.hash) := by
    refine ((List.mergeSort_perm _ _).trans (List.reverse_perm _)).map _ |>.trans ?_
    rw [List.map_map]
    exact .refl _
  rw [perm.nodup_iff]
  exact distinct.sublist ((List.takeWhile_sublist _).map _)

/-- Over a lineage whose blocks differ, the selection always ends with a new modifier. -/
theorem rounds_window [Digest] (distinct : (chain.map Record.hash).Nodup) (start stop : Int) (prevModifier : Nat) :
    ∃ new, rounds prevModifier (sortedCandidates start chain)
      (min 64 (sortedCandidates start chain).length) 0 stop [] 0 =
      some new := by
  apply Option.isSome_iff_exists.mp
  apply rounds_isSome prevModifier stop (sortedCandidates_records start) (sortedCandidates_distinct distinct start)
  · exact List.nodup_nil
  · simp

end Innova.Kernel
