import Innova.Lib.Flags
import Innova.Chainstate.Coin
import Mathlib.Data.List.Sort

/-! Coin selection of the wallet (`wallet.cpp`, `SelectCoinsMinConf` and `ApproximateBestSubset`).
The values of the outputs lie in the money range, and their sums are exact; a target is any
`int64_t`, so that the target with a cent of change can wrap around. -/
namespace Innova.Wallet
open Lib Lib.Flags Chainstate

def COIN : Int := 100000000
def CENT : Int := 1000000
def MAX_MONEY : Int := 18000000 * COIN

/-- `MoneyRange` of `main.h`, which every output of an accepted transaction passes. -/
def MoneyRange (nValue : Int) : Prop := 0 ≤ nValue ∧ nValue ≤ MAX_MONEY

instance (nValue : Int) : Decidable (MoneyRange nValue) := inferInstanceAs (Decidable (_ ∧ _))

/-- What is left of a sum in `int64_t`. -/
def int64 (z : Int) : Int := z.bmod (2 ^ 64)

theorem int64_eq (low : -2 ^ 63 ≤ z) (high : z < 2 ^ 63) : int64 z = z := Int.bmod_eq_of_le (by omega) (by omega)

/-- An output offered to the selection (`COutput`), with what is read of its transaction. -/
structure Output where
  outpoint : OutPoint
  nValue : Int
  inRange : MoneyRange nValue
  /-- `nTime` of the transaction. -/
  nTime : Nat
  /-- `IsFromMe(ISMINE_ALL)` of the transaction. -/
  isFromMe : Bool
  nDepth : Int
  fSpendable : Bool

abbrev sumOf (coins : List Output) : Int := total Output.nValue coins

/-! ## The stochastic search -/

/-- The variables of `ApproximateBestSubset`. -/
structure Trial where
  nTotal : Int
  vfIncluded : List Bool
  fReachedTarget : Bool
  vfBest : List Bool
  nBest : Int

namespace Trial

/-- The body of the inner loop for the coin at `i`, once it is picked. -/
def consider (nTargetValue : Int) (s : Trial) (coin : Output) (i : Nat) : Trial :=
  let nTotal := s.nTotal + coin.nValue
  let vfIncluded := s.vfIncluded.set i true
  if nTargetValue ≤ nTotal then
    { nTotal := nTotal - coin.nValue
      vfIncluded := vfIncluded.set i false
      fReachedTarget := true
      vfBest := if nTotal < s.nBest then vfIncluded else s.vfBest
      nBest := if nTotal < s.nBest then nTotal else s.nBest }
  else { s with nTotal, vfIncluded }

/-- One pass over the coins; `pick` is the condition that depends on `nPass`. -/
def pass (nTargetValue : Int) (vValue : List Output) (pick : Trial → Nat → Bool) (s : Trial) : Trial :=
  vValue.zipIdx.foldl (fun s c => if pick s c.2 then s.consider nTargetValue c.1 c.2 else s) s

/-- One repetition: a random pass, then a pass over what it left out unless the target was reached. -/
def rep (nTargetValue : Int) (vValue : List Output) (flip : Nat → Bool) (s : Trial) : Trial :=
  let fresh := { s with nTotal := 0, vfIncluded := List.replicate vValue.length false, fReachedTarget := false }
  let first := fresh.pass nTargetValue vValue fun _ i => flip i
  if first.fReachedTarget then first else first.pass nTargetValue vValue fun s i => !s.vfIncluded.getD i false

/-- The repetitions that are left, which stop as soon as the best total is the target. -/
def reps (nTargetValue : Int) (vValue : List Output) (flip : Nat → Nat → Bool) : (left : Nat) →
    (nRep : Nat) → Trial → Trial
  | 0, _, s => s
  | left + 1, nRep, s =>
    if s.nBest = nTargetValue then s else reps nTargetValue vValue flip left (nRep + 1)
      (s.rep nTargetValue vValue (flip nRep))

end Trial

/-- `ApproximateBestSubset`; `flip` is `GetRandInt(2) == 0` for each repetition and coin. -/
def approximateBestSubset (vValue : List Output) (nTotalLower nTargetValue : Int) (flip : Nat → Nat → Bool)
    (iterations : Nat) : List Bool × Int :=
  let start : Trial := ⟨0, [], false, List.replicate vValue.length true, nTotalLower⟩
  let best := start.reps nTargetValue vValue flip iterations 0
  (best.vfBest, best.nBest)

/-! ## The selection -/

/-- `colLateralDenominations` of `util.cpp`: it is defined empty and no code ever fills it. -/
def colLateralDenominations : List Int := []

section
variable (denominations : List Int)

def isDenominatedAmount (nInputAmount : Int) : Bool := denominations.contains nInputAmount

def lessThenDenom (out1 out2 : Output) : Bool :=
  !isDenominatedAmount denominations out1.nValue && isDenominatedAmount denominations out2.nValue

/-- What a call asks of an output: the spend time and the two confirmation minimums. -/
structure Request where
  nTargetValue : Int
  nSpendTime : Nat
  nConfMine : Int
  nConfTheirs : Int

/-- `nTargetValue + CENT`. -/
def Request.withChange (r : Request) : Int := int64 (r.nTargetValue + CENT)

/-- The three checks that make an output eligible. -/
def Request.eligible (r : Request) (o : Output) : Bool :=
  o.fSpendable && !decide (o.nDepth < if o.isFromMe then r.nConfMine else r.nConfTheirs) &&
    !decide (r.nSpendTime < o.nTime)

/-- The outcomes of the random choices of one call. -/
structure Luck where
  /-- `random_shuffle`. -/
  shuffle : List Output → List Output
  shuffle_perm : ∀ coins, (shuffle coins).Perm coins
  /-- The flips of the two calls of `ApproximateBestSubset`. -/
  first : Nat → Nat → Bool
  second : Nat → Nat → Bool

/-- The coins in the order in which the loop meets them. -/
def arranged (luck : Luck) (vCoins : List Output) : List Output :=
  (luck.shuffle vCoins).insertionSort fun a b => lessThenDenom denominations b a = false

/-- What the loop over the coins collects. -/
structure Gathered where
  vValue : List Output
  nTotalLower : Int
  coinLowestLarger : Option Output

/-- `coinLowestLarger.first`, which starts at the largest `int64_t`. -/
def Gathered.lowestLarger (g : Gathered) : Int :=
  match g.coinLowestLarger with
  | some coin => coin.nValue
  | none => 2 ^ 63 - 1

/-- How the loop over the coins ends: at a coin of exactly the target, or behind the last coin. -/
inductive Scan where
  | exact (coin : Output)
  | done (g : Gathered)

/-- The loop over the coins, in the turn that leaves out denominated amounts. -/
def gather (r : Request) : List Output → Gathered → Scan
  | [], g => .done g
  | coin :: rest, g =>
    if !r.eligible coin then gather r rest g
    else if isDenominatedAmount denominations coin.nValue then gather r rest g
    else if coin.nValue = r.nTargetValue then .exact coin
    else if coin.nValue < r.withChange then
      gather r rest { g with vValue := g.vValue ++ [coin], nTotalLower := g.nTotalLower + coin.nValue }
    else if coin.nValue < g.lowestLarger then gather r rest { g with coinLowestLarger := some coin }
    else gather r rest g

/-- `setCoinsRet` and `nValueRet`. -/
structure Selection where
  setCoinsRet : List Output
  nValueRet : Int

namespace Selection

/-- `setCoinsRet.insert` and `nValueRet +=`; the set takes an outpoint only once. -/
def insert (s : Selection) (coin : Output) : Selection :=
  ⟨if coin.outpoint ∈ s.setCoinsRet.map Output.outpoint then s.setCoinsRet else s.setCoinsRet ++ [coin],
    s.nValueRet + coin.nValue⟩

/-- The results after the coins were taken one after the other. -/
def ofCoins (coins : List Output) : Selection := coins.foldl insert ⟨[], 0⟩

end Selection

/-- The two searches, for the target and for the target with a cent of change. -/
def bestSubset (luck : Luck) (r : Request) (vValue : List Output) (nTotalLower : Int) : List Bool × Int :=
  let near := approximateBestSubset vValue nTotalLower r.nTargetValue luck.first 1000
  if near.2 ≠ r.nTargetValue ∧ r.withChange ≤ nTotalLower then
    approximateBestSubset vValue nTotalLower r.withChange luck.second 1000
  else near

/-- The choice once the smaller coins are known to cover the target. -/
def chooseSubset (luck : Luck) (r : Request) (g : Gathered) : Selection :=
  let vValue := g.vValue.insertionSort fun a b => b.nValue ≤ a.nValue
  let best := bestSubset luck r vValue g.nTotalLower
  match g.coinLowestLarger with
  | some coin =>
    if (best.2 ≠ r.nTargetValue ∧ best.2 < r.withChange) ∨ coin.nValue ≤ best.2 then .ofCoins [coin]
    else .ofCoins (marked vValue best.1)
  | none => .ofCoins (marked vValue best.1)

/-- `SelectCoinsMinConf`, `none` for false (its two results are then empty and 0). Every path through
the body of the `tryDenom` loop returns, so its second turn, the one that would take denominated
amounts, is never reached. -/
def selectCoinsMinConf (luck : Luck) (r : Request) (vCoins : List Output) : Option Selection :=
  match gather denominations r (arranged denominations luck vCoins) ⟨[], 0, none⟩ with
  | .exact coin => some (.ofCoins [coin])
  | .done g =>
    if g.nTotalLower = r.nTargetValue then some (.ofCoins g.vValue)
    else if g.nTotalLower < r.nTargetValue then g.coinLowestLarger.map fun coin => .ofCoins [coin]
    else some (chooseSubset luck r g)

end

/-! ## The search keeps a subset that covers its target -/

namespace Trial
variable {nTargetValue : Int} {vValue : List Output} {s : Trial}

/-- The flags and the totals belong together, and the best subset found covers the target. -/
structure Sound (nTargetValue : Int) (vValue : List Output) (s : Trial) : Prop where
  included : s.nTotal = sumOf (marked vValue s.vfIncluded)
  length : s.vfIncluded.length = vValue.length
  best : s.nBest = sumOf (marked vValue s.vfBest)
  covers : nTargetValue ≤ s.nBest

private theorem consider_sound (sound : s.Sound nTargetValue vValue) (entry : vValue[i]? = some coin)
    (off : s.vfIncluded[i]? = some false) : (s.consider nTargetValue coin i).Sound nTargetValue vValue := by
  have grown : s.nTotal + coin.nValue = sumOf (marked vValue (s.vfIncluded.set i true)) := by
    rw [sound.included, sumOf, sumOf, total_marked_set _ entry off]
  unfold consider
  dsimp only
  split
  case isTrue reached =>
    refine ⟨?_, ?_, ?_, ?_⟩
    · simp only [set_back off, add_sub_cancel_right]
      exact sound.included
    · simp only [set_back off]
      exact sound.length
    · split
      · exact grown
      · exact sound.best
    · split
      · exact reached
      · exact sound.covers
  case isFalse => exact ⟨grown, by simpa using sound.length, sound.best, sound.covers⟩

/-- A coin's turn changes no flag but its own. -/
theorem consider_other (other : j ≠ i) : (s.consider nTargetValue coin i).vfIncluded[j]? = s.vfIncluded[j]? := by
  unfold consider
  dsimp only
  split <;> simp [List.getElem?_set_ne other.symm]

/-- The random pass meets every coin with its flag still off. -/
theorem pass_random (flip : Nat → Bool) (sound : s.Sound nTargetValue vValue)
    (off : ∀ j < vValue.length, s.vfIncluded[j]? = some false) :
    (s.pass nTargetValue vValue fun _ i => flip i).Sound nTargetValue vValue := by
  let inv (i : Nat) (s : Trial) : Prop :=
    s.Sound nTargetValue vValue ∧ ∀ j, i ≤ j → j < vValue.length → s.vfIncluded[j]? = some false
  have run : inv vValue.length (s.pass nTargetValue vValue fun _ i => flip i) := by
    apply foldl_zipIdx inv ⟨sound, fun j _ inside => off j inside⟩
    rintro i coin s entry ⟨sound, later⟩
    obtain ⟨inside, -⟩ := List.getElem?_eq_some_iff.mp entry
    split
    · refine ⟨consider_sound sound entry (later i le_rfl inside), fun j past inside => ?_⟩
      rw [consider_other (by omega)]
      exact later j (by omega) inside
    · exact ⟨sound, fun j past => later j (by omega)⟩
  exact run.1

/-- The second pass takes only coins whose flag is off. -/
theorem pass_left (sound : s.Sound nTargetValue vValue) :
    (s.pass nTargetValue vValue fun s i => !s.vfIncluded.getD i false).Sound nTargetValue vValue := by
  refine foldl_zipIdx (fun _ => Sound nTargetValue vValue) sound fun i coin s entry sound => ?_
  split
  case isTrue picked =>
    obtain ⟨inside, -⟩ := List.getElem?_eq_some_iff.mp entry
    have known : i < s.vfIncluded.length := sound.length ▸ inside
    have off : s.vfIncluded[i]? = some false := by
      simp only [List.getD_eq_getElem?_getD, List.getElem?_eq_getElem known, Option.getD_some,
        Bool.not_eq_true'] at picked
      rw [List.getElem?_eq_getElem known, picked]
    exact consider_sound sound entry off
  case isFalse => exact sound

private theorem rep_sound (flip : Nat → Bool) (best : s.nBest = sumOf (marked vValue s.vfBest))
    (covers : nTargetValue ≤ s.nBest) :
    (s.rep nTargetValue vValue flip).Sound nTargetValue vValue := by
  have first :=
    pass_random (s := { s with nTotal := 0, vfIncluded := List.replicate vValue.length false, fReachedTarget := false })
    flip ⟨by simp, by simp, best, covers⟩ (fun j inside => by simp [inside])
  unfold rep
  dsimp only
  split
  · exact first
  · exact pass_left first

private theorem reps_covers (flip : Nat → Nat → Bool) (left nRep : Nat)
    (best : s.nBest = sumOf (marked vValue s.vfBest)) (covers : nTargetValue ≤ s.nBest) :
    (s.reps nTargetValue vValue flip left nRep).nBest = sumOf
    (marked vValue (s.reps nTargetValue vValue flip left nRep).vfBest) ∧
      nTargetValue ≤ (s.reps nTargetValue vValue flip left nRep).nBest := by
  induction left generalizing nRep s with
  | zero => exact ⟨best, covers⟩
  | succ left ih =>
    unfold reps
    split
    · exact ⟨best, covers⟩
    · have next := rep_sound (flip nRep) best covers
      exact ih _ next.best next.covers

end Trial

/-- The search answers a subset of the coins with its total, which covers the target. -/
theorem approximateBestSubset_covers (flip : Nat → Nat → Bool) (iterations : Nat)
    (enough : nTargetValue ≤ sumOf vValue) :
    let best := approximateBestSubset vValue (sumOf vValue) nTargetValue flip iterations
    best.2 = sumOf (marked vValue best.1) ∧ nTargetValue ≤ best.2 :=
  Trial.reps_covers flip iterations 0 (by simp) enough

/-! ## What the loop over the coins collects -/

section
variable {denominations : List Int} {r : Request}

/-- The coins the loop does not pass over. -/
def offered (denominations : List Int) (r : Request) (coins : List Output) : List Output :=
  coins.filter fun o => r.eligible o && !isDenominatedAmount denominations o.nValue

def Request.small (r : Request) (o : Output) : Bool := decide (o.nValue < r.withChange)

/-- The target with a cent of change does not wrap around. -/
def Request.Fits (r : Request) : Prop := r.withChange = r.nTargetValue + CENT

private theorem Output.below_max (o : Output) : o.nValue < 2 ^ 63 - 1 := by
  have bound := o.inRange.2
  simp only [MAX_MONEY, COIN] at bound
  omega

/-- What the loop has collected when it is behind the last coin. -/
structure Collected (denominations : List Int) (r : Request) (coins : List Output) (g g' : Gathered) : Prop where
  vValue : g'.vValue = g.vValue ++ (offered denominations r coins).filter r.small
  nTotalLower : g'.nTotalLower = g.nTotalLower + sumOf ((offered denominations r coins).filter r.small)
  larger : ∀ coin, g'.coinLowestLarger = some coin →
    g.coinLowestLarger = some coin ∨ coin ∈ offered denominations r coins ∧ r.small coin = false
  missing : g'.coinLowestLarger = none → g.coinLowestLarger = none ∧ ∀ o ∈ offered denominations r coins,
    r.small o = true

private theorem offered_cons_skip (skip : (r.eligible coin && !isDenominatedAmount denominations coin.nValue) = false) :
    offered denominations r (coin :: rest) = offered denominations r rest := by
  simp [offered, skip]

private theorem offered_cons (fits : r.eligible coin = true)
    (plain : isDenominatedAmount denominations coin.nValue = false) :
    offered denominations r (coin :: rest) = coin :: offered denominations r rest := by
  simp [offered, fits, plain]

namespace Collected
private theorem skip (offer : offered denominations r (coin :: rest) = offered denominations r rest)
    (collected : Collected denominations r rest g g') : Collected denominations r (coin :: rest) g g' := by
  constructor <;> rw [offer]
  exacts [collected.vValue, collected.nTotalLower, collected.larger, collected.missing]

section
variable (offer : offered denominations r (coin :: rest) = coin :: offered denominations r rest)
include offer

private theorem small (small : r.small coin = true) (collected : Collected denominations r rest
      { g with vValue := g.vValue ++ [coin], nTotalLower := g.nTotalLower + coin.nValue } g') :
    Collected denominations r (coin :: rest) g g' where
  vValue := by rw [offer, List.filter_cons_of_pos small, collected.vValue, List.append_assoc, List.singleton_append]
  nTotalLower := by rw [offer, List.filter_cons_of_pos small, collected.nTotalLower, sumOf, sumOf,
    total_cons, add_assoc]
  larger o found := by
    rw [offer]
    exact (collected.larger o found).imp_right fun ⟨inside, large⟩ => ⟨List.mem_cons_of_mem _ inside, large⟩
  missing found := by
    rw [offer, List.forall_mem_cons]
    exact ⟨(collected.missing found).1, small, (collected.missing found).2⟩

/-- A larger coin is kept when it is the lowest so far, and passed over only when there is a lower one already. -/
theorem large (large : r.small coin = false) (kept : lowest = some coin ∨ lowest = g.coinLowestLarger)
    (some : lowest ≠ none)
    (collected : Collected denominations r rest { g with coinLowestLarger := lowest } g') :
    Collected denominations r (coin :: rest) g g' where
  vValue := by rw [offer, List.filter_cons_of_neg (by simp [large]), collected.vValue]
  nTotalLower := by rw [offer, List.filter_cons_of_neg (by simp [large]), collected.nTotalLower]
  larger o found := by
    rw [offer]
    rcases collected.larger o found with same | ⟨inside, big⟩
    · rcases kept with rfl | rfl
      · cases same
        exact Or.inr ⟨List.mem_cons_self, large⟩
      · exact Or.inl same
    · exact Or.inr ⟨List.mem_cons_of_mem _ inside, big⟩
  missing found := absurd (collected.missing found).1 some

end

end Collected

/-- A coin that is not lower than the lowest larger one leaves one. -/
theorem Gathered.found_of_lowest {g : Gathered} {coin : Output} (kept : ¬ coin.nValue < g.lowestLarger) :
    g.coinLowestLarger ≠ none := by
  intro unset
  have below := coin.below_max
  simp [Gathered.lowestLarger, unset] at kept
  omega

private theorem gather_done (ended : gather denominations r coins g = .done g') :
    Collected denominations r coins g g' := by
  induction coins generalizing g with
  | nil =>
    obtain rfl : g = g' := by simpa [gather] using ended
    exact ⟨by simp [offered], by simp [offered], fun _ => Or.inl, fun unset => ⟨unset, by simp [offered]⟩⟩
  | cons coin rest ih =>
    unfold gather at ended
    split at ended
    case isTrue unfit => exact (ih ended).skip (offered_cons_skip (by simp_all))
    case isFalse fits =>
      split at ended
      case isTrue denominated => exact (ih ended).skip (offered_cons_skip (by simp_all))
      case isFalse plain =>
        have offer : offered denominations r (coin :: rest) = coin :: offered denominations r rest :=
          offered_cons (by simpa using fits) (by simpa using plain)
        split at ended
        case isTrue => cases ended
        case isFalse =>
          split at ended
          case isTrue small => exact (ih ended).small offer (by simpa [Request.small] using small)
          case isFalse large =>
            have large : r.small coin = false := by simpa [Request.small] using large
            split at ended
            · exact (ih ended).large offer large (.inl rfl) nofun
            case isFalse kept => exact Collected.large offer large (.inr rfl) (Gathered.found_of_lowest kept) (ih ended)

private theorem gather_exact (ended : gather denominations r coins g = .exact coin) :
    coin ∈ offered denominations r coins ∧ coin.nValue = r.nTargetValue := by
  induction coins generalizing g with
  | nil => cases ended
  | cons first rest ih =>
    have deeper {g : Gathered} (ended : gather denominations r rest g = .exact coin) :
        coin ∈ offered denominations r (first :: rest) ∧ coin.nValue = r.nTargetValue := by
      refine ⟨?_, (ih ended).2⟩
      rw [offered, List.filter_cons]
      split
      · exact List.mem_cons_of_mem _ (ih ended).1
      · exact (ih ended).1
    unfold gather at ended
    split at ended
    · exact deeper ended
    case isFalse fits =>
      split at ended
      · exact deeper ended
      case isFalse plain =>
        split at ended
        case isTrue same =>
          obtain rfl : first = coin := by simpa using ended
          rw [offered_cons (by simpa using fits) (by simpa using plain)]
          exact ⟨List.mem_cons_self, same⟩
        case isFalse =>
          split at ended
          · exact deeper ended
          · split at ended <;> exact deeper ended

/-! ## Soundness and completeness -/

variable {luck : Luck} {vCoins : List Output} {s : Selection}

private theorem arranged_perm (denominations : List Int) (luck : Luck) (vCoins : List Output) :
    (arranged denominations luck vCoins).Perm vCoins :=
  (List.perm_insertionSort _ _).trans (luck.shuffle_perm vCoins)

private theorem offered_arranged (denominations : List Int) (r : Request) (luck : Luck) (vCoins : List Output) :
    (offered denominations r (arranged denominations luck vCoins)).Perm (offered denominations r vCoins) :=
  (arranged_perm denominations luck vCoins).filter _

namespace Selection

private theorem foldl_insert (distinct : ((s.setCoinsRet ++ coins).map Output.outpoint).Nodup) :
    coins.foldl insert s = ⟨s.setCoinsRet ++ coins, s.nValueRet + sumOf coins⟩ := by
  induction coins generalizing s with
  | nil => simp [sumOf]
  | cons coin rest ih =>
    have fresh : coin.outpoint ∉ s.setCoinsRet.map Output.outpoint := by
      rw [List.map_append, List.nodup_append'] at distinct
      exact fun inside => distinct.2.2 inside (by simp)
    have taken : s.insert coin =
      ⟨s.setCoinsRet ++ [coin], s.nValueRet + coin.nValue⟩ := by simp only [insert, if_neg fresh]
    rw [List.foldl_cons, taken, ih (by simpa using distinct)]
    simp [sumOf, add_assoc]

/-- Distinct coins are all taken, and `nValueRet` is their total. -/
theorem ofCoins_distinct (distinct : (coins.map Output.outpoint).Nodup) : ofCoins coins = ⟨coins, sumOf coins⟩ := by
  have start : (((⟨[], 0⟩ : Selection).setCoinsRet ++ coins).map Output.outpoint).Nodup := distinct
  simpa [ofCoins] using foldl_insert start

/-- The selection is made of coins that were offered, and they cover a target that fits. -/
def Covers (denominations : List Int) (r : Request) (vCoins : List Output) (s : Selection) : Prop :=
  ∃ coins : List Output, s = ofCoins coins ∧ coins.Subperm (offered denominations r vCoins) ∧
    (r.Fits → r.nTargetValue ≤ sumOf coins)

private theorem covers_single (inside : coin ∈ offered denominations r vCoins)
    (enough : r.Fits → r.nTargetValue ≤ coin.nValue) :
    (ofCoins [coin]).Covers denominations r vCoins :=
  ⟨[coin], rfl, List.singleton_subperm_iff.mpr inside, by simpa [sumOf] using enough⟩

end Selection

private theorem bestSubset_covers (luck : Luck) (enough : r.nTargetValue ≤ sumOf vValue) :
    let best := bestSubset luck r vValue (sumOf vValue)
    best.2 = sumOf (marked vValue best.1) ∧ (r.Fits → r.nTargetValue ≤ best.2) := by
  unfold bestSubset
  dsimp only
  split
  case isTrue far =>
    have found := approximateBestSubset_covers luck.second 1000 far.2
    refine ⟨found.1, fun fits => le_trans ?_ found.2⟩
    rw [fits]
    simp [CENT]
  case isFalse =>
    have found := approximateBestSubset_covers luck.first 1000 enough
    exact ⟨found.1, fun _ => found.2⟩

private theorem chooseSubset_covers (lower : g.vValue.Subperm (offered denominations r vCoins))
    (larger : ∀ coin, g.coinLowestLarger = some coin →
      coin ∈ offered denominations r vCoins ∧ (r.Fits → r.nTargetValue ≤ coin.nValue))
    (counted : g.nTotalLower = sumOf g.vValue) (enough : r.nTargetValue ≤ g.nTotalLower) :
    (chooseSubset luck r g).Covers denominations r vCoins := by
  have sorted := List.perm_insertionSort (fun a b : Output => b.nValue ≤ a.nValue) g.vValue
  have total : g.nTotalLower = sumOf (g.vValue.insertionSort fun a b => b.nValue ≤ a.nValue) := by
    rw [counted, sumOf, sumOf, total_perm _ sorted]
  have best := bestSubset_covers luck (total ▸ enough)
  rw [← total] at best
  have subset : (Selection.ofCoins (marked (g.vValue.insertionSort fun a b => b.nValue ≤ a.nValue)
      (bestSubset luck r (g.vValue.insertionSort fun a b => b.nValue ≤ a.nValue) g.nTotalLower).1)).Covers
        denominations r vCoins :=
    ⟨_, rfl, (marked_sublist _ _).subperm.trans (sorted.subperm.trans lower), best.1 ▸ best.2⟩
  unfold chooseSubset
  split
  case h_1 coin found =>
    dsimp only
    split
    · exact Selection.covers_single (larger coin found).1 (larger coin found).2
    · exact subset
  case h_2 => exact subset

theorem selectCoinsMinConf_covers (chosen : selectCoinsMinConf denominations luck r vCoins = some s) :
    s.Covers denominations r vCoins := by
  have same := offered_arranged denominations r luck vCoins
  unfold selectCoinsMinConf at chosen
  split at chosen
  case h_1 coin ended =>
    obtain ⟨inside, value⟩ := gather_exact ended
    obtain rfl := Option.some.inj chosen
    exact Selection.covers_single (same.mem_iff.mp inside) fun _ => value.ge
  case h_2 g ended =>
    have collected := gather_done ended
    have lower : g.vValue.Subperm (offered denominations r vCoins) := by
      rw [collected.vValue]
      exact List.filter_sublist.subperm.trans same.subperm
    have counted : g.nTotalLower = sumOf g.vValue := by
      rw [collected.nTotalLower, collected.vValue, List.nil_append, zero_add]
    have larger (coin : Output) (found : g.coinLowestLarger = some coin) :
        coin ∈ offered denominations r vCoins ∧ (r.Fits → r.nTargetValue ≤ coin.nValue) := by
      rcases collected.larger coin found with unset | ⟨inside, large⟩
      · cases unset
      · have beyond : ¬ coin.nValue < r.withChange := of_decide_eq_false large
        refine ⟨same.mem_iff.mp inside, fun fits => ?_⟩
        rw [fits, CENT] at beyond
        omega
    split at chosen
    case isTrue exactly =>
      obtain rfl := Option.some.inj chosen
      exact ⟨g.vValue, rfl, lower, fun _ => by omega⟩
    case isFalse =>
      split at chosen
      case isTrue =>
        obtain ⟨coin, found, rfl⟩ := Option.map_eq_some_iff.mp chosen
        exact Selection.covers_single (larger coin found).1 (larger coin found).2
      case isFalse enough =>
        obtain rfl := Option.some.inj chosen
        exact chooseSubset_covers lower larger counted (by omega)

namespace Purse

/-- A coin with ten confirmations at output `n` of one transaction. -/
def coin (n : UInt32) (nValue : Int) (inRange : MoneyRange nValue) : Output :=
  ⟨⟨ByteArr.zero 32, n⟩, nValue, inRange, 5, false, 10, true⟩

def coins : List Output :=
  [coin 0 (3 * CENT) (by decide), coin 1 (9 * CENT) (by decide), { coin 2 CENT (by decide) with nDepth := 2 }]

def request (nTargetValue : Int) : Request := ⟨nTargetValue, 7, 1, 10⟩

/-- No shuffling, and every coin flip comes out the same. -/
def steady : Luck := ⟨id, fun _ => .refl _, fun _ _ => true, fun _ _ => true⟩

/-- The total of what is chosen for a target. -/
def chosen (nTargetValue : Int) : Option Int :=
  (selectCoinsMinConf colLateralDenominations steady (request nTargetValue) coins).map (·.nValueRet)

end Purse

end
end Innova.Wallet
