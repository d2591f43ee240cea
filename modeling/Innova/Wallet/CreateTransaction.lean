import Innova.Wallet.Ledger
import Mathlib.Data.Finset.Basic
import Mathlib.Data.Finset.Lattice.Lemmas
import Mathlib.Algebra.Order.BigOperators.Group.List
import Mathlib.Tactic.Linarith

/-! Building a payment (`wallet.cpp`, `CreateTransaction` and what it calls): the loop over the fee, the
splitting of the payments, the change output, and the coins that are locked on the way. -/
namespace Innova.Wallet
open Lib Lib.Flags Chainstate

variable {S : Type}

/-! ## Fees -/

def MIN_TX_FEE : Int := 1000
def MIN_RELAY_TX_FEE : Int := MIN_TX_FEE
def MIN_TX_FEE_ANON : Int := 10000
def MAX_BLOCK_SIZE : Nat := 1000000
def MAX_BLOCK_SIZE_GEN : Nat := MAX_BLOCK_SIZE / 2

/-- `GetMinFee_mode`. -/
inductive FeeMode where
  | block | relay | send | anon
deriving DecidableEq, Repr

def FeeMode.nBaseFee : FeeMode → Int
  | .relay => MIN_RELAY_TX_FEE
  | .anon => MIN_TX_FEE_ANON
  | _ => MIN_TX_FEE

/-- `GetMinFee` of a transaction with these outputs. -/
def getMinFee (vout : List (TxOut S)) (nBlockSize : Nat) (mode : FeeMode) (nBytes : Nat) : Int :=
  let nNewBlockSize := (nBlockSize + nBytes) % 2 ^ 32
  let bySize := (1 + (nBytes / 1000 : Nat)) * mode.nBaseFee
  -- the rule against dust: a fee by size is never below the base fee
  let nMinFee := if bySize < mode.nBaseFee ∧ vout.any (fun out => out.nValue < CENT) then mode.nBaseFee else bySize
  if mode ≠ .anon ∧ nBlockSize ≠ 1 ∧ MAX_BLOCK_SIZE_GEN / 2 ≤ nNewBlockSize then
    if MAX_BLOCK_SIZE_GEN ≤ nNewBlockSize then MAX_MONEY
    else
      let raised := nMinFee * (MAX_BLOCK_SIZE_GEN / (MAX_BLOCK_SIZE_GEN - nNewBlockSize) : Nat)
      if MoneyRange raised then raised else MAX_MONEY
  else if MoneyRange nMinFee then nMinFee else MAX_MONEY

/-! ## The call -/

/-- The arguments of the call and the wallet it reads. The transaction it fills is a fresh one, as at
every caller: it reserves no coins yet. -/
structure Call (S : Type) where
  ledger : Ledger S
  isMine : S → IsMine
  standing : WalletTx S → Standing
  nMinimumInputValue : Int
  nTransactionFee : Int
  vecSend : List (S × Int)
  /-- `wtxNew.nTime`. -/
  nTime : Nat
  coinControl : Option (CoinControl S)
  /-- `scriptChangeOverride`, none also for an empty script. -/
  scriptChangeOverride : Option S

def Call.offer (c : Call S) : Offer S := ⟨c.isMine, c.standing, c.nMinimumInputValue, true, c.coinControl⟩

/-- What one turn of the loop meets outside of it. -/
structure Turn (S : Type) where
  /-- The random choices of the three calls of `SelectCoinsMinConf`. -/
  luck : Fin 3 → Luck
  /-- The script of the key `GetReservedKey` answers. -/
  changeKey : Option S
  /-- `GetRandInt` of the number of outputs and one more. -/
  position : Nat → Nat
  position_le : ∀ n, position n ≤ n
  /-- The distance to an iterator that the insertion of the change has invalidated. -/
  distance : Int
  /-- `SignSignature` for each input. -/
  signs : Nat → Bool
  /-- The serialised size of the signed transaction. -/
  nBytes : Nat

/-- The transaction under construction and the other variables of the call. -/
structure Draft (S : Type) where
  vin : List OutPoint
  vout : List (TxOut S)
  vReservedCoins : List OutPoint
  setLockedCoins : Finset OutPoint
  nFeeRet : Int
  nChangePos : Int
  /-- Where the last turn put its change. -/
  change : Option Nat
  nBytes : Nat

/-- `SelectCoins`. -/
def selectCoins (c : Call S) (t : Turn S) (setLockedCoins : Finset OutPoint) (nTargetValue : Int) : Option Selection :=
  let vCoins := availableCoins c.offer setLockedCoins c.ledger
  if (c.coinControl.any fun control => !control.setSelected.isEmpty) = true then
    -- coin control: everything that is selected goes into the transaction
    let all := Selection.ofCoins vCoins
    if nTargetValue ≤ all.nValueRet then some all else none
  else
    (selectCoinsMinConf colLateralDenominations (t.luck 0) ⟨nTargetValue, c.nTime, 1, 10⟩ vCoins).or
      ((selectCoinsMinConf colLateralDenominations (t.luck 1) ⟨nTargetValue, c.nTime, 1, 1⟩ vCoins).or
        (selectCoinsMinConf colLateralDenominations (t.luck 2) ⟨nTargetValue, c.nTime, 0, 1⟩ vCoins))

namespace Draft

/-- `UnlockReservedCoins`. -/
def unlockReservedCoins (d : Draft S) : Draft S :=
  { d with
    setLockedCoins :=
      d.vReservedCoins.foldl (fun locked o => if o ∈ locked then locked.erase o else locked) d.setLockedCoins
    vReservedCoins := [] }

/-- Locks and reserves a chosen coin unless it is locked already. -/
def lockCoin (d : Draft S) (coin : Output) : Draft S :=
  if coin.outpoint ∈ d.setLockedCoins then d
  else
    { d with
      setLockedCoins := insert coin.outpoint d.setLockedCoins, vReservedCoins := d.vReservedCoins ++ [coin.outpoint] }

def lockCoins (d : Draft S) (coins : List Output) : Draft S := coins.foldl lockCoin d

end Draft

/-! ## The outputs -/

/-- The outputs of one payment under the splitter; the last one takes the remainder. -/
def splitPayment (nSplitBlock : Int) (s : S × Int) : List (TxOut S) :=
  (List.range nSplitBlock.toNat).map fun i : Nat =>
    if (i : Int) = nSplitBlock - 1 then ⟨s.2.tdiv nSplitBlock + s.2.tmod nSplitBlock, s.1⟩
    else ⟨s.2.tdiv nSplitBlock, s.1⟩

/-- The outputs to the payees. Without coin control the splitter runs with one part. -/
def Call.payees (c : Call S) : List (TxOut S) :=
  match c.coinControl with
  | some control =>
    if control.fSplitBlock then c.vecSend.flatMap (splitPayment control.nSplitBlock)
    else c.vecSend.map fun s => ⟨s.2, s.1⟩
  | none => c.vecSend.flatMap (splitPayment 1)

/-- Moves the change back before the narration outputs it would separate from their payment. -/
def beforeNarration (vout : List (TxOut S)) : Nat → Nat
  | 0 => 0
  | p + 1 => if (vout[p + 1]?.map TxOut.nValue) = some 0 then beforeNarration vout p else p + 1

/-- Where the change is inserted. -/
def changePosition (vout : List (TxOut S)) (position : Nat) : Nat :=
  if 0 < position ∧ position < vout.length then beforeNarration vout position else position

/-- The script of the change; none when the key pool ran out. -/
def changeScript (c : Call S) (t : Turn S) : Option S :=
  match c.scriptChangeOverride with
  | some script => some script
  | none =>
    match c.coinControl.bind CoinControl.destChange with
    | some script => some script
    | none => t.changeKey

def addChange (c : Call S) (t : Turn S) (nChange : Int) (d : Draft S) : Except String (Draft S) :=
  if 0 < nChange then
    match changeScript c t with
    | none => .error "Keypool ran out, please call keypoolrefill first"
    | some script =>
      if d.vout.isEmpty then .error "Transaction has no outputs"
      else
        let position := changePosition d.vout (t.position d.vout.length)
        .ok { d with
          vout := d.vout.insertIdx position ⟨nChange, script⟩, nChangePos := t.distance, change := some position }
  else .ok { d with change := none }

/-! ## The loop -/

/-- How a turn of the loop ends. -/
inductive Ended (S : Type) where
  | failed (reason : String) (d : Draft S)
  | again (d : Draft S)
  | created (d : Draft S)

/-- `max(nPayFee, nMinFee)` for the signed transaction, exact for a fee in the money range. -/
def requiredFee (c : Call S) (vout : List (TxOut S)) (nBytes : Nat) : Int :=
  max (c.nTransactionFee * (1 + (nBytes / 1000 : Nat))) (getMinFee vout 1 .send nBytes)

/-- The inputs, the signatures, the size and the fee. -/
def signAndCheck (c : Call S) (t : Turn S) (coins : List Output) (d : Draft S) : Ended S :=
  let d := { d with vin := coins.map Output.outpoint }
  if !(List.range coins.length).all t.signs then .failed "Signing transaction failed" d
  else
    let d := { d with nBytes := t.nBytes }
    if MAX_BLOCK_SIZE_GEN / 5 ≤ t.nBytes then .failed "Transaction too large" d
    else if d.nFeeRet < requiredFee c d.vout t.nBytes then .again { d with nFeeRet := requiredFee c d.vout t.nBytes }
    else .created d

/-- What is moved from the change to the fee. -/
def moveToFee (nFeeRet nChange : Int) : Int :=
  if nFeeRet < MIN_TX_FEE ∧ 0 < nChange ∧ nChange < CENT then min nChange (MIN_TX_FEE - nFeeRet) else 0

/-- The turn once the coins are chosen. -/
def spend (c : Call S) (t : Turn S) (nValue : Int) (s : Selection) (d : Draft S) : Ended S :=
  if s.nValueRet < int64 (nValue + d.nFeeRet) then .failed "Insufficient funds for fee" d
  else
    let nChange := int64 (int64 (s.nValueRet - nValue) - d.nFeeRet)
    let nMoveToFee := moveToFee d.nFeeRet nChange
    let d := { d with nFeeRet := d.nFeeRet + nMoveToFee }
    match addChange c t (nChange - nMoveToFee) d with
    | .error reason => .failed reason d
    | .ok d => signAndCheck c t s.setCoinsRet d

/-- The head of a turn: the payees alone, and the reservations of the turn before given back. -/
def Draft.restart (c : Call S) (d : Draft S) : Draft S := { d with vin := [], vout := c.payees }.unlockReservedCoins

def turn (c : Call S) (t : Turn S) (nValue : Int) (d : Draft S) : Ended S :=
  let d := d.restart c
  match selectCoins c t d.setLockedCoins (int64 (nValue + d.nFeeRet)) with
  | none => .failed "Insufficient funds" d
  | some s => spend c t nValue s (d.lockCoins s.setCoinsRet)

/-- The result of the call: the reason when it is false, and the state behind it. -/
structure Answer (S : Type) where
  failure : Option String
  draft : Draft S

/-- The loop; a failure runs the rollback of the reservations. -/
def feeLoop (c : Call S) (turns : Nat → Turn S) (nValue : Int) : (fuel : Nat) → (n : Nat) → Draft S → Option (Answer S)
  | 0, _, _ => none
  | fuel + 1, n, d =>
    match turn c (turns n) nValue d with
    | .failed reason d => some ⟨some reason, d.unlockReservedCoins⟩
    | .again d => feeLoop c turns nValue fuel (n + 1) d
    | .created d => some ⟨none, d⟩

/-- The sum of the payments in `int64_t`; none when it was negative on the way or at the end. -/
def sumPayments (nValue : Int) : List (S × Int) → Option Int
  | [] => if nValue < 0 then none else some nValue
  | s :: rest => if nValue < 0 then none else sumPayments (int64 (nValue + s.2)) rest

/-- `CreateTransaction`, with a bound on the turns of its loop. -/
def createTransaction (c : Call S) (turns : Nat → Turn S) (setLockedCoins : Finset OutPoint)
    (nChangePos : Int) (fuel : Nat) :
    Option (Answer S) :=
  let fresh : Draft S := ⟨[], [], [], setLockedCoins, c.nTransactionFee, nChangePos, none, 0⟩
  match sumPayments 0 c.vecSend with
  | some nValue =>
    if c.vecSend.isEmpty then some ⟨some "Transaction amounts must be positive", fresh⟩
    else feeLoop c turns nValue fuel 0 fresh
  | none => some ⟨some "Transaction amounts must be positive", fresh⟩

/-! ## The chosen coins -/

section
variable {c : Call S} {setLockedCoins : Finset OutPoint} {s : Selection}

/-- What a selection is for its caller: distinct coins of the offer, and their total. -/
structure Selection.Pays (vCoins : List Output) (s : Selection) : Prop where
  distinct : (s.setCoinsRet.map Output.outpoint).Nodup
  inside : s.setCoinsRet.Subperm vCoins
  counted : sumOf s.setCoinsRet = s.nValueRet

private theorem minConf_pays (distinct : (vCoins.map Output.outpoint).Nodup)
    (chosen : selectCoinsMinConf colLateralDenominations luck r vCoins = some s) : s.Pays vCoins := by
  obtain ⟨coins, rfl, inside, -⟩ := selectCoinsMinConf_covers chosen
  have inside := inside.trans List.filter_sublist.subperm
  obtain ⟨ordered, same, kept⟩ := inside
  have distinct : (coins.map Output.outpoint).Nodup :=
    (same.map Output.outpoint).nodup_iff.mp ((kept.map Output.outpoint).nodup distinct)
  rw [Selection.ofCoins_distinct distinct]
  exact ⟨distinct, ⟨ordered, same, kept⟩, rfl⟩

private theorem selectCoins_pays (chosen : selectCoins c t setLockedCoins nTargetValue = some s) :
    s.Pays (availableCoins c.offer setLockedCoins c.ledger) := by
  have distinct := available_distinct c.offer setLockedCoins c.ledger
  unfold selectCoins at chosen
  dsimp only at chosen
  split at chosen
  · split at chosen
    case isTrue =>
      obtain rfl := Option.some.inj chosen
      rw [Selection.ofCoins_distinct distinct]
      exact ⟨distinct, .refl _, rfl⟩
    case isFalse => cases chosen
  · rcases Option.or_eq_some_iff.mp chosen with chosen | ⟨-, chosen⟩
    · exact minConf_pays distinct chosen
    · rcases Option.or_eq_some_iff.mp chosen with chosen | ⟨-, chosen⟩ <;> exact minConf_pays distinct chosen

/-- Some of the coins are worth no more than all of them. -/
theorem sumOf_subperm (inside : coins.Subperm vCoins) : 0 ≤ sumOf coins ∧ sumOf coins ≤ sumOf vCoins := by
  have nonneg (coins : List Output) : ∀ value ∈ coins.map Output.nValue, 0 ≤ value := by
    intro value held
    obtain ⟨coin, -, rfl⟩ := List.mem_map.mp held
    exact coin.inRange.1
  obtain ⟨ordered, same, kept⟩ := inside
  rw [sumOf, ← total_perm _ same]
  exact ⟨List.sum_nonneg (nonneg _), (kept.map Output.nValue).sum_le_sum (nonneg _)⟩

/-! ## The locks -/

namespace Draft
variable {d : Draft S} {kept : Finset OutPoint}

/-- The locks are those from before the call and the reserved coins, which were not locked then. -/
structure Holds (kept : Finset OutPoint) (d : Draft S) : Prop where
  locked : d.setLockedCoins = kept ∪ d.vReservedCoins.toFinset
  fresh : ∀ o ∈ d.vReservedCoins, o ∉ kept

private theorem unlock_fold (reserved : List OutPoint) (locked : Finset OutPoint) :
    reserved.foldl (fun locked o => if o ∈ locked then locked.erase o else locked) locked =
      locked \ reserved.toFinset := by
  induction reserved generalizing locked with
  | nil => simp
  | cons o rest ih =>
    have erased : (if o ∈ locked then locked.erase o else locked) = locked.erase o := by
      split
      · rfl
      case isFalse out => exact (Finset.erase_eq_of_notMem out).symm
    rw [List.foldl_cons, erased, ih, List.toFinset_cons]
    ext x
    simp only [Finset.mem_sdiff, Finset.mem_erase, Finset.mem_insert]
    tauto

/-- Unlocking what is reserved gives back the locks from before the call. -/
theorem unlocked (holds : d.Holds kept) : d.unlockReservedCoins.setLockedCoins = kept := by
  rw [unlockReservedCoins, unlock_fold, holds.locked]
  ext x
  simp only [Finset.mem_sdiff, Finset.mem_union, List.mem_toFinset]
  constructor
  · tauto
  · exact fun inside => ⟨Or.inl inside, fun reserved => holds.fresh x reserved inside⟩

private theorem lockCoins_fresh (distinct : (coins.map Output.outpoint).Nodup)
    (free : ∀ coin ∈ coins, coin.outpoint ∉ d.setLockedCoins) :
    d.lockCoins coins = { d with
        setLockedCoins := d.setLockedCoins ∪ (coins.map Output.outpoint).toFinset
        vReservedCoins := d.vReservedCoins ++ coins.map Output.outpoint } := by
  induction coins generalizing d with
  | nil => simp [lockCoins]
  | cons coin rest ih =>
    obtain ⟨unseen, distinct⟩ := List.nodup_cons.mp distinct
    have first : d.lockCoin coin =
        { d with
          setLockedCoins := insert coin.outpoint d.setLockedCoins
          vReservedCoins := d.vReservedCoins ++ [coin.outpoint] } := if_neg (free coin List.mem_cons_self)
    have later : ∀ other ∈ rest, other.outpoint ∉ (d.lockCoin coin).setLockedCoins := by
      intro other held
      rw [first, Finset.mem_insert, not_or]
      exact ⟨fun same => unseen (same ▸ List.mem_map_of_mem held), free other (List.mem_cons_of_mem _ held)⟩
    have run := ih distinct later
    rw [first] at run
    rw [lockCoins, List.foldl_cons, first]
    simp only [lockCoins] at run
    rw [run]
    simp [Finset.insert_union]

end Draft

/-! ## The outputs to the payees -/

/-- The amounts asked for a script. -/
def asked [DecidableEq S] (script : S) (vecSend : List (S × Int)) : Int :=
  total Prod.snd (vecSend.filter fun s => s.1 = script)

/-- The amounts paid to a script. -/
def paidTo [DecidableEq S] (script : S) (outs : List (TxOut S)) : Int :=
  total TxOut.nValue (outs.filter fun out => out.scriptPubKey = script)

/-- The splitter is off, or it splits into at least one part. -/
def Call.SplitsInto (c : Call S) : Prop :=
  ∀ control, c.coinControl = some control → control.fSplitBlock = true → 1 ≤ control.nSplitBlock

private theorem splitPayment_script {s : S × Int} (inside : out ∈ splitPayment n s) : out.scriptPubKey = s.1 := by
  obtain ⟨i, -, rfl⟩ := List.mem_map.mp inside
  split <;> rfl

private theorem splitPayment_total (some : 1 ≤ n) (s : S × Int) : total TxOut.nValue (splitPayment n s) = s.2 := by
  obtain ⟨parts, rfl⟩ : ∃ parts : Nat, n = parts + 1 := ⟨(n - 1).toNat, by omega⟩
  have count : ((parts : Int) + 1).toNat = parts + 1 := by omega
  have equal : ((List.range parts).map fun i : Nat =>
      (if (i : Int) = (parts : Int) + 1 - 1 then (⟨s.2.tdiv (parts + 1) + s.2.tmod (parts + 1), s.1⟩ : TxOut S)
        else ⟨s.2.tdiv (parts + 1), s.1⟩)) = List.replicate parts ⟨s.2.tdiv (parts + 1), s.1⟩ := by
    apply List.eq_replicate_iff.mpr
    refine ⟨by simp, fun out inside => ?_⟩
    obtain ⟨i, below, rfl⟩ := List.mem_map.mp inside
    rw [List.mem_range] at below
    exact if_neg (by omega)
  have last : ((parts : Nat) : Int) = (parts : Int) + 1 - 1 := by omega
  rw [splitPayment, count, List.range_succ, List.map_append, equal, total_append]
  simp only [total, List.map_cons, List.map_nil, if_pos last, List.map_replicate, List.sum_replicate, nsmul_eq_mul,
    List.sum_singleton]
  have whole := Int.tmod_add_mul_tdiv s.2 (parts + 1)
  linarith

private theorem splitPayment_none (none : n < 1) (s : S × Int) : splitPayment n s = [] := by
  simp [splitPayment, show n.toNat = 0 by omega]

/-- Outputs made payment by payment pay every script what was asked for it. -/
theorem paidTo_flatMap [DecidableEq S] (script : S) (scripts : ∀ s, ∀ out ∈ make s, out.scriptPubKey = s.1)
    (totals : ∀ s, total TxOut.nValue (make s) = s.2) :
    paidTo script (vecSend.flatMap make) = asked script vecSend := by
  induction vecSend with
  | nil => rfl
  | cons s rest ih =>
    have here : (make s).filter (fun out => out.scriptPubKey = script) = if s.1 = script then make s else [] := by
      split
      case isTrue same => exact List.filter_eq_self.mpr fun out inside => by simp [scripts s out inside, same]
      case isFalse other => exact List.filter_eq_nil_iff.mpr fun out inside => by simp [scripts s out inside, other]
    rw [paidTo] at ih ⊢
    rw [List.flatMap_cons, List.filter_append, total_append, ih, here, asked, asked]
    by_cases same : s.1 = script <;> simp [same, totals s]

private theorem total_flatMap (totals : ∀ s, total TxOut.nValue (make s) = s.2) (vecSend : List (S × Int)) :
    total TxOut.nValue (vecSend.flatMap make) = total Prod.snd vecSend := by
  induction vecSend with
  | nil => rfl
  | cons s rest ih => rw [List.flatMap_cons, total_append, ih, totals, total_cons]

/-- Under a sensible split count the outputs to the payees are made payment by payment. -/
theorem payees_eq (fine : c.SplitsInto) : ∃ make : S × Int → List (TxOut S), c.payees = c.vecSend.flatMap make ∧
      (∀ s, ∀ out ∈ make s, out.scriptPubKey = s.1) ∧ ∀ s, total TxOut.nValue (make s) = s.2 := by
  unfold Call.payees
  split
  case h_1 control known =>
    split
    case isTrue splits =>
      exact ⟨_, rfl, fun _ _ => splitPayment_script, splitPayment_total (fine control known splits)⟩
    case isFalse =>
      exact ⟨fun s => [⟨s.2, s.1⟩], List.map_eq_flatMap, by simp, by simp⟩
  case h_2 => exact ⟨_, rfl, fun _ _ => splitPayment_script, splitPayment_total le_rfl⟩

private theorem payees_empty (bad : ¬ c.SplitsInto) : c.payees = [] := by
  simp only [Call.SplitsInto, not_forall] at bad
  obtain ⟨control, known, splits, none⟩ := bad
  simp only [Call.payees, known, splits, if_true]
  exact List.flatMap_eq_nil_iff.mpr fun s _ => splitPayment_none (by omega) s

/-! ## One turn -/

/-- The value of a wallet output. -/
def Ledger.valueAt (l : Ledger S) (o : OutPoint) : Int := ((l.outputAt o).map TxOut.nValue).getD 0

/-- The outputs other than the change. -/
def Draft.others (d : Draft S) : List (TxOut S) :=
  match d.change with
  | some position => d.vout.eraseIdx position
  | none => d.vout

/-- The fee per thousand bytes and the total of the wallet's coins lie in the money range. -/
structure Call.InRange (c : Call S) (kept : Finset OutPoint) : Prop where
  fee : MoneyRange c.nTransactionFee
  supply : sumOf (availableCoins c.offer kept c.ledger) ≤ MAX_MONEY

/-- The payments and the fee of the first turn have a sum in `int64_t`. -/
def Call.Sums (c : Call S) (nValue : Int) : Prop := nValue + c.nTransactionFee < 2 ^ 63

/-- What is known of the fee at the head of a turn. -/
structure Priced (c : Call S) (nValue nFeeRet : Int) : Prop where
  low : c.nTransactionFee ≤ nFeeRet
  high : nFeeRet ≤ 100 * MAX_MONEY
  sums : c.Sums nValue → nValue + nFeeRet < 2 ^ 63

/-- What a turn leaves when it gets as far as the signatures. -/
structure Draft.Built (c : Call S) (kept : Finset OutPoint) (nValue : Int) (d : Draft S) : Prop where
  holds : d.Holds kept
  reserved : d.vReservedCoins = d.vin
  others : d.others = c.payees
  fee : c.nTransactionFee ≤ d.nFeeRet
  supply : total c.ledger.valueAt d.vin ≤ MAX_MONEY
  outputs : total TxOut.nValue c.payees ≤ total TxOut.nValue d.vout
  balance : c.Sums nValue → nValue ≤ MAX_MONEY ∧
    total c.ledger.valueAt d.vin = nValue + (total TxOut.nValue d.vout - total TxOut.nValue c.payees) + d.nFeeRet

variable {d : Draft S} {kept : Finset OutPoint} {nValue : Int}

private theorem changePosition_le (inside : position ≤ vout.length) : changePosition vout position ≤ vout.length := by
  have back (p : Nat) : beforeNarration vout p ≤ p := by
    induction p with
    | zero => exact le_rfl
    | succ p ih =>
      unfold beforeNarration
      split
      · omega
      · exact le_rfl
  unfold changePosition
  split
  · exact (back position).trans inside
  · exact inside

/-- A change adds its value to the outputs and nothing else. -/
theorem addChange_ok (payees : d.vout = c.payees) (added : addChange c t nChange d = .ok d') : d'.others = c.payees ∧
      total TxOut.nValue d'.vout = total TxOut.nValue c.payees + max nChange 0 ∧
      ∃ vout nChangePos change, d' = { d with vout, nChangePos, change } := by
  unfold addChange at added
  split at added
  case isTrue positive =>
    split at added
    · cases added
    case h_2 script known =>
      split at added
      · cases added
      case isFalse =>
        have inside := changePosition_le (t.position_le d.vout.length)
        obtain rfl := Except.ok.inj added
        refine ⟨?_, ?_, _, _, _, rfl⟩
        · simp [Draft.others, List.eraseIdx_insertIdx_self, payees]
        · have same := total_perm TxOut.nValue (List.perm_insertIdx (⟨nChange, script⟩ : TxOut S) d.vout inside)
          rw [same, total_cons, payees, add_comm, max_eq_left positive.le]
  case isFalse none =>
    obtain rfl := Except.ok.inj added
    exact ⟨payees, by rw [max_eq_right (not_lt.mp none), add_zero, payees], _, _, _, rfl⟩

/-- The inputs' total is what the selection counted. -/
theorem total_inputs (offered : ∀ coin ∈ coins, coin ∈ availableCoins c.offer setLockedCoins c.ledger) :
    total c.ledger.valueAt (coins.map Output.outpoint) = sumOf coins := by
  rw [total, List.map_map]
  congr 1
  refine List.map_congr_left fun coin held => ?_
  obtain ⟨out, found, value⟩ := outputAt_available (offered coin held)
  simp [Ledger.valueAt, found, value]

/-- The fee for a signed transaction, by thousands of bytes. -/
theorem requiredFee_eq (vout : List (TxOut S)) (small : nBytes < MAX_BLOCK_SIZE_GEN / 5) :
    requiredFee c vout nBytes = max c.nTransactionFee MIN_TX_FEE * (1 + (nBytes / 1000 : Nat)) := by
  have bounded : nBytes / 1000 < 100 := by simp only [MAX_BLOCK_SIZE_GEN, MAX_BLOCK_SIZE] at small; omega
  have least : getMinFee vout 1 .send nBytes = MIN_TX_FEE * (1 + (nBytes / 1000 : Nat)) := by
    have base : (.send : FeeMode).nBaseFee = 1000 := rfl
    have noDust : ¬ ((1 + (nBytes / 1000 : Nat)) * (.send : FeeMode).nBaseFee < (.send : FeeMode).nBaseFee ∧
        vout.any (fun out => out.nValue < CENT) = true) := by rw [base]; omega
    have inRange : MoneyRange ((1 + (nBytes / 1000 : Nat)) * (.send : FeeMode).nBaseFee) := by
      rw [base, MoneyRange, MAX_MONEY, COIN]
      omega
    unfold getMinFee
    rw [if_neg (fun large => large.2.1 rfl), if_neg noDust, if_pos inRange, mul_comm]
    rfl
  rw [requiredFee, least, max_mul_of_nonneg _ _ (by omega)]

private theorem requiredFee_le (fee : MoneyRange c.nTransactionFee) (vout : List (TxOut S))
    (small : nBytes < MAX_BLOCK_SIZE_GEN / 5) :
    requiredFee c vout nBytes ≤ 100 * MAX_MONEY := by
  have bounded : nBytes / 1000 < 100 := by simp only [MAX_BLOCK_SIZE_GEN, MAX_BLOCK_SIZE] at small; omega
  rw [requiredFee_eq _ small, mul_comm]
  exact mul_le_mul (by omega) (max_le fee.2 (by decide)) (le_max_of_le_left fee.1) (by decide)

/-- What the end of a turn means: a failure can be rolled back, another turn starts with a higher fee
that the size accounts for, and a created transaction is built and pays its fee. -/
inductive Ended.Meets (c : Call S) (kept : Finset OutPoint) (nValue nFeeRet : Int) : Ended S → Prop
  | failed {reason : String} {d : Draft S} (holds : d.Holds kept) : Meets c kept nValue nFeeRet (.failed reason d)
  | again {d : Draft S} (holds : d.Holds kept) (grown : nFeeRet < d.nFeeRet) (small : d.nBytes < MAX_BLOCK_SIZE_GEN / 5)
      (fee : d.nFeeRet = requiredFee c d.vout d.nBytes) (priced : Priced c nValue d.nFeeRet) :
      Meets c kept nValue nFeeRet (.again d)
  | created {d : Draft S} (built : d.Built c kept nValue) (paid : requiredFee c d.vout d.nBytes ≤ d.nFeeRet) :
      Meets c kept nValue nFeeRet (.created d)

section
variable (inRange : c.InRange kept)
include inRange

private theorem signAndCheck_meets (built : Draft.Built c kept nValue { d with vin := coins.map Output.outpoint })
    (grown : nFeeRet ≤ d.nFeeRet) : (signAndCheck c t coins d).Meets c kept nValue nFeeRet := by
  have holds : d.Holds kept := ⟨built.holds.locked, built.holds.fresh⟩
  unfold signAndCheck
  dsimp only
  split
  · exact .failed ⟨holds.locked, holds.fresh⟩
  · split
    · exact .failed ⟨holds.locked, holds.fresh⟩
    case isFalse large =>
      split
      case isTrue short =>
        have small := Nat.lt_of_not_le large
        have high := requiredFee_le inRange.fee d.vout small
        refine .again ⟨holds.locked, holds.fresh⟩ (lt_of_le_of_lt grown short) small rfl
          ⟨(built.fee.trans_lt short).le, high, fun sums => ?_⟩
        -- the coins have paid for the last fee, so the payments are far below the bound
        have afforded := (built.balance sums).1
        simp only [MAX_MONEY, COIN] at afforded high
        dsimp only
        omega
      case isFalse paid =>
        exact .created ⟨⟨holds.locked, holds.fresh⟩, built.reserved, built.others, built.fee,
          built.supply, built.outputs,
          built.balance⟩ (not_lt.mp paid)

omit inRange in
private theorem moveToFee_bounds (nFeeRet nChange : Int) :
    0 ≤ moveToFee nFeeRet nChange ∧ moveToFee nFeeRet nChange ≤ max nChange 0 := by
  unfold moveToFee
  split <;> omega

private theorem spend_meets (pays : s.Pays (availableCoins c.offer kept c.ledger))
    (value : 0 ≤ nValue ∧ nValue < 2 ^ 63) (priced : Priced c nValue d.nFeeRet) (holds : d.Holds kept)
    (reserved : d.vReservedCoins = s.setCoinsRet.map Output.outpoint) (payees : d.vout = c.payees) :
    (spend c t nValue s d).Meets c kept nValue d.nFeeRet := by
  have coins := sumOf_subperm pays.inside
  rw [pays.counted] at coins
  have supply := coins.2.trans inRange.supply
  have spent : total c.ledger.valueAt (s.setCoinsRet.map Output.outpoint) = s.nValueRet := by
    rw [total_inputs fun coin held => pays.inside.subset held, pays.counted]
  have afford (sums : c.Sums nValue) (enough : ¬ s.nValueRet < int64 (nValue + d.nFeeRet)) :
      nValue + d.nFeeRet ≤ s.nValueRet := by
    have low := inRange.fee.1.trans priced.low
    rw [int64_eq (by omega) (priced.sums sums)] at enough
    exact not_lt.mp enough
  unfold spend
  split
  · exact .failed holds
  case isFalse enough =>
    dsimp only
    generalize change : int64 (int64 (s.nValueRet - nValue) - d.nFeeRet) = nChange
    have moved := moveToFee_bounds d.nFeeRet nChange
    split
    · exact .failed ⟨holds.locked, holds.fresh⟩
    case h_2 d' added =>
      obtain ⟨others, outputs, vout, nChangePos, _, rfl⟩ := addChange_ok (by exact payees) added
      dsimp only at outputs
      refine signAndCheck_meets inRange ⟨⟨holds.locked, holds.fresh⟩, reserved, others, ?_, ?_, ?_, fun sums => ?_⟩
        (by dsimp only; omega)
      · exact priced.low.trans (by dsimp only; omega)
      · exact spent.trans_le supply
      · rw [outputs]
        omega
      · have afforded := afford sums enough
        have low := inRange.fee.1.trans priced.low
        simp only [MAX_MONEY, COIN] at supply ⊢
        rw [int64_eq (z := s.nValueRet - nValue) (by omega) (by omega), int64_eq (by omega) (by omega)] at change
        rw [spent, outputs]
        omega

omit inRange in
private theorem Draft.restart_locked (holds : d.Holds kept) : (d.restart c).setLockedCoins = kept :=
  Draft.unlocked (d := { d with vin := [], vout := c.payees }) ⟨holds.locked, holds.fresh⟩

private theorem turn_meets (t : Turn S) (value : 0 ≤ nValue ∧ nValue < 2 ^ 63) (holds : d.Holds kept)
    (priced : Priced c nValue d.nFeeRet) : (turn c t nValue d).Meets c kept nValue d.nFeeRet := by
  have emptied := Draft.restart_locked (c := c) holds
  unfold turn
  dsimp only
  split
  · exact .failed ⟨by simpa [Draft.restart, Draft.unlockReservedCoins] using emptied,
      by simp [Draft.restart, Draft.unlockReservedCoins]⟩
  case h_2 s chosen =>
    have pays := selectCoins_pays chosen
    have free : ∀ coin ∈ s.setCoinsRet, coin.outpoint ∉ (d.restart c).setLockedCoins :=
      fun coin held => available_unlocked (pays.inside.subset held)
    have after := Draft.lockCoins_fresh pays.distinct free
    have reserved : ((d.restart c).lockCoins s.setCoinsRet).vReservedCoins = s.setCoinsRet.map Output.outpoint := by
      rw [after]
      rfl
    have fee : ((d.restart c).lockCoins s.setCoinsRet).nFeeRet = d.nFeeRet := by
      rw [after]
      rfl
    have started : ((d.restart c).lockCoins s.setCoinsRet).Holds kept := by
      refine ⟨?_, fun o held => ?_⟩
      · rw [reserved, after]
        rw [emptied]
      · rw [reserved] at held
        obtain ⟨coin, chosen, rfl⟩ := List.mem_map.mp held
        exact emptied ▸ free coin chosen
    rw [← fee]
    exact spend_meets inRange (emptied ▸ pays) value (by rw [fee]; exact priced) started reserved (by rw [after]; rfl)

/-! ## The whole loop -/

/-- What the loop answers: a failure gives the locks back, and a transaction that it creates is built and
pays its fee. -/
def Answer.Meets (c : Call S) (kept : Finset OutPoint) (nValue : Int) (a : Answer S) : Prop :=
  (a.failure = none → a.draft.Built c kept nValue ∧ requiredFee c a.draft.vout a.draft.nBytes ≤ a.draft.nFeeRet) ∧
    (a.failure ≠ none → a.draft.setLockedCoins = kept)

private theorem feeLoop_meets (value : 0 ≤ nValue ∧ nValue < 2 ^ 63) (holds : d.Holds kept)
    (priced : Priced c nValue d.nFeeRet)
    (ended : feeLoop c turns nValue fuel n d = some a) : a.Meets c kept nValue := by
  induction fuel generalizing n d with
  | zero => cases ended
  | succ fuel ih =>
    have meets := turn_meets inRange (turns n) value holds priced
    unfold feeLoop at ended
    split at ended
    case h_1 reason d' failed =>
      rw [failed] at meets
      obtain rfl := Option.some.inj ended
      cases meets with | failed holds => exact ⟨by simp, fun _ => Draft.unlocked holds⟩
    case h_2 d' again =>
      rw [again] at meets
      cases meets with | again holds grown small fee priced => exact ih holds priced ended
    case h_3 d' created =>
      rw [created] at meets
      obtain rfl := Option.some.inj ended
      cases meets with | created built paid => exact ⟨fun _ => ⟨built, paid⟩, by simp⟩

/-- The loop ends: each further turn accounts for at least a thousand bytes more, and a transaction of a
hundred thousand bytes is refused. -/
theorem feeLoop_ends (turns : Nat → Turn S) {fuel n k : Nat} (value : 0 ≤ nValue ∧ nValue < 2 ^ 63)
    (holds : d.Holds kept) (priced : Priced c nValue d.nFeeRet)
    (high : max c.nTransactionFee MIN_TX_FEE * k ≤ d.nFeeRet ∨ k = 0) (enough : 101 ≤ fuel + k) (fits : k ≤ 100) :
    (feeLoop c turns nValue fuel n d).isSome = true := by
  induction fuel generalizing n k d with
  | zero => omega
  | succ fuel ih =>
    have meets := turn_meets inRange (turns n) value holds priced
    unfold feeLoop
    split
    · rfl
    case h_2 d' again =>
      rw [again] at meets
      cases meets with | again holds grown small fee priced =>
      rw [requiredFee_eq _ small] at fee
      have bounded : d'.nBytes / 1000 < 100 := by simp only [MAX_BLOCK_SIZE_GEN, MAX_BLOCK_SIZE] at small; omega
      have positive : 0 < max c.nTransactionFee MIN_TX_FEE := by simp [MIN_TX_FEE]
      have further : k < 1 + d'.nBytes / 1000 := by
        rcases high with high | rfl
        · have less := lt_of_le_of_lt high grown
          rw [fee] at less
          exact_mod_cast lt_of_mul_lt_mul_left less positive.le
        · omega
      exact ih (k := 1 + d'.nBytes / 1000) holds priced (Or.inl (by rw [fee]; push_cast; exact le_rfl))
        (by omega) (by omega)
    · rfl

end

private theorem sumPayments_neg (neg : nValue < 0) (vecSend : List (S × Int)) : sumPayments nValue vecSend = none := by
  cases vecSend <;> simp [sumPayments, neg]

/-- A sum of positive payments that passes the checks for negative values has not wrapped around. -/
theorem sumPayments_eq {vecSend : List (S × Int)} (positive : ∀ s ∈ vecSend, 0 < s.2 ∧ s.2 < 2 ^ 63)
    (nonneg : 0 ≤ nValue ∧ nValue < 2 ^ 63) (summed : sumPayments nValue vecSend = some sum) :
    sum = nValue + total Prod.snd vecSend ∧ 0 ≤ sum ∧ sum < 2 ^ 63 := by
  induction vecSend generalizing nValue with
  | nil =>
    simp only [sumPayments, if_neg (not_lt.mpr nonneg.1), Option.some.injEq] at summed
    exact ⟨by simp [summed], summed ▸ nonneg⟩
  | cons s rest ih =>
    have bounds := positive s List.mem_cons_self
    rw [sumPayments, if_neg (not_lt.mpr nonneg.1)] at summed
    by_cases inside : nValue + s.2 < 2 ^ 63
    · rw [int64_eq (by omega) inside] at summed
      have later := ih (fun o held => positive o (List.mem_cons_of_mem _ held)) ⟨by omega, inside⟩ summed
      rwa [add_assoc, ← total_cons Prod.snd] at later
    · -- past the largest value the sum comes out negative and the next check refuses it
      have wrapped : int64 (nValue + s.2) < 0 := by
        rw [int64, Int.bmod_def]
        split <;> omega
      rw [sumPayments_neg wrapped] at summed
      cases summed

/-! ## Conservation -/

/-- The transaction and the locks after a successful call. -/
structure Draft.Conserves [DecidableEq S] (c : Call S) (before : Finset OutPoint) (d : Draft S) : Prop where
  recipients : ∀ script, paidTo script d.others = asked script c.vecSend
  balance : total c.ledger.valueAt d.vin = total TxOut.nValue d.vout + d.nFeeRet
  fee : requiredFee c d.vout d.nBytes ≤ d.nFeeRet
  keeps : before ⊆ d.setLockedCoins
  locks : d.setLockedCoins \ before = d.vin.toFinset

/-- A recipient of a positive payment is asked to get something. -/
theorem asked_pos [DecidableEq S] (positive : ∀ s ∈ vecSend, 0 < s.2) {s : S × Int} (held : s ∈ vecSend) :
    0 < asked s.1 vecSend := by
  have all : ∀ x ∈ (vecSend.filter fun o => o.1 = s.1).map Prod.snd, 0 < x := by
    intro x inside
    obtain ⟨o, kept, rfl⟩ := List.mem_map.mp inside
    exact positive o (List.mem_filter.mp kept).1
  have some : (vecSend.filter fun o => o.1 = s.1).map Prod.snd ≠ [] :=
    List.ne_nil_of_mem (List.mem_map_of_mem (List.mem_filter.mpr ⟨held, by simp⟩))
  exact List.sum_pos _ all some

/-- A built transaction that pays its fee conserves the value exactly when the splitter was not asked for
no parts at all and the first sum with the fee did not wrap around. -/
theorem built_conserves_iff [DecidableEq S] (positive : ∀ s ∈ c.vecSend, 0 < s.2) (some : c.vecSend ≠ [])
    (sum : nValue = total Prod.snd c.vecSend) (built : d.Built c before nValue)
    (paid : requiredFee c d.vout d.nBytes ≤ d.nFeeRet) : d.Conserves c before ↔ c.SplitsInto ∧ c.Sums nValue := by
  have out (fine : c.SplitsInto) : total TxOut.nValue c.payees = nValue := by
    obtain ⟨make, payees, scripts, totals⟩ := payees_eq fine
    rw [payees, total_flatMap totals, sum]
  constructor
  · intro conserves
    have fine : c.SplitsInto := by
      by_contra bad
      obtain ⟨s, held⟩ := List.exists_mem_of_ne_nil _ some
      have missing := conserves.recipients s.1
      rw [built.others, payees_empty bad] at missing
      have wanted := asked_pos positive held
      rw [← missing] at wanted
      exact absurd wanted (by simp [paidTo])
    refine ⟨fine, ?_⟩
    -- the inputs pay for the payments and the fee, and are in the money range
    have supply := built.supply
    rw [conserves.balance] at supply
    have paid := built.outputs
    rw [out fine] at paid
    have fee := built.fee
    simp only [MAX_MONEY, COIN] at supply
    rw [Call.Sums]
    omega
  · rintro ⟨fine, sums⟩
    have out := out fine
    obtain ⟨make, payees, scripts, totals⟩ := payees_eq fine
    refine ⟨fun script => ?_, ?_, paid, ?_, ?_⟩
    · rw [built.others, payees, paidTo_flatMap script scripts totals]
    · rw [(built.balance sums).2]
      omega
    · rw [built.holds.locked]
      exact Finset.subset_union_left
    · rw [built.holds.locked, ← built.reserved]
      ext o
      simp only [Finset.mem_sdiff, Finset.mem_union, List.mem_toFinset]
      constructor
      · tauto
      · exact fun reserved => ⟨Or.inr reserved, built.holds.fresh o reserved⟩

end

/-- The call returns, whatever the turns of its loop meet. A call that fails leaves the locks as they
were, and one that succeeds conserves the value exactly when the splitter is off or makes at least one
part, and the payments with the fee have a sum in `int64_t`. -/
theorem createTransaction_conserves_iff [DecidableEq S] (c : Call S) (turns : Nat → Turn S)
    (setLockedCoins : Finset OutPoint)
    (nChangePos : Int) (fuel : Nat) (enough : 101 ≤ fuel) (inRange : c.InRange setLockedCoins)
    (positive : ∀ s ∈ c.vecSend, 0 < s.2 ∧ s.2 < 2 ^ 63) :
    ∃ a, createTransaction c turns setLockedCoins nChangePos fuel = some a ∧
      (a.failure = none →
        (a.draft.Conserves c setLockedCoins ↔ c.SplitsInto ∧ c.Sums (total Prod.snd c.vecSend))) ∧
      (a.failure ≠ none → a.draft.setLockedCoins = setLockedCoins) := by
  unfold createTransaction
  split
  case h_1 nValue summed =>
    split
    · exact ⟨_, rfl, by simp, fun _ => rfl⟩
    case isFalse some =>
      obtain ⟨sum, value⟩ := sumPayments_eq positive ⟨le_rfl, by norm_num⟩ summed
      rw [zero_add] at sum
      have priced : Priced c nValue c.nTransactionFee := ⟨le_rfl, inRange.fee.2.trans (by decide), id⟩
      have holds : Draft.Holds setLockedCoins
        (⟨[], [], [], setLockedCoins, c.nTransactionFee, nChangePos, none, 0⟩ : Draft S) :=
        ⟨by simp, by simp⟩
      have ends := feeLoop_ends inRange turns (n := 0) (k := 0) value holds priced (Or.inr rfl) enough (by omega)
      obtain ⟨a, ended⟩ := Option.isSome_iff_exists.mp ends
      have meets := feeLoop_meets inRange value holds priced ended
      refine ⟨a, ended, fun success => ?_, meets.2⟩
      rw [← sum]
      exact built_conserves_iff (fun s held => (positive s held).1) (by simpa using some) sum
        (meets.1 success).1 (meets.1 success).2
  case h_2 => exact ⟨_, rfl, by simp, fun _ => rfl⟩

namespace Splitter

/-- A wallet with one confirmed coin, which pays for eight cents and the fee exactly. -/
def funded : WalletTx Nat where
  hash := ByteArr.zero 32
  nTime := 5
  vin := []
  vout := [⟨8 * CENT + 1000, 7⟩]
  isCoinBase := false
  isCoinStake := false
  inRange := by decide
  fits := by decide
  acyclic := by decide
  hashBlock := none
  vfSpent := [false]

/-- A payment of eight cents to script 3, in `nSplitBlock` parts. -/
def call (nSplitBlock : Int) : Call Nat where
  ledger := ⟨[funded], by decide⟩
  isMine script := if script = 7 then .spendable else .no
  standing _ := ⟨true, true, 0, 20, false⟩
  nMinimumInputValue := 0
  nTransactionFee := 1000
  vecSend := [(3, 8 * CENT)]
  nTime := 9
  coinControl := some ⟨[], none, true, nSplitBlock⟩
  scriptChangeOverride := none

def signed (_ : Nat) : Turn Nat := ⟨fun _ => Purse.steady, some 8, id, fun _ => le_rfl, 0, fun _ => true, 200⟩

end Splitter

/-- Split into no parts, the payment succeeds with a transaction that has no outputs. -/
theorem no_parts_no_outputs :
    ∃ a, createTransaction (Splitter.call 0) Splitter.signed ∅ (-1) 101 = some a ∧ a.failure = none ∧
      a.draft.vout = [] ∧
      ¬ a.draft.Conserves (Splitter.call 0) ∅ := by
  have ran : (createTransaction (Splitter.call 0) Splitter.signed ∅ (-1) 101).map
      (fun a => (a.failure, a.draft.vout, paidTo 3 a.draft.others)) = some (none, [], 0) := by decide +kernel
  obtain ⟨a, ended, seen⟩ := Option.map_eq_some_iff.mp ran
  simp only [Prod.mk.injEq] at seen
  refine ⟨a, ended, seen.1, seen.2.1, fun conserves => ?_⟩
  have paid := conserves.recipients 3
  rw [seen.2.2] at paid
  exact absurd paid (by decide)

/-- Split into three parts, the same payment goes through and conserves the value. -/
theorem createTransaction_three_parts :
    ∃ a, createTransaction (Splitter.call 3) Splitter.signed ∅ (-1) 101 = some a ∧ a.failure = none ∧
      a.draft.Conserves (Splitter.call 3) ∅ := by
  obtain ⟨a, ended, conserves, -⟩ := createTransaction_conserves_iff (Splitter.call 3) Splitter.signed ∅ (-1) 101 le_rfl
    ⟨by decide, by decide +kernel⟩ (by decide)
  have ran : (createTransaction (Splitter.call 3) Splitter.signed ∅ (-1) 101).map Answer.failure =
    some none := by decide +kernel
  have success : a.failure = none := by simpa [ended] using ran
  refine ⟨a, ended, success, (conserves success).mpr ⟨?_, by unfold Call.Sums; decide⟩⟩
  rintro control known -
  obtain rfl := Option.some.inj known
  decide

end Innova.Wallet
