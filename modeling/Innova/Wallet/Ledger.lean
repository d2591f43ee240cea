import Innova.Wallet.SelectCoins
import Mathlib.Data.Finset.Insert
import Mathlib.Data.Finset.SDiff
import Mathlib.Data.Finset.Erase
import Mathlib.Data.Finset.Dedup
import Mathlib.Data.Finset.Lattice.Basic

/-! The transactions a wallet holds and the outputs it offers for spending (`wallet.cpp`,
`AvailableCoins`). Scripts are an arbitrary type: the wallet only compares them and asks its key store
whether they are its own. -/
namespace Innova.Wallet
open Lib Lib.Flags Chainstate

variable {S : Type}

structure TxOut (S : Type) where
  nValue : Int
  scriptPubKey : S
deriving DecidableEq

/-- `isminetype`. -/
inductive IsMine where
  | no | watchOnly | spendable
deriving DecidableEq, Repr

/-- A transaction as the wallet reads it. -/
structure Tx (S : Type) where
  hash : Hash
  nTime : Nat
  vin : List OutPoint
  vout : List (TxOut S)
  isCoinBase : Bool
  isCoinStake : Bool
  inRange : ∀ out ∈ vout, MoneyRange out.nValue
  fits : vout.length ≤ 2 ^ 32
  /-- The hash covers the inputs, so that none of them can name it. -/
  acyclic : ∀ o ∈ vin, o.txid ≠ hash

/-- `CWalletTx`: the transaction with its block, when it was delivered with one, and its spent flags. -/
structure WalletTx (S : Type) extends Tx S where
  hashBlock : Option Hash
  vfSpent : List Bool

/-- `IsSpent`, for the outputs the transaction has. -/
def WalletTx.isSpent (wtx : WalletTx S) (nOut : Nat) : Bool := wtx.vfSpent.getD nOut false

/-- What the chain and the pool say about a wallet transaction at the moment of a call. -/
structure Standing where
  isFinal : Bool
  isTrusted : Bool
  blocksToMaturity : Int
  depth : Int
  isFromMe : Bool

/-- `mapWallet`, which has one transaction for each hash. -/
structure Ledger (S : Type) where
  txs : List (WalletTx S)
  distinct : (txs.map (·.hash)).Nodup

def Ledger.find (l : Ledger S) (hash : Hash) : Option (WalletTx S) := l.txs.find? fun wtx => wtx.hash = hash

/-- `CCoinControl`, as far as the wallet reads it; `destChange` is none for `CNoDestination`. -/
structure CoinControl (S : Type) where
  setSelected : List OutPoint
  destChange : Option S
  fSplitBlock : Bool
  nSplitBlock : Int

/-- What `AvailableCoins` reads beside the transactions. -/
structure Offer (S : Type) where
  isMine : S → IsMine
  standing : WalletTx S → Standing
  nMinimumInputValue : Int
  fOnlyConfirmed : Bool
  coinControl : Option (CoinControl S)

namespace Offer
variable (offer : Offer S)

/-- The checks on the transaction. -/
def passes (wtx : WalletTx S) : Bool :=
  let now := offer.standing wtx
  now.isFinal && (!offer.fOnlyConfirmed || now.isTrusted) && !(wtx.isCoinBase && decide (0 < now.blocksToMaturity)) &&
    !(wtx.isCoinStake && decide (0 < now.blocksToMaturity)) && !decide (now.depth < 0)

def selectable (outpoint : OutPoint) : Bool :=
  match offer.coinControl with
  | none => true
  | some control => control.setSelected.isEmpty || control.setSelected.contains outpoint

/-- The checks on one output. -/
def takes (setLockedCoins : Finset OutPoint) (wtx : WalletTx S) (i : Nat) (out : TxOut S) : Bool :=
  !wtx.isSpent i && decide (offer.isMine out.scriptPubKey ≠ .no) &&
    !decide (⟨wtx.hash, UInt32.ofNat i⟩ ∈ setLockedCoins) &&
    decide (offer.nMinimumInputValue ≤ out.nValue) && offer.selectable ⟨wtx.hash, UInt32.ofNat i⟩

end Offer

/-- `COutput(pcoin, i, nDepth, …)`. -/
def WalletTx.output (wtx : WalletTx S) (offer : Offer S) (i : Nat) (out : TxOut S)
    (held : out ∈ wtx.vout) : Output where
  outpoint := ⟨wtx.hash, UInt32.ofNat i⟩
  nValue := out.nValue
  inRange := wtx.inRange out held
  nTime := wtx.nTime
  isFromMe := (offer.standing wtx).isFromMe
  nDepth := (offer.standing wtx).depth
  fSpendable := decide (offer.isMine out.scriptPubKey = .spendable)

/-- The outputs of one transaction, those from position `i` on. -/
def WalletTx.outputs (wtx : WalletTx S) (offer : Offer S) (setLockedCoins : Finset OutPoint) :
    (i : Nat) → (outs : List (TxOut S)) → (∀ out ∈ outs, out ∈ wtx.vout) → List Output
  | _, [], _ => []
  | i, out :: outs, held =>
    let rest := outputs wtx offer setLockedCoins (i + 1) outs fun o inside => held o (List.mem_cons_of_mem _ inside)
    if offer.takes setLockedCoins wtx i out then wtx.output offer i out (held out List.mem_cons_self) :: rest else rest

/-- `AvailableCoins`. -/
def availableCoins (offer : Offer S) (setLockedCoins : Finset OutPoint) (l : Ledger S) : List Output :=
  l.txs.flatMap fun wtx => if offer.passes wtx then wtx.outputs offer setLockedCoins 0 wtx.vout fun _ => id else []

/-! ## What is offered -/

/-- The wallet's output at an outpoint. -/
def Ledger.outputAt (l : Ledger S) (outpoint : OutPoint) : Option (TxOut S) :=
  (l.find outpoint.txid).bind fun wtx => wtx.vout[outpoint.n.toNat]?

section
variable {offer : Offer S} {setLockedCoins : Finset OutPoint} {l : Ledger S} {wtx : WalletTx S} {coin : Output}

/-- An offered output is one of the transaction's, at its position, and it passed the checks. -/
structure WalletTx.Offers (wtx : WalletTx S) (offer : Offer S) (setLockedCoins : Finset OutPoint) (i : Nat)
    (out : TxOut S) (coin : Output) : Prop where
  outpoint : coin.outpoint = ⟨wtx.hash, UInt32.ofNat i⟩
  nValue : coin.nValue = out.nValue
  taken : offer.takes setLockedCoins wtx i out = true

private theorem WalletTx.mem_outputs (inside : coin ∈ wtx.outputs offer setLockedCoins i outs held) :
    ∃ j out, outs[j]? = some out ∧ wtx.Offers offer setLockedCoins (i + j) out coin := by
  induction outs generalizing i with
  | nil => cases inside
  | cons first rest ih =>
    have later (inside : coin ∈ wtx.outputs offer setLockedCoins (i + 1) rest fun o inside =>
      held o (List.mem_cons_of_mem _ inside)) :
        ∃ j out, (first :: rest)[j]? = some out ∧ wtx.Offers offer setLockedCoins (i + j) out coin := by
      obtain ⟨j, out, found, offers⟩ := ih inside
      exact ⟨j + 1, out, by simpa using found, by rwa [show i + (j + 1) = i + 1 + j by omega]⟩
    unfold outputs at inside
    split at inside
    case isTrue taken =>
      rcases List.mem_cons.mp inside with rfl | inside
      · exact ⟨0, first, rfl, rfl, rfl, taken⟩
      · exact later inside
    case isFalse => exact later inside

theorem mem_availableCoins (inside : coin ∈ availableCoins offer setLockedCoins l) :
    ∃ wtx ∈ l.txs, ∃ i out, wtx.vout[i]? = some out ∧ wtx.Offers offer setLockedCoins i out coin := by
  obtain ⟨wtx, held, inside⟩ := List.mem_flatMap.mp inside
  split at inside
  · obtain ⟨i, out, found, offers⟩ := WalletTx.mem_outputs inside
    exact ⟨wtx, held, i, out, found, by simpa using offers⟩
  · cases inside

private theorem toNat_position (small : i < 2 ^ 32) : (UInt32.ofNat i).toNat = i := UInt32.toNat_ofNat_of_lt small

theorem WalletTx.position (found : wtx.vout[i]? = some out) : (UInt32.ofNat i).toNat = i := by
  have inside := (List.getElem?_eq_some_iff.mp found).1
  have fits := wtx.fits
  exact toNat_position (by omega)

theorem Ledger.find_mem (held : wtx ∈ l.txs) : l.find wtx.hash = some wtx := by
  cases found : l.find wtx.hash with
  | none => simpa using List.find?_eq_none.mp found wtx held
  | some other =>
    have same : other.hash = wtx.hash := by simpa using List.find?_some found
    rw [List.inj_on_of_nodup_map l.distinct (List.mem_of_find?_eq_some found) held same]

/-- An offered coin stands for an output of the wallet, with its value. -/
theorem outputAt_available (inside : coin ∈ availableCoins offer setLockedCoins l) :
    ∃ out, l.outputAt coin.outpoint = some out ∧ coin.nValue = out.nValue := by
  obtain ⟨wtx, held, i, out, found, offers⟩ := mem_availableCoins inside
  refine ⟨out, ?_, offers.nValue⟩
  rw [Ledger.outputAt, offers.outpoint, Ledger.find_mem held, Option.bind_some, WalletTx.position found, found]

/-- A locked coin is not offered. -/
theorem available_unlocked (inside : coin ∈ availableCoins offer setLockedCoins l) :
    coin.outpoint ∉ setLockedCoins := by
  obtain ⟨wtx, held, i, out, found, offers⟩ := mem_availableCoins inside
  have taken := offers.taken
  simp only [Offer.takes, Bool.and_eq_true, Bool.not_eq_true', decide_eq_false_iff_not] at taken
  rw [offers.outpoint]
  exact taken.1.1.2

/-- Conversely, an output that passes the checks is offered. -/
theorem WalletTx.outputs_of (held : ∀ out ∈ outs, out ∈ wtx.vout) (found : outs[j]? = some out)
    (taken : offer.takes setLockedCoins wtx (i + j) out = true) :
    ∃ coin ∈ wtx.outputs offer setLockedCoins i outs held, coin.outpoint = ⟨wtx.hash, UInt32.ofNat (i + j)⟩ := by
  induction outs generalizing i j with
  | nil => simp at found
  | cons first rest ih =>
    unfold outputs
    cases j with
    | zero =>
      obtain rfl : first = out := by simpa using found
      rw [Nat.add_zero] at taken ⊢
      rw [if_pos taken]
      exact ⟨_, List.mem_cons_self, rfl⟩
    | succ j =>
      obtain ⟨coin, inside, same⟩ := ih (i := i + 1) (j := j)
        (fun o inside => held o (List.mem_cons_of_mem _ inside)) (by simpa using found)
        (by rwa [show i + 1 + j = i + (j + 1) by omega])
      refine ⟨coin, ?_, by rw [same, show i + 1 + j = i + (j + 1) by omega]⟩
      split
      · exact List.mem_cons_of_mem _ inside
      · exact inside

theorem available_of (held : wtx ∈ l.txs) (passes : offer.passes wtx = true) (found : wtx.vout[i]? = some out)
    (taken : offer.takes setLockedCoins wtx i out = true) :
    ∃ coin ∈ availableCoins offer setLockedCoins l, coin.outpoint = ⟨wtx.hash, UInt32.ofNat i⟩ := by
  obtain ⟨coin, inside, same⟩ := WalletTx.outputs_of (i := 0) (fun _ => id) found (by simpa using taken)
  exact ⟨coin, List.mem_flatMap.mpr ⟨wtx, held, by rwa [if_pos passes]⟩, by simpa using same⟩

private theorem WalletTx.outputs_distinct (fits : i + outs.length ≤ 2 ^ 32) :
    ((wtx.outputs offer setLockedCoins i outs held).map Output.outpoint).Nodup := by
  induction outs generalizing i with
  | nil => exact List.nodup_nil
  | cons first rest ih =>
    rw [List.length_cons] at fits
    unfold outputs
    split
    · refine List.nodup_cons.mpr ⟨fun again => ?_, ih (by omega)⟩
      obtain ⟨coin, inside, same⟩ := List.mem_map.mp again
      obtain ⟨j, out, found, offers⟩ := mem_outputs inside
      have later := (List.getElem?_eq_some_iff.mp found).1
      rw [offers.outpoint, output, OutPoint.mk.injEq] at same
      have position := congrArg UInt32.toNat same.2
      rw [toNat_position (i := i + 1 + j) (by omega), toNat_position (i := i) (by omega)] at position
      omega
    · exact ih (by omega)

/-- No outpoint is offered twice. -/
theorem available_distinct (offer : Offer S) (setLockedCoins : Finset OutPoint) (l : Ledger S) :
    ((availableCoins offer setLockedCoins l).map Output.outpoint).Nodup := by
  rw [availableCoins, List.map_flatMap, List.nodup_flatMap]
  constructor
  · intro wtx held
    split
    · exact WalletTx.outputs_distinct (by simpa using wtx.fits)
    · exact List.nodup_nil
  · have hashes := List.pairwise_map.mp l.distinct
    refine hashes.imp fun {a b} apart => ?_
    -- an outpoint names the transaction it is offered by
    have named {c : WalletTx S} {o : OutPoint}
        (given : o ∈ (if offer.passes c then c.outputs offer setLockedCoins 0 c.vout fun _ => id else []).map
          Output.outpoint) :
        o.txid = c.hash := by
      obtain ⟨coin, inside, rfl⟩ := List.mem_map.mp given
      split at inside
      · obtain ⟨j, out, -, offers⟩ := WalletTx.mem_outputs inside
        rw [offers.outpoint]
      · cases inside
    exact fun o left right => apart ((named left).symm.trans (named right))

end
end Innova.Wallet
