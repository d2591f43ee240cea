import Innova.Chainstate.Delta

/-! The observation adapter (`observe.cpp`): the ordered delta of a block from its own transactions
and a reader of the coins before it. -/
namespace Innova.Chainstate
open Lib

structure ObservedTx where
  txid : Hash
  coinbase : Bool
  coinstake : Bool
  nTime : Int32
  vin : List OutPoint
  vout : List TxOut

structure ObservedBlock where
  height : Int32
  txs : List ObservedTx

def coinFor (tx : ObservedTx) (out : TxOut) (height : Int32) : Coin :=
  ⟨out.value, out.script, height, tx.nTime, tx.coinbase, tx.coinstake⟩

namespace ObservedBlock
variable (b : ObservedBlock) (getPrevCoin : OutPoint → Option Coin)

/-- The coin an input spends: an output of the first transaction of the block with that id, or one
the reader knows. -/
def spentCoin (prev : OutPoint) : Except ChainError Coin :=
  match b.txs.find? fun src => src.txid = prev.txid with
  | some src =>
    match src.vout[prev.n.toNat]? with
    | some out => .ok (coinFor src out b.height)
    | none => .error ⟨.missingInput, "intra-block prevout index out of range"⟩
  | none =>
    match getPrevCoin prev with
    | some coin => .ok coin
    | none => .error ⟨.missingInput, "external prevout not observable in mirror"⟩

def spends : List OutPoint → Except ChainError Delta
  | [] => .ok []
  | prev :: rest => do
    let before ← b.spentCoin getPrevCoin prev
    let more ← spends rest
    return ⟨prev, some before, none⟩ :: more

/-- A coinbase spends nothing. -/
def spendsOf (tx : ObservedTx) : Except ChainError Delta := if tx.coinbase then .ok [] else b.spends getPrevCoin tx.vin

def creates (tx : ObservedTx) : Delta :=
  tx.vout.zipIdx.map fun out => ⟨⟨tx.txid, UInt32.ofNat out.2⟩, none, some (coinFor tx out.1 b.height)⟩

def observeTxs : List ObservedTx → Except ChainError Delta
  | [] => .ok []
  | tx :: rest => do
    let spent ← b.spendsOf getPrevCoin tx
    let more ← observeTxs rest
    return spent ++ b.creates tx ++ more

def observeDelta : Except ChainError Delta := b.observeTxs getPrevCoin b.txs

variable {b getPrevCoin}

private theorem spends_ok_iff : (∃ d, b.spends getPrevCoin vin = .ok d) ↔
    ∀ prev ∈ vin, ∃ c, b.spentCoin getPrevCoin prev = .ok c := by
  induction vin with
  | nil => simp [spends]
  | cons prev rest ih =>
    rw [List.forall_mem_cons, ← ih, spends]
    cases b.spentCoin getPrevCoin prev with
    | error e => simp [bind, Except.bind]
    | ok c => cases b.spends getPrevCoin rest <;> simp [bind, Except.bind, pure, Except.pure]

theorem observeTxs_ok_iff {txs : List ObservedTx} : (∃ d, b.observeTxs getPrevCoin txs = .ok d) ↔
      ∀ tx ∈ txs, tx.coinbase = false → ∀ prev ∈ tx.vin, ∃ c, b.spentCoin getPrevCoin prev = .ok c := by
  induction txs with
  | nil => simp [observeTxs]
  | cons tx rest ih =>
    have here : (∃ d, b.spendsOf getPrevCoin tx = .ok d) ↔
        (tx.coinbase = false → ∀ prev ∈ tx.vin, ∃ c, b.spentCoin getPrevCoin prev = .ok c) := by
      rw [spendsOf, ← spends_ok_iff]
      cases tx.coinbase <;> simp
    rw [List.forall_mem_cons, ← ih, ← here, observeTxs]
    cases b.spendsOf getPrevCoin tx with
    | error e => simp [bind, Except.bind]
    | ok d => cases b.observeTxs getPrevCoin rest <;> simp [bind, Except.bind, pure, Except.pure]

end ObservedBlock
end Innova.Chainstate
