import Innova.Hreg.Registration
import Innova.Lib.Together

/-! `ConnectBlock`, `DisconnectBlock` and `Reorganize` as far as `hreg::g_registry` goes: the inputs from the
coin view (`v2MapPrevTx`), the heights from TX-LOC and the published active chain. -/
namespace Innova.Hreg
open Lib Chainstate Mempool

/-- What the transaction hashes stand for. -/
structure Contents where
  tx : Hash → Tx
  pushedHeight : Hash → Nat
  rank : Hash → Nat
  covers : ∀ h, ∀ o ∈ (tx h).vin, rank o.txid < rank h

def Contents.txs (u : Contents) : Txs where
  vin h := (u.tx h).vin
  nOut h := (u.tx h).vout.length
  isCoinBase h := (u.tx h).isCoinBase
  isCoinStake h := (u.tx h).isCoinStake
  pushedHeight := u.pushedHeight
  rank := u.rank
  covers := u.covers
  coinBase h minted := by
    rw [Tx.isCoinBase, Bool.and_eq_true] at minted
    exact of_decide_eq_true minted.1

structure Block where
  hash : Hash
  vtx : List Hash
deriving DecidableEq

def blocks (chain : List Block) : List Mempool.Block := chain.map Block.vtx

/-! ## Heights -/

/-- TX-LOC, which maps a transaction to the block of its first location, and the published active chain. -/
structure Index where
  loc : Hash → Option Hash
  published : List Hash

/-- `GetPrevTxHeight` when the files can be read. -/
def Index.height (index : Index) (txid : Hash) : HeightResult :=
  match index.loc txid with
  | none => .notFound
  | some block =>
    match index.published.reverse.idxOf? block with
    | some height => .found height
    | none => .notActive

/-- The TX-LOC ingest of `ConnectBlock`: the first location stays. -/
def Index.ingest (index : Index) (b : Block) : Index where
  loc txid := (index.loc txid).or (if txid ∈ b.vtx then some b.hash else none)
  published := index.published

def Index.publish (index : Index) (chain : List Block) : Index := { index with published := chain.map Block.hash }

/-! ## Inputs -/

/-- The parts of a coin that the registry looks at. -/
structure Resolved where
  out : TxOut
  fCoinBase : Bool
  fCoinStake : Bool

/-- `s16_V2InputView::resolve`: an output of an earlier transaction of the block, or a coin of the store. -/
def resolve (u : Contents) (store created : Finset OutPoint) (o : OutPoint) : Option Resolved :=
  if o ∈ created ∨ o ∈ store then
    (u.tx o.txid).vout[o.n.toNat]?.map fun out => ⟨out, (u.tx o.txid).isCoinBase, (u.tx o.txid).isCoinStake⟩
  else none

/-- The transaction that `v2MapPrevTx` makes up for a coin. The first output of one that stands for a
coinstake is `CTxOut()`, whose value is -1, so `IsCoinStake` does not recognise it. -/
def madeUp (n : Nat) (coin : Resolved) : PrevTx where
  vSpent := List.replicate (n + 1) true
  txPrev.vin := if coin.fCoinBase then [nullOutPoint] else if coin.fCoinStake then [⟨ByteArr.zero 32, 0⟩] else []
  txPrev.vout := List.replicate (n + 1) TxOut.null

def PrevTx.widen (p : PrevTx) (n : Nat) : PrevTx where
  vSpent := p.vSpent ++ List.replicate (n + 1 - p.vSpent.length) true
  txPrev.vin := p.txPrev.vin
  txPrev.vout := p.txPrev.vout ++ List.replicate (n + 1 - p.txPrev.vout.length) TxOut.null

def PrevTx.setOut (p : PrevTx) (n : Nat) (out : TxOut) : PrevTx where
  vSpent := p.vSpent.set n false
  txPrev.vin := p.txPrev.vin
  txPrev.vout := p.txPrev.vout.set n out

def mapInput (m : MapPrevTx) (o : OutPoint) (coin : Resolved) : MapPrevTx :=
  let p := (m o.txid).getD (madeUp o.n.toNat coin)
  Function.update m o.txid (some ((p.widen o.n.toNat).setOut o.n.toNat coin.out))

/-- `v2MapPrevTx`. -/
def v2MapPrevTx (coin : OutPoint → Option Resolved) (vin : List OutPoint) : Option MapPrevTx :=
  vin.foldlM (fun m o => (coin o).map (mapInput m o)) fun _ => none

/-! ## Blocks -/

structure Node where
  /-- `hreg::g_registry`. -/
  registry : RegistryState
  /-- The chain of the coin store, from its tip. -/
  chain : List Block
  index : Index

section
variable (u : Contents) (fork : Nat)

/-- What a transaction of a block does to the registry, or why the block is refused; `created` are the
outputs of the transactions before it. -/
def effectsOfTx (heights : Hash → HeightResult) (store : Finset OutPoint) (height : Nat) (created : Finset OutPoint)
    (h : Hash) : Except String (List Effect) :=
  if (u.tx h).isCoinBase then .ok []
  else
    match v2MapPrevTx (resolve u store created) (u.tx h).vin with
    | none => .error "V2 Store3A cannot supply prevout data"
    | some inputs =>
      -- `IsHRegRecognitionActive`
      if fork ≤ height then (effectOf heights inputs h (u.tx h) height).map fun e => [e] else .ok []

def effectsOfTxs (heights : Hash → HeightResult) (store : Finset OutPoint) (height : Nat) :
    Finset OutPoint → List Hash → Except String (List Effect)
  | _, [] => .ok []
  | created, h :: rest => do
    let here ← effectsOfTx u fork heights store height created h
    let later ← effectsOfTxs heights store height (created ∪ u.txs.outs h) rest
    return here ++ later

/-- The effects of a block on top of a chain. -/
def effectsOfBlock (index : Index) (chain : List Block) (b : Block) : Except String (List Effect) :=
  effectsOfTxs u fork index.height (coinsOf u.txs (blocks chain)) chain.length ∅ b.vtx

/-- `ConnectBlock`: the registry is replaced when all transactions have passed, and TX-LOC takes them up. -/
def connectBlock (n : Node) (b : Block) : Except String Node := do
  let effects ← effectsOfBlock u fork n.index n.chain b
  return ⟨applyAll n.registry effects, b :: n.chain, n.index.ingest b⟩

/-- `DisconnectBlock` moves the coin store only. -/
def disconnectBlock (n : Node) : Node := { n with chain := n.chain.tail }

def Node.publish (n : Node) : Node := { n with index := n.index.publish n.chain }

/-- `SetBestChain` on a block that extends the active chain. -/
def extend (n : Node) (b : Block) : Except String Node := (connectBlock u fork n b).map Node.publish

/-- `SetBestChain` through `Reorganize`: the new chain is published when all of it is connected. -/
def reorganize (n : Node) (k : Nat) (connected : List Block) : Except String Node :=
  (connected.foldlM (connectBlock u fork) (disconnectBlock^[k] n)).map Node.publish

/-- The node that has only ever seen this chain. -/
def linear : List Block → Except String Node
  | [] => .ok ⟨.empty, [], ⟨fun _ => none, []⟩⟩
  | b :: rest => do
    let n ← linear rest
    extend u fork n b

end

end Innova.Hreg
