import Innova.BlockIndex.BlockTree
import Innova.Chainstate.Coin
import Mathlib.Algebra.BigOperators.Group.List.Basic

/-! Coin age of a coinstake (`main.cpp`, `s16_V2PrevBlockTime` and `s16_V2InputView::v2CoinAge`). An input
counts if the block that created its coin is old enough. That block is looked up by height, in the
chain that is published at that moment and then in the chain of `pindexBest`, not in the chain of the
block that is connected. -/
namespace Innova.ConnectBlock
open Lib Chainstate BlockIndex

/-! ## Block times by height -/

/-- The block index while a block is connected. -/
structure Moment where
  tree : BlockTree
  /-- The tip of the active chain in the authority: during a reorganisation the old one. -/
  published : Record
  /-- The height up to which that chain is durable, and so served by height. -/
  tipHeight : Int
  /-- Heights at which the authority cannot be read. -/
  unavailable : Int → Bool
  pindexBest : Record
  /-- The resident entries whose `pprev` was not released. -/
  linked : Record → Bool

/-- The walk over `pprev` to a height. A walk takes at most as many steps as its start is high. -/
def Moment.resident (w : Moment) (height : Int) : Nat → Record → Option Record
  | n, p =>
    if p.height = height then some p
    else if p.height < height then none
    else
      match n with
      | 0 => none
      | n + 1 => if w.linked p then (w.tree.find p.hashPrev).bind (w.resident height n) else none

/-- The constants of the network. -/
structure Params where
  nStakeMinAge : Nat
  forkHeightTighterDrift : Int

structure Tx where
  nTime : UInt32
  vin : List OutPoint

/-- `CTransaction::IsCoinBase`: one input, and that a null one. -/
def Tx.isCoinBase (tx : Tx) : Bool := tx.vin == [⟨ByteArr.zero 32, 0xffffffff⟩]

/-- `s16_V2InputView`: the outputs of this block's transactions before the coins of the store. A read
error of the store is a missing coin. -/
structure View where
  created : OutPoint → Option Coin
  store : OutPoint → Option Coin

def View.resolve (v : View) (k : OutPoint) : Option Coin := (v.created k).or (v.store k)

def coin : Int := 100000000
def cent : Int := 1000000
def year : Int := 365 * 24 * 60 * 60

/-- What a coin contributes, in cent-seconds. -/
def centSeconds (P : Params) (nBestHeight : Int) (tx : Tx) (c : Coin) : Int :=
  let nTimeDiff := (tx.nTime.toNat : Int) - c.nTime.toInt
  let nTimeDiff := if nBestHeight ≥ P.forkHeightTighterDrift ∧ nTimeDiff > year then year else nTimeDiff
  (c.value.toInt * nTimeDiff).tdiv cent

variable {P : Params} {w : Moment} {v : View} {tx : Tx} {n : Int} {time : Int → Option Nat} {r : Nat}

/-- The block at the height is old enough, by these times. -/
def OldEnough (P : Params) (tx : Tx) (time : Int → Option Nat) (height : Int) : Bool :=
  (time height).any fun t => decide (t + P.nStakeMinAge ≤ tx.nTime.toNat)

/-- What an input adds. -/
def aged (P : Params) (n : Int) (v : View) (tx : Tx) (time : Int → Option Nat) (k : OutPoint) : Int :=
  ((v.resolve k).map fun c => if OldEnough P tx time c.height.toInt then centSeconds P n tx c else 0).getD 0

section
variable {b : Record} {c : Coin} {k : OutPoint}

/-- The view in which one coin is worth something. -/
def View.only (v : View) (k : OutPoint) : View :=
  ⟨fun k' => (v.resolve k').map fun c => { c with value := if k' = k then 8640000000000 else 0 }, fun _ => none⟩

end

/-! ## A reorganisation -/

namespace Fork

def hash (n : UInt8) : Hash := ByteArr.filled 32 n

def genesis : Record := { hash := hash 1, hashPrev := ByteArr.zero 32, height := 0 }
/-- The old best block, and the branch that replaces it. -/
def left : Record := { hash := hash 2, hashPrev := hash 1, height := 1, nTime := 900000 }
def right : Record := { hash := hash 3, hashPrev := hash 1, height := 1, nTime := 1000 }
def top : Record := { hash := hash 4, hashPrev := hash 3, height := 2, nTime := 100000 }

def tree : BlockTree := .ofBlocks [genesis, left, right, top] (by decide +kernel)

/-- A thousand coins, created in the block `right`. -/
def staked : Coin := ⟨100000000000, [], 1, 1000, false, false⟩

def view : View := ⟨fun _ => none, fun k => if k = ⟨hash 9, 0⟩ then some staked else none⟩

def coinstake : Tx := ⟨100000, [⟨hash 9, 0⟩]⟩

end Fork

end Innova.ConnectBlock
