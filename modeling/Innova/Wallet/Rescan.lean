import Innova.Chainstate.Basic
import Mathlib.Data.List.Basic

/-! The two rescans of the wallet (`wallet.cpp`): `ScanForWalletTransactions`, which follows `pnext` over
the linked index, and `ScanForWalletTransactionsByValue`, which asks a reader for each height. The wallet
itself is arbitrary: it has a first-key time and takes transactions, which may change that time. -/
namespace Innova.Wallet.Rescan
open Chainstate

variable {W T : Type}

/-- A block of the active chain; `T` is the type of its transactions. -/
structure Block (T : Type) where
  hash : Hash
  nTime : UInt32
  vtx : List T

/-- What the scans use of the wallet. -/
structure Keeper (W T : Type) where
  nTimeFirstKey : W → Int
  /-- `AddToWalletIfInvolvingMe`: the wallet behind the call, and whether it took the transaction. -/
  addToWalletIfInvolvingMe : W → Block T → T → W × Bool

/-- A scan under way: the wallet, the count of transactions taken, and everything submitted so far. -/
structure Scan (W T : Type) where
  wallet : W
  ret : Nat
  submitted : List (Block T × T)

section
variable (k : Keeper W T)

/-- One transaction of a block is submitted. -/
def Scan.tx (b : Block T) (s : Scan W T) (tx : T) : Scan W T :=
  let added := k.addToWalletIfInvolvingMe s.wallet b tx
  ⟨added.1, s.ret + added.2.toNat, s.submitted ++ [(b, tx)]⟩

/-- The loop over the transactions of a block. -/
def Scan.block (s : Scan W T) (b : Block T) : Scan W T := b.vtx.foldl (Scan.tx k b) s

/-- The birthday test of the pointer scan, in `int64_t`. -/
def before (nTimeFirstKey : Int) (nTime : UInt32) : Bool :=
  nTimeFirstKey != 0 && decide ((nTime.toNat : Int) < nTimeFirstKey - 7200)

/-- `BlockIndexActiveChainReader` with the block files behind it. -/
structure ActiveReader (T : Type) where
  isOpen : Bool
  activeHeight : Int
  /-- The block's time and its place in the files. -/
  lookupByHeight : Int → Option (UInt32 × Nat)
  readFromDisk : Nat → Option (Block T)

end

/-- The reader serves the blocks of an active chain, from genesis on, and all of them read back. -/
structure ActiveReader.Serves (reader : ActiveReader T) (chain : List (Block T)) : Prop where
  isOpen : reader.isOpen = true
  activeHeight : reader.activeHeight = chain.length - 1
  serves : ∀ (h : Nat) (b : Block T), chain[h]? = some b →
    ∃ place, reader.lookupByHeight h = some (b.nTime, place) ∧ reader.readFromDisk place = some b

/-! ## What each scan submits -/

/-- What a scan submits that leaves out blocks by their times. -/
def picked (skips : UInt32 → Bool) (blocks : List (Block T)) : List (Block T × T) :=
  blocks.flatMap fun b => if skips b.nTime then [] else b.vtx.map (b, ·)

section
variable {k : Keeper W T}

/-- Taking a transaction leaves the first-key time as it is. -/
def Keeper.Steady (k : Keeper W T) : Prop :=
  ∀ w b tx, k.nTimeFirstKey (k.addToWalletIfInvolvingMe w b tx).1 = k.nTimeFirstKey w

variable {chain : List (Block T)}

end

/-! ## When they agree -/

namespace Unknown

def genesis : Block Nat := ⟨ByteArr.zero 32, 1600000000, [11, 12]⟩

def second : Block Nat := ⟨ByteArr.filled 32 1, 1700000000, [13]⟩

def reader : ActiveReader Nat where
  isOpen := true
  activeHeight := 1
  lookupByHeight h := if h = 0 then some (genesis.nTime, 8) else if h = 1 then some (second.nTime, 9) else none
  readFromDisk place := if place = 8 then some genesis else if place = 9 then some second else none

private theorem serves : reader.Serves [genesis, second] where
  isOpen := rfl
  activeHeight := by decide
  serves := by
    intro h b found
    rcases h with _ | _ | h
    · cases found
      exact ⟨8, rfl, rfl⟩
    · cases found
      exact ⟨9, rfl, rfl⟩
    · cases found

end Unknown

end Innova.Wallet.Rescan
