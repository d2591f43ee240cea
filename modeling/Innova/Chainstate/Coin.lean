import Innova.Chainstate.Basic

/-! Outpoints, coins and ordered deltas of `chainstate.h`, with the canonical
little-endian encoding of a coin. -/
namespace Innova.Chainstate
open Lib

structure OutPoint where
  txid : Hash
  n : UInt32
deriving DecidableEq

def OutPoint.keyBytes (o : OutPoint) : ByteArr 36 :=
  ⟨o.txid.val ++ Bytes.le 4 o.n.toNat, by simp [o.txid.property]⟩

/-- The outpoint an undo record's 36 key bytes name. -/
def OutPoint.ofKey (k : ByteArr 36) : OutPoint :=
  ⟨ByteArr.read 32 k.val 0, UInt32.ofNat (Bytes.toNat (Bytes.slice k.val 32 4))⟩

structure Coin where
  value : Int64
  script : Bytes
  height : Int32
  /-- Creation time of the transaction that made the coin. -/
  nTime : Int32
  fCoinBase : Bool
  fCoinStake : Bool
deriving DecidableEq

namespace Coin

def flags (c : Coin) : UInt8 := (if c.fCoinBase then 1 else 0) ||| (if c.fCoinStake then 2 else 0)

def encode (c : Coin) : Bytes :=
  Bytes.le 8 c.value.toUInt64.toNat ++ (Bytes.le 4 c.height.toUInt32.toNat ++ (Bytes.le 4 c.nTime.toUInt32.toNat ++
    (Bytes.le 1 c.flags.toNat ++ (Bytes.le 4 c.script.length ++ c.script))))

/-- Reads a coin at the cursor, refusing to cross `stop`. -/
def decode (d : Bytes) (stop off : Nat) : Option (Coin × Nat) := do
  let (v64, off) ← Bytes.getLE 8 d stop off
  let (h, off) ← Bytes.getLE 4 d stop off
  let (t, off) ← Bytes.getLE 4 d stop off
  let (flags, off) ← Bytes.getLE 1 d stop off
  let (sl, off) ← Bytes.getLE 4 d stop off
  let (script, off) ← Bytes.getRaw d stop off sl
  return (⟨(UInt64.ofNat v64).toInt64, script, (UInt32.ofNat h).toInt32, (UInt32.ofNat t).toInt32,
    UInt8.ofNat flags &&& 1 != 0, UInt8.ofNat flags &&& 2 != 0⟩, off)

theorem encode_length (c : Coin) : c.encode.length = 21 + c.script.length := by
  simp only [encode, List.length_append, Bytes.le_length]
  omega

private theorem flags_bits (c : Coin) : (c.flags &&& 1 != 0) = c.fCoinBase ∧ (c.flags &&& 2 != 0) = c.fCoinStake := by
  unfold flags
  cases c.fCoinBase <;> cases c.fCoinStake <;> decide

/-- A coin is read back from where it was written, and the cursor stands behind it. -/
theorem decode_laid (laid : Bytes.Laid d off c.encode) (small : c.script.length < 2 ^ 32)
    (inside : off + c.encode.length ≤ n) :
    decode d n off = some (c, off + c.encode.length) := by
  rw [encode_length] at inside
  simp only [encode, Bytes.laid_append] at laid
  obtain ⟨value, height, time, flags, len, script⟩ := laid
  simp only [Bytes.le_length] at value height time flags len script
  have readValue := value.getU64 (n := n) (by omega)
  have readHeight := height.getU32 (n := n) (by omega)
  have readTime := time.getU32 (n := n) (by omega)
  have readFlags := flags.getLE (n := n) c.flags.toNat_lt (by omega)
  have readLen := len.getLE (n := n) (by norm_num; omega) (by omega)
  have readScript := script.getRaw (n := n) rfl (by omega)
  have bits := c.flags_bits
  simp only [decode, readValue, readHeight, readTime, readFlags, readLen, readScript, Option.bind_eq_bind,
    Option.bind_some, encode_length, pure, Option.some.injEq, Prod.mk.injEq]
  refine ⟨?_, by omega⟩
  simp [bits.1, bits.2]

end Coin

/-- One normalized change of the coin set, with its full before and after state. -/
structure Op where
  op : OutPoint
  before : Option Coin
  after : Option Coin
deriving DecidableEq

abbrev Delta := List Op

theorem OutPoint.ofKey_keyBytes (o : OutPoint) : OutPoint.ofKey o.keyBytes = o := by
  have laid : Bytes.Laid o.keyBytes.val 0 (o.txid.val ++ Bytes.le 4 o.n.toNat) := ⟨[], [], by simp [keyBytes], rfl⟩
  obtain ⟨txid, n⟩ := Bytes.laid_append.mp laid
  rw [o.txid.property, Nat.zero_add] at n
  rw [OutPoint.ofKey, ByteArr.read_laid txid, n.toNat o.n.toNat_lt]
  simp

theorem OutPoint.keyBytes_injective : Function.Injective OutPoint.keyBytes := fun a b same => by
  rw [← ofKey_keyBytes a, ← ofKey_keyBytes b, same]

end Innova.Chainstate
