import Mathlib.Data.Nat.Log
import Mathlib.Tactic.Ring
import Mathlib.Tactic.Linarith

/-! Compact targets (`bignum.h`) and the trust of a block (`main.cpp`): from the entropy fork on, the
bit length and the first bits of the complement of its proof. -/
namespace Innova.Difficulty

/-- `CBigNum::bitSize`. -/
def bitSize (n : Nat) : Nat := if n = 0 then 0 else n.log2 + 1

private theorem bitSize_le : bitSize n ≤ k ↔ n < 2 ^ k := by
  unfold bitSize
  split
  · next zero => simp [zero]
  · next nonzero => exact Nat.log2_lt nonzero

/-- `CBigNum::SetCompact`: a length in bytes, then the first three of them with the sign in front. -/
def setCompact (nCompact : Nat) : Int :=
  let nSize := nCompact / 2 ^ 24
  let word := nCompact % 2 ^ 24
  let n : Int := (word % 2 ^ 23 / 256 ^ (3 - nSize) * 256 ^ (nSize - 3) : Nat)
  if 2 ^ 23 ≤ word ∧ nSize ≠ 0 then -n else n

/-! ## The entropy of a hash -/

/-- `GetBlockEntropy`: the bit length of the complement, then the 32 bits behind its first one. The
`uint256` it returns stays far below 2^256. -/
def getBlockEntropy (hashValue : BitVec 256) : Nat :=
  let comp := ~~~hashValue
  if comp = 0 then 0
  else
    let nBitSize := bitSize comp.toNat
    nBitSize * 2 ^ 32 + if 33 < nBitSize then (comp >>> (nBitSize - 33)).toNat % 2 ^ 64 % 2 ^ 32 else 0

/-- What the trust of a block is read from. -/
structure Header where
  nBits : Nat
  nHeight : Int
  fProofOfStake : Bool
  hashProof : BitVec 256
  blockHash : BitVec 256

def Header.proof (x : Header) : BitVec 256 := if x.fProofOfStake then x.hashProof else x.blockHash

/-- `GetAuthoritativeBlockTrustValue`, with `FORK_HEIGHT_POEM` of the network. -/
def getAuthoritativeBlockTrustValue (poem : Int) (x : Header) : Nat :=
  let bnTarget := setCompact x.nBits
  if bnTarget ≤ 0 then 0
  else if poem ≤ x.nHeight then getBlockEntropy x.proof
  else 2 ^ 256 / (bnTarget.toNat + 1)

def leadingZeros (a : BitVec 256) : Nat := 256 - bitSize a.toNat

/-- The weight of a complement. -/
def weight (c : Nat) : Nat := bitSize c * 2 ^ 32 + if 33 < bitSize c then c / 2 ^ (bitSize c - 33) % 2 ^ 32 else 0

private theorem getBlockEntropy_eq (a : BitVec 256) : getBlockEntropy a = weight (2 ^ 256 - 1 - a.toNat) := by
  have comp : (~~~a).toNat = 2 ^ 256 - 1 - a.toNat := BitVec.toNat_not
  unfold getBlockEntropy weight
  dsimp only
  rw [← comp]
  split
  · next zero => rw [zero]; rfl
  · rw [BitVec.toNat_ushiftRight, Nat.shiftRight_eq_div_pow, Nat.mod_mod_of_dvd _ (by decide)]

private theorem weight_lt (c : Nat) : weight c < (bitSize c + 1) * 2 ^ 32 := by
  unfold weight
  split
  · omega
  · omega

/-- Of two numbers of a bit length the larger one has the larger window. -/
theorem weight_mono (le : c ≤ d) : weight c ≤ weight d := by
  have longer : bitSize c ≤ bitSize d := bitSize_le.mpr (le.trans_lt (bitSize_le.mp le_rfl))
  rcases longer.lt_or_eq with less | same
  · have := weight_lt c
    have : bitSize d * 2 ^ 32 ≤ weight d := Nat.le_add_right ..
    omega
  · unfold weight
    rw [← same]
    split
    · next wide =>
      have window {e : Nat} (size : bitSize e = bitSize c) :
          e / 2 ^ (bitSize c - 33) % 2 ^ 32 + 2 ^ 32 = e / 2 ^ (bitSize c - 33) := by
        have below : e < 2 ^ (bitSize c - 33) * 2 ^ 33 := by
          rw [← pow_add, ← size, Nat.sub_add_cancel (by omega)]
          exact bitSize_le.mp le_rfl
        have above : 2 ^ (bitSize c - 33) * 2 ^ 32 ≤ e := by
          rw [← pow_add]
          refine Nat.le_of_not_lt fun short => ?_
          have := bitSize_le.mpr short
          omega
        have := (Nat.div_lt_iff_lt_mul (by positivity)).mpr (Nat.mul_comm .. ▸ below)
        have := (Nat.le_div_iff_mul_le (by positivity)).mpr (Nat.mul_comm .. ▸ above)
        omega
      have := window rfl
      have := window same.symm
      have := Nat.div_le_div_right (c := 2 ^ (bitSize c - 33)) le
      omega
    · exact le_rfl

/-- Behind a zero bit the complement has full length, and only 32 bits of the hash count. -/
theorem getBlockEntropy_of_lt (zero : a.toNat < 2 ^ 255) :
    getBlockEntropy a = 2 ^ 40 + (2 ^ 32 - 1 - a.toNat / 2 ^ 223) := by
  have full : bitSize (2 ^ 256 - 1 - a.toNat) = 256 := by
    have short : ¬bitSize (2 ^ 256 - 1 - a.toNat) ≤ 255 := by rw [bitSize_le]; omega
    have : bitSize (2 ^ 256 - 1 - a.toNat) ≤ 256 := by rw [bitSize_le]; omega
    omega
  rw [getBlockEntropy_eq, weight, full, if_pos (by decide)]
  omega

private theorem getBlockEntropy_of_ge (one : 2 ^ 255 ≤ a.toNat) : getBlockEntropy a < 2 ^ 40 := by
  have short : bitSize (2 ^ 256 - 1 - a.toNat) ≤ 255 := by rw [bitSize_le]; omega
  rw [getBlockEntropy_eq]
  have := weight_lt (2 ^ 256 - 1 - a.toNat)
  omega

private theorem harder_iff (harder : leadingZeros b < leadingZeros a) :
    getBlockEntropy b < getBlockEntropy a ↔ leadingZeros b ≤ 32 := by
  have size (c : BitVec 256) (k : Nat) : bitSize c.toNat ≤ k ↔ c.toNat < 2 ^ k := bitSize_le
  unfold leadingZeros at harder ⊢
  -- the bit length of the easier hash separates the two
  have apart : a.toNat < 2 ^ (bitSize b.toNat - 1) ∧ 2 ^ (bitSize b.toNat - 1) ≤ b.toNat := by
    refine ⟨(size a _).mp (by omega), Nat.le_of_not_lt fun less => ?_⟩
    have := (size b _).mpr less
    omega
  have short : a.toNat < 2 ^ 255 := by
    rw [← size]
    omega
  rw [getBlockEntropy_of_lt short]
  rcases Nat.lt_or_ge b.toNat (2 ^ 255) with zero | one
  · rw [getBlockEntropy_of_lt zero]
    by_cases seen : 2 ^ 223 ≤ b.toNat
    · have long : 224 ≤ bitSize b.toNat := by
        by_contra few
        exact absurd seen (Nat.not_le.mpr ((size b 223).mp (by omega)))
      obtain ⟨k, bits⟩ := Nat.exists_eq_add_of_le long
      rw [show bitSize b.toNat - 1 = 223 + k by omega, pow_add] at apart
      constructor <;> omega
    · have few := (size b 223).mpr (Nat.not_le.mp seen)
      constructor <;> omega
  · have less := getBlockEntropy_of_ge one
    have full : ¬bitSize b.toNat ≤ 255 := by rw [size]; omega
    constructor <;> omega

/-- The entropy never falls with the hash. A hash with more leading zero bits than another has more
entropy exactly if the other has at most 32: so do the blocks they prove from the fork on. -/
theorem getBlockEntropy_harder_iff (a b : BitVec 256) : (a < b → getBlockEntropy b ≤ getBlockEntropy a) ∧
    (leadingZeros b < leadingZeros a → (getBlockEntropy b < getBlockEntropy a ↔ leadingZeros b ≤ 32)) ∧
    ∀ (poem : Int) (x y : Header), x.proof = a → y.proof = b → poem ≤ x.nHeight → poem ≤ y.nHeight →
      0 < setCompact x.nBits → 0 < setCompact y.nBits → leadingZeros b < leadingZeros a →
      (getAuthoritativeBlockTrustValue poem y < getAuthoritativeBlockTrustValue poem x ↔ leadingZeros b ≤ 32) := by
  refine ⟨fun less => ?_, harder_iff, ?_⟩
  · rw [getBlockEntropy_eq, getBlockEntropy_eq]
    exact weight_mono (Nat.sub_le_sub_left (BitVec.lt_def.mp less).le _)
  · rintro poem x y rfl rfl highX highY targetX targetY harder
    have entropy {z : Header} (high : poem ≤ z.nHeight) (target : 0 < setCompact z.nBits) :
        getAuthoritativeBlockTrustValue poem z = getBlockEntropy z.proof := by
      rw [getAuthoritativeBlockTrustValue, if_neg (Int.not_le.mpr target), if_pos high]
    rw [entropy highX targetX, entropy highY targetY]
    exact harder_iff harder

/-- Hashes of 40 and of 35 leading zero bits have the same entropy. -/
theorem harder_hash_weighs_same : ∃ a b : BitVec 256, leadingZeros a = 40 ∧ leadingZeros b = 35 ∧
    getBlockEntropy a = getBlockEntropy b :=
  ⟨BitVec.ofNat 256 (2 ^ 215), BitVec.ofNat 256 (2 ^ 220), by decide +kernel, by decide +kernel, by decide +kernel⟩

end Innova.Difficulty
