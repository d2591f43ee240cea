import Innova.Lib.Bytes

/-! The error taxonomy, hash type and SHA-256 of the chainstate slice
(`chainstate.h`, `sha256.h`). Every result about hashed pages is stated for an
arbitrary `Digest`; the slice's own SHA-256 is one instance. -/
namespace Innova.Chainstate
open Lib

/-- Explicit error classes of `chainstate.h`. -/
inductive ErrCode where
  | ok | dupOutpoint | missingInput | immature | negativeSpend | valueRange | valueOverflow
  | badSerialize | io | fs | noSpace | corrupt | unknownVersion | locked | alreadyOpen
  | notOpen | notFound | internal
deriving DecidableEq, Repr

structure ChainError where
  code : ErrCode
  msg : String
deriving DecidableEq, Repr

/-- A byte string of known length (`std::array<uint8_t, n>`). -/
abbrev ByteArr (n : Nat) := { b : Bytes // b.length = n }

abbrev Hash := ByteArr 32

instance Hash.instLawfulBEq : LawfulBEq Hash := inferInstance

/-- The all-zero array a default-constructed `std::array` holds. -/
def ByteArr.zero (n : Nat) : ByteArr n := ⟨List.replicate n 0, by simp⟩

def ByteArr.filled (n : Nat) (k : UInt8) : ByteArr n := ⟨List.replicate n k, by simp⟩

def ByteArr.ofNat (width n : Nat) : ByteArr width := ⟨Bytes.le width n, Bytes.le_length width n⟩

/-- Reads `n` raw bytes at a cursor that is known to be in range (`memcpy`). -/
def ByteArr.read (n : Nat) (d : Bytes) (off : Nat) : ByteArr n :=
  ⟨(Bytes.slice d off n ++ List.replicate n 0).take n, by simp⟩

theorem ByteArr.read_laid (laid : Bytes.Laid d off a.val) : ByteArr.read n d off = a := by
  have here : Bytes.slice d off n = a.val := by simpa [a.property] using laid.slice
  simp [ByteArr.read, here, a.property]

/-- The hash function behind `ChainedHash`: the digest of the bytes put so far. -/
class Digest where
  sha256 : Bytes → Hash

/-! ## SHA-256 -/
namespace Sha256

/-- 32-bit words are numbers below this; sums are reduced by it. -/
def modulus : Nat := 0x100000000

def rotr (x n : Nat) : Nat := (x >>> n) ||| ((x <<< (32 - n)) % modulus)

def roundConstants : List Nat :=
  [0x428a2f98, 0x71374491, 0xb5c0fbcf, 0xe9b5dba5, 0x3956c25b, 0x59f111f1, 0x923f82a4, 0xab1c5ed5,
   0xd807aa98, 0x12835b01, 0x243185be, 0x550c7dc3, 0x72be5d74, 0x80deb1fe, 0x9bdc06a7, 0xc19bf174,
   0xe49b69c1, 0xefbe4786, 0x0fc19dc6, 0x240ca1cc, 0x2de92c6f, 0x4a7484aa, 0x5cb0a9dc, 0x76f988da,
   0x983e5152, 0xa831c66d, 0xb00327c8, 0xbf597fc7, 0xc6e00bf3, 0xd5a79147, 0x06ca6351, 0x14292967,
   0x27b70a85, 0x2e1b2138, 0x4d2c6dfc, 0x53380d13, 0x650a7354, 0x766a0abb, 0x81c2c92e, 0x92722c85,
   0xa2bfe8a1, 0xa81a664b, 0xc24b8b70, 0xc76c51a3, 0xd192e819, 0xd6990624, 0xf40e3585, 0x106aa070,
   0x19a4c116, 0x1e376c08, 0x2748774c, 0x34b0bcb5, 0x391c0cb3, 0x4ed8aa4a, 0x5b9cca4f, 0x682e6ff3,
   0x748f82ee, 0x78a5636f, 0x84c87814, 0x8cc70208, 0x90befffa, 0xa4506ceb, 0xbef9a3f7, 0xc67178f2]

def initial : List Nat :=
  [0x6a09e667, 0xbb67ae85, 0x3c6ef372, 0xa54ff53a, 0x510e527f, 0x9b05688c, 0x1f83d9ab, 0x5be0cd19]

/-- The big-endian words of a block. -/
def words : Bytes → List Nat
  | a :: b :: c :: d :: rest =>
    ((a.toNat <<< 24) ||| (b.toNat <<< 16) ||| (c.toNat <<< 8) ||| d.toNat) :: words rest
  | _ => []

/-- The message schedule, newest word first. -/
def schedule : Nat → List Nat → List Nat
  | 0, m => m
  | steps + 1, m =>
    let back := fun i => m.getD (i - 1) 0
    let s0 := rotr (back 15) 7 ^^^ rotr (back 15) 18 ^^^ (back 15 >>> 3)
    let s1 := rotr (back 2) 17 ^^^ rotr (back 2) 19 ^^^ (back 2 >>> 10)
    schedule steps (((back 16 + s0 + back 7 + s1) % modulus) :: m)

def round : List Nat → Nat × Nat → List Nat
  | [a, b, c, d, e, f, g, h], (k, m) =>
    let s1 := rotr e 6 ^^^ rotr e 11 ^^^ rotr e 25
    let t1 := h + s1 + ((e &&& f) ^^^ ((e ^^^ 0xffffffff) &&& g)) + k + m
    let s0 := rotr a 2 ^^^ rotr a 13 ^^^ rotr a 22
    [(t1 + (s0 + ((a &&& b) ^^^ (a &&& c) ^^^ (b &&& c)))) % modulus, a, b, c, (d + t1) % modulus, e, f, g]
  | state, _ => state

def transform (state : List Nat) (block : Bytes) : List Nat :=
  let m := (schedule 48 (words block).reverse).reverse
  List.zipWith (fun old new => (old + new) % modulus) state ((roundConstants.zip m).foldl round state)

/-- Absorbs whole blocks. -/
def absorb : Nat → List Nat → Bytes → List Nat
  | 0, state, _ => state
  | blocks + 1, state, d => absorb blocks (transform state (d.take 64)) (d.drop 64)

/-- The message with its `0x80` marker, zero fill and big-endian bit length. -/
def padded (d : Bytes) : Bytes :=
  d ++ 0x80 :: (List.replicate ((119 - d.length % 64) % 64) 0 ++ (Bytes.le 8 (d.length * 8)).reverse)

def digest (d : Bytes) : Hash :=
  let state := absorb ((padded d).length / 64) initial (padded d)
  ByteArr.read 32 (state.flatMap fun word => (Bytes.le 4 word).reverse) 0

end Sha256

/-- The hash function the slice is built with. -/
@[reducible] def sha256Digest : Digest := ⟨Sha256.digest⟩

end Innova.Chainstate
