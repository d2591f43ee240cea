import Mathlib.Data.List.Lex
import Mathlib.Tactic.Common
import Mathlib.Tactic.Ring

/-! Byte strings as lists: little-endian integers, cursor reads and in-place
writes. A reader takes the whole string, the end it may not cross and a cursor,
so a format's decoder can be compared with C++ that walks `d`, `n` and `*off`. -/
namespace Innova.Lib

abbrev Bytes := List UInt8

/-- Bytes compare as unsigned numbers, the order `memcmp` uses. -/
instance instLinearOrderUInt8 : LinearOrder UInt8 where
  le_refl := UInt8.le_refl
  le_trans _ _ _ := UInt8.le_trans
  lt_iff_le_not_ge a b := by
    rw [UInt8.lt_iff_toNat_lt, UInt8.le_iff_toNat_le, UInt8.le_iff_toNat_le]
    omega
  le_antisymm _ _ := UInt8.le_antisymm
  le_total _ _ := UInt8.le_total ..
  toDecidableLE := inferInstance

namespace Bytes

/-! ## Little-endian integers -/

/-- The low `width` bytes of `value`, least significant first. -/
def le : (width : Nat) → (value : Nat) → Bytes
  | 0, _ => []
  | width + 1, value => UInt8.ofNat value :: le width (value / 256)

/-- The number a little-endian byte string stands for. -/
def toNat : Bytes → Nat
  | [] => 0
  | byte :: rest => byte.toNat + 256 * toNat rest

@[simp] theorem le_length (width value : Nat) : (le width value).length = width := by
  induction width generalizing value with
  | zero => rfl
  | succ width ih => simp [le, ih]

theorem toNat_le (width value : Nat) : toNat (le width value) = value % 256 ^ width := by
  induction width generalizing value with
  | zero => simp [le, toNat, Nat.mod_one]
  | succ width ih =>
    have byte : (UInt8.ofNat value).toNat = value % 256 := by simp [UInt8.toNat_ofNat']
    rw [le, toNat, ih, byte, pow_succ', Nat.mod_mul]

theorem toNat_le_of_lt (fits : value < 256 ^ width) : toNat (le width value) = value := by
  rw [toNat_le, Nat.mod_eq_of_lt fits]

theorem le_toNat (b : Bytes) : le b.length (toNat b) = b := by
  induction b with
  | nil => rfl
  | cons byte rest ih =>
    have low := byte.toNat_lt
    have high : (byte.toNat + 256 * toNat rest) / 256 = toNat rest := by omega
    have here : UInt8.ofNat (byte.toNat + 256 * toNat rest) = byte := by
      apply UInt8.toNat_inj.mp
      rw [UInt8.toNat_ofNat']
      omega
    simp only [List.length_cons, toNat, le, high, here, ih]

/-! ## Cursor reads -/

/-- The `len` bytes at `off`. -/
def slice (d : Bytes) (off len : Nat) : Bytes := (d.drop off).take len

theorem slice_length (inside : off + len ≤ d.length) : (slice d off len).length = len := by
  simp only [slice, List.length_take, List.length_drop]
  omega

theorem slice_append_append (pre mid post : Bytes) : slice (pre ++ mid ++ post) pre.length mid.length = mid := by
  simp [slice]

/-- Reads `len` raw bytes at the cursor, refusing to cross `stop`. -/
def getRaw (d : Bytes) (stop off len : Nat) : Option (Bytes × Nat) :=
  if off + len > stop then none else some (slice d off len, off + len)

/-- Reads a `width`-byte little-endian number at the cursor, refusing to cross `stop`. -/
def getLE (width : Nat) (d : Bytes) (stop off : Nat) : Option (Nat × Nat) :=
  (getRaw d stop off width).map fun (raw, next) => (toNat raw, next)

/-- `Laid d off raw` says that `raw` stands at the cursor `off` of `d`. -/
def Laid (d : Bytes) (off : Nat) (raw : Bytes) : Prop :=
  ∃ pre post, d = pre ++ raw ++ post ∧ pre.length = off

theorem laid_append : Laid d off (one ++ two) ↔ Laid d off one ∧ Laid d (off + one.length) two := by
  constructor
  · rintro ⟨pre, post, rfl, rfl⟩
    exact ⟨⟨pre, two ++ post, by simp, rfl⟩, ⟨pre ++ one, post, by simp, by simp⟩⟩
  · rintro ⟨⟨pre, post, rfl, rfl⟩, pre', post', same, size⟩
    rw [List.append_assoc pre' two] at same
    obtain ⟨rfl, rfl⟩ := List.append_inj same (by simp [size])
    exact ⟨pre, post', by simp, rfl⟩

theorem Laid.tail (laid : Laid d off (byte :: raw)) : Laid d (off + 1) raw :=
  (laid_append.mp (show Laid d off ([byte] ++ raw) from laid)).2

theorem Laid.slice (laid : Laid d off raw) : Bytes.slice d off raw.length = raw := by
  obtain ⟨pre, post, rfl, rfl⟩ := laid
  exact slice_append_append pre raw post

/-- A number is read back from where it was written. -/
theorem Laid.toNat (laid : Laid d off (le width value)) (fits : value < 256 ^ width) :
    Bytes.toNat (Bytes.slice d off width) = value := by
  have here := laid.slice
  rw [le_length] at here
  rw [here, toNat_le_of_lt fits]

theorem Laid.getD (laid : Laid d off (byte :: raw)) (default : UInt8) : d.getD off default = byte := by
  obtain ⟨pre, post, rfl, rfl⟩ := laid
  simp

theorem Laid.getRaw (laid : Laid d off raw) (size : raw.length = len) (inside : off + len ≤ n) :
    Bytes.getRaw d n off len = some (raw, off + len) := by
  subst size
  rw [Bytes.getRaw, if_neg (by omega), laid.slice]

theorem Laid.getLE (laid : Laid d off (le width value)) (fits : value < 256 ^ width) (inside : off + width ≤ n) :
    Bytes.getLE width d n off = some (value, off + width) := by
  rw [Bytes.getLE, laid.getRaw (le_length _ _) inside]
  simp [toNat_le_of_lt fits]

theorem Laid.getU32 {value : UInt32} (laid : Laid d off (le 4 value.toNat)) (inside : off + 4 ≤ n) :
    Bytes.getLE 4 d n off = some (value.toNat, off + 4) :=
  laid.getLE value.toNat_lt inside

theorem Laid.getU64 {value : UInt64} (laid : Laid d off (le 8 value.toNat)) (inside : off + 8 ≤ n) :
    Bytes.getLE 8 d n off = some (value.toNat, off + 8) :=
  laid.getLE value.toNat_lt inside

/-! ## Writes in place -/

/-- The file after `raw` is written over it at `off`. Bytes below `off` and past
the written range keep their value. -/
def writeAt (file : Bytes) (off : Nat) (raw : Bytes) : Bytes :=
  file.take off ++ raw ++ file.drop (off + raw.length)

end Bytes
end Innova.Lib
