import Innova.Lib.Bytes

/-! Records of fields of fixed widths, and files of entries of one width. What was laid end to end
comes apart again at the widths. -/
namespace Innova.Lib.Bytes

/-! ## Fields -/

/-- The parts of the given widths, from the front. -/
def cut : List Nat → Bytes → List Bytes
  | [], _ => []
  | width :: widths, d => d.take width :: cut widths (d.drop width)

theorem cut_flatten (sized : parts.map List.length = widths) (rest : Bytes) :
    cut widths (parts.flatten ++ rest) = parts := by
  subst sized
  induction parts with
  | nil => rfl
  | cons part parts ih => simp [cut, ih]

theorem flatten_inj {parts parts' : List Bytes} (sized : parts.map List.length = parts'.map List.length)
    (same : parts.flatten = parts'.flatten) : parts = parts' := by
  rw [← cut_flatten sized [], same, cut_flatten rfl]

/-! ## Signed integers -/

/-- Two's complement in `width` bytes. -/
def ofInt (width : Nat) (z : Int) : Bytes := le width (z % (256 ^ width : Nat)).toNat

def toInt (b : Bytes) : Int :=
  if 2 * toNat b < 256 ^ b.length then toNat b else (toNat b : Int) - (256 ^ b.length : Nat)

@[simp] theorem ofInt_length (width : Nat) (z : Int) : (ofInt width z).length = width := le_length _ _

theorem toInt_ofInt {z : Int} (low : -(256 ^ width : Nat) ≤ 2 * z) (high : 2 * z < (256 ^ width : Nat)) :
    toInt (ofInt width z) = z := by
  have bound : (z % (256 ^ width : Nat)).toNat < 256 ^ width := by
    generalize 256 ^ width = m at *
    have := Int.emod_lt_of_pos z (b := (m : Int)) (by omega)
    omega
  rw [toInt, ofInt_length, ofInt, toNat_le_of_lt bound]
  generalize 256 ^ width = m at *
  rcases lt_or_ge z 0 with negative | nonneg
  · have wrapped : z % (m : Int) = z + m := by
      rw [← Int.add_emod_right, Int.emod_eq_of_lt (by omega) (by omega)]
    split <;> omega
  · have plain : z % (m : Int) = z := Int.emod_eq_of_lt nonneg (by omega)
    split <;> omega

/-! ## Entries -/

section
variable {entries : List Bytes} (sized : ∀ e ∈ entries, e.length = width)
include sized

/-- Entries of one width: the one at `i`. -/
theorem slice_entry (front : Bytes)
    (found : entries[i]? = some e) : slice (front ++ entries.flatten) (front.length + i * width) width = e := by
  induction entries generalizing front i with
  | nil => cases found
  | cons first entries ih =>
    have here := sized first List.mem_cons_self
    cases i with
    | zero =>
      obtain rfl : first = e := by simpa using found
      simp [slice, ← here]
    | succ i =>
      have later := ih (fun e member => sized e (List.mem_cons_of_mem _ member)) (front ++ first)
        (i := i) (by simpa using found)
      rw [← later, List.flatten_cons, ← List.append_assoc, List.length_append, here]
      congr 1
      ring

theorem flatten_length :
    entries.flatten.length = entries.length * width := by
  induction entries with
  | nil => simp
  | cons first entries ih =>
    rw [List.flatten_cons, List.length_append, ih fun e member => sized e (List.mem_cons_of_mem _ member),
      sized first List.mem_cons_self, List.length_cons]
    ring

end

end Innova.Lib.Bytes
