import Innova.Lib.Entries

/-! Sorted tables: the union of two of them in which the first one wins, and binary search
over a table that is read entry by entry. -/
namespace Innova.Lib.Entries

variable {ε K V : Type} [LinearOrder K] {es fs : List (K × V)} {k : K}

/-! ## Unions -/

/-- Puts `e` where it belongs in front of a table; `next` merges what follows it. -/
def mergeCons (e : K × V) (next : List (K × V) → List (K × V)) : List (K × V) → List (K × V)
  | [] => e :: next []
  | f :: fs =>
    if e.1 < f.1 then e :: next (f :: fs)
    else if f.1 < e.1 then f :: mergeCons e next fs
    else e :: next fs

/-- The union of two sorted tables; of two entries for one key the first table's is kept. -/
def merge : List (K × V) → List (K × V) → List (K × V)
  | [] => id
  | e :: es => mergeCons e (merge es)

@[simp] theorem merge_nil (fs : List (K × V)) : merge [] fs = fs := rfl

theorem merge_cons_nil (e : K × V) (es : List (K × V)) : merge (e :: es) [] = e :: merge es [] := rfl

theorem merge_cons_cons (e : K × V) (es : List (K × V)) (f : K × V) (fs : List (K × V)) : merge (e :: es) (f :: fs) =
      if e.1 < f.1 then e :: merge es (f :: fs) else if f.1 < e.1 then f :: merge (e :: es) fs else
        e :: merge es fs := rfl

theorem find_eq_none (sorted : Sorted es) : find es k = none ↔ ∀ x ∈ es, x.1 ≠ k := by
  rw [← Option.not_isSome_iff_eq_none, Option.isSome_iff_exists]
  constructor
  · rintro absent x member rfl
    exact absent ⟨x.2, (find_eq_some sorted).mpr member⟩
  · rintro apart ⟨v, found⟩
    exact apart (k, v) ((find_eq_some sorted).mp found) rfl

section
variable (left : Sorted es) (right : Sorted fs)
include left right

/-- The second table adds the keys the first does not have. -/
theorem mem_merge : x ∈ merge es fs ↔ x ∈ es ∨ x ∈ fs ∧ ∀ y ∈ es, y.1 ≠ x.1 := by
  induction es generalizing fs with
  | nil => simp
  | cons e es ihe =>
    obtain ⟨above, left⟩ := sorted_cons.mp left
    induction fs with
    | nil => simp [merge_cons_nil, ihe left right]
    | cons f fs ihf =>
      obtain ⟨higher, rest⟩ := sorted_cons.mp right
      rw [merge_cons_cons]
      split_ifs with first second
      · have ih := ihe left right
        have apart : x ∈ f :: fs → e.1 ≠ x.1 := by
          intro member
          rcases List.mem_cons.mp member with rfl | later
          · exact first.ne
          · exact (first.trans (higher x later)).ne
        rw [List.mem_cons, ih]
        grind
      · have ih := ihf rest
        have apart : ∀ y ∈ es, y.1 ≠ f.1 := fun y member => (second.trans (above y member)).ne'
        rw [List.mem_cons, ih]
        grind
      · have same : e.1 = f.1 := le_antisymm (not_lt.mp second) (not_lt.mp first)
        have ih := ihe left rest
        have apart : x ∈ fs → e.1 ≠ x.1 := fun member => same ▸ (higher x member).ne
        rw [List.mem_cons, ih]
        grind

theorem merge_sorted : Sorted (merge es fs) := by
  induction es generalizing fs with
  | nil => exact right
  | cons e es ihe =>
    have ⟨above, tail⟩ := sorted_cons.mp left
    induction fs with
    | nil =>
      rw [merge_cons_nil, sorted_cons]
      refine ⟨fun x member => ?_, ihe tail right⟩
      rcases (mem_merge tail right).mp member with inside | ⟨none, -⟩
      · exact above x inside
      · cases none
    | cons f fs ihf =>
      obtain ⟨higher, rest⟩ := sorted_cons.mp right
      rw [merge_cons_cons]
      split_ifs with first second
      · refine sorted_cons.mpr ⟨fun x member => ?_, ihe tail right⟩
        rcases (mem_merge tail right).mp member with inside | ⟨inside, -⟩
        · exact above x inside
        · rcases List.mem_cons.mp inside with rfl | later
          · exact first
          · exact first.trans (higher x later)
      · refine sorted_cons.mpr ⟨fun x member => ?_, ihf rest⟩
        rcases (mem_merge left rest).mp member with inside | ⟨inside, -⟩
        · rcases List.mem_cons.mp inside with rfl | later
          · exact second
          · exact second.trans (above x later)
        · exact higher x inside
      · have same : e.1 = f.1 := le_antisymm (not_lt.mp second) (not_lt.mp first)
        refine sorted_cons.mpr ⟨fun x member => ?_, ihe tail rest⟩
        rcases (mem_merge tail rest).mp member with inside | ⟨inside, -⟩
        · exact above x inside
        · exact same ▸ higher x inside

theorem find_merge (k : K) : find (merge es fs) k = (find es k).or (find fs k) := by
  apply Option.ext
  intro v
  rw [find_eq_some (merge_sorted left right), mem_merge left right, ← find_eq_none left, ← find_eq_some left,
    ← find_eq_some right]
  cases find es k <;> simp

end

/-! ## Binary search -/

/-- Looks for `k` among the entries `lo` to `hi`, reading one entry per step. -/
def search (read : Nat → Except ε (K × V)) (k : K) : (fuel : Nat) → (lo hi : Int) → Except ε (Option V)
  | 0, _, _ => .ok none
  | fuel + 1, lo, hi =>
    if lo ≤ hi then do
      let mid := lo + (hi - lo) / 2
      let e ← read mid.toNat
      if k = e.1 then return some e.2
      else if k < e.1 then search read k fuel lo (mid - 1)
      else search read k fuel (mid + 1) hi
    else return none

/-- The entries before `lo` are below `k`, those behind `hi` above it. -/
structure Window (es : List (K × V)) (k : K) (lo hi : Int) : Prop where
  below : ∀ (i : Nat) e, es[i]? = some e → i < lo → e.1 < k
  above : ∀ (i : Nat) e, es[i]? = some e → hi < i → k < e.1

theorem Window.empty (window : Window es k lo hi) (sorted : Sorted es) (closed : hi < lo) : find es k = none := by
  rw [find_eq_none sorted]
  intro x member
  obtain ⟨i, found⟩ := List.getElem?_of_mem member
  by_cases early : (i : Int) < lo
  · exact (window.below i x found early).ne
  · exact (window.above i x found (by omega)).ne'

theorem Sorted.getElem_lt (sorted : Sorted es) {i j : Nat} (first : es[i]? = some e) (second : es[j]? = some f)
    (less : i < j) : e.1 < f.1 := by
  obtain ⟨_, rfl⟩ := List.getElem?_eq_some_iff.mp first
  obtain ⟨_, rfl⟩ := List.getElem?_eq_some_iff.mp second
  exact List.pairwise_iff_getElem.mp sorted i j _ _ less

/-- On a sorted table the search answers as a scan of the whole table does. -/
theorem search_eq_find {read : Nat → Except ε (K × V)} (sorted : Sorted es)
    (reads : ∀ i e, es[i]? = some e → read i = .ok e)
    {fuel : Nat} {lo hi : Int} (bottom : 0 ≤ lo) (top : hi < es.length) (enough : hi - lo < fuel)
    (window : Window es k lo hi) : search read k fuel lo hi = .ok (find es k) := by
  induction fuel generalizing lo hi with
  | zero => rw [search, window.empty sorted (by omega)]
  | succ fuel ih =>
    rw [search]
    split
    · next inside =>
      obtain ⟨i, place⟩ := Int.eq_ofNat_of_zero_le (show 0 ≤ lo + (hi - lo) / 2 by omega)
      have short : i < es.length := by omega
      obtain ⟨e, found⟩ : ∃ e, es[i]? = some e := ⟨es[i], List.getElem?_eq_getElem short⟩
      simp only [place, Int.toNat_natCast, reads i e found, bind, Except.bind]
      split_ifs with same first
      · have member : (k, e.2) ∈ es := by
          rw [same]
          exact List.mem_of_getElem? found
        rw [(find_eq_some sorted).mpr member]
        rfl
      · refine ih bottom (by omega) (by omega) ⟨window.below, fun j x there late => ?_⟩
        rcases lt_trichotomy i j with later | rfl | early
        · exact first.trans (sorted.getElem_lt found there later)
        · rw [Option.mem_unique there found]
          exact first
        · omega
      · have second : e.1 < k := lt_of_le_of_ne (not_lt.mp first) (Ne.symm same)
        refine ih (by omega) top (by omega) ⟨fun j x there early => ?_, window.above⟩
        rcases lt_trichotomy i j with later | rfl | before
        · omega
        · rw [Option.mem_unique there found]
          exact second
        · exact (sorted.getElem_lt there found before).trans second
    · exact congrArg Except.ok (window.empty sorted (by omega)).symm

end Innova.Lib.Entries
