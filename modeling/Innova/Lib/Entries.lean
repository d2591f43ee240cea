import Mathlib.Order.Basic
import Mathlib.Order.Lattice
import Mathlib.Data.List.TakeDrop
import Mathlib.Tactic.Common

/-! Sorted association lists as finite maps. A scan that stops at the first key
not below the wanted one is an exact lookup, insertion and removal on such lists,
and a list cut at a separator can be edited on either side alone. -/
namespace Innova.Lib.Entries

variable {K V : Type} [LinearOrder K] {es high : List (K × V)} {k : K} {v : V} {e : K × V}

/-- Keys strictly increase along the list. -/
def Sorted (es : List (K × V)) : Prop := es.Pairwise (·.1 < ·.1)

/-- The entries a scan for `k` passes over. -/
def passed (es : List (K × V)) (k : K) : List (K × V) := es.takeWhile (·.1 < k)

/-- The entries from the scan position for `k` on, without an entry for `k` itself. -/
def after (es : List (K × V)) (k : K) : List (K × V) :=
  match es.dropWhile (·.1 < k) with
  | e :: rest => if e.1 = k then rest else e :: rest
  | [] => []

/-- Sets the value of `k`, at the scan position. -/
def insert (es : List (K × V)) (k : K) (v : V) : List (K × V) := passed es k ++ (k, v) :: after es k

/-- Removes the entry of `k` if the scan meets it. -/
def erase (es : List (K × V)) (k : K) : List (K × V) := passed es k ++ after es k

/-- Whether the scan for `k` stops at an entry of `k` itself. -/
def present (es : List (K × V)) (k : K) : Bool :=
  match es.dropWhile (·.1 < k) with
  | e :: _ => e.1 = k
  | [] => false

/-- Looks `k` up, giving up at the first larger key. -/
def find : List (K × V) → K → Option V
  | [], _ => none
  | e :: rest, k => if e.1 = k then some e.2 else if k < e.1 then none else find rest k

/-! ## The scan step by step -/

theorem passed_cons (e : K × V) (es : List (K × V)) (k : K) :
    passed (e :: es) k = if e.1 < k then e :: passed es k else [] := by
  by_cases below : e.1 < k <;> simp [passed, below]

theorem after_cons (e : K × V) (es : List (K × V)) (k : K) :
    after (e :: es) k = if e.1 < k then after es k else if e.1 = k then es else e :: es := by
  by_cases below : e.1 < k <;> simp [after, below]

theorem insert_cons (e : K × V) (es : List (K × V)) (k : K) (v : V) : insert (e :: es) k v =
      if e.1 < k then e :: insert es k v else (k, v) :: if e.1 = k then es else e :: es := by
  by_cases below : e.1 < k <;> simp [insert, passed_cons, after_cons, below]

theorem erase_cons (e : K × V) (es : List (K × V)) (k : K) :
    erase (e :: es) k = if e.1 < k then e :: erase es k else if e.1 = k then es else e :: es := by
  by_cases below : e.1 < k <;> simp [erase, passed_cons, after_cons, below]

@[simp] theorem insert_nil (k : K) (v : V) : insert [] k v = [(k, v)] := rfl
@[simp] theorem erase_nil (k : K) : erase ([] : List (K × V)) k = [] := rfl
@[simp] theorem find_nil (k : K) : find ([] : List (K × V)) k = none := rfl

theorem sorted_cons : Sorted (e :: es) ↔ (∀ f ∈ es, e.1 < f.1) ∧ Sorted es := List.pairwise_cons

theorem sorted_append : Sorted (low ++ high) ↔ Sorted low ∧ Sorted high ∧ ∀ e ∈ low, ∀ f ∈ high, e.1 < f.1 :=
  List.pairwise_append

/-! ## Membership -/

theorem mem_insert (member : e ∈ insert es k v) : e = (k, v) ∨ e ∈ es := by
  induction es with
  | nil => simpa using member
  | cons f es ih =>
    rw [insert_cons] at member
    split_ifs at member with below same
    · rcases List.mem_cons.mp member with rfl | inside
      · exact .inr (by simp)
      · exact (ih inside).imp_right (List.mem_cons_of_mem _)
    · rcases List.mem_cons.mp member with rfl | inside
      · exact .inl rfl
      · exact .inr (List.mem_cons_of_mem _ inside)
    · exact List.mem_cons.mp member

theorem mem_erase (member : e ∈ erase es k) : e ∈ es := by
  induction es with
  | nil => simp at member
  | cons f es ih =>
    rw [erase_cons] at member
    split_ifs at member with below same
    · rcases List.mem_cons.mp member with rfl | inside
      · simp
      · exact List.mem_cons_of_mem _ (ih inside)
    · exact List.mem_cons_of_mem _ member
    · exact member

/-! ## Order is kept -/

theorem insert_sorted (sorted : Sorted es) (k : K) (v : V) : Sorted (insert es k v) := by
  induction es with
  | nil => simp [Sorted]
  | cons f es ih =>
    obtain ⟨head, tail⟩ := sorted_cons.mp sorted
    rw [insert_cons]
    split_ifs with below same
    · refine sorted_cons.mpr ⟨fun g member => ?_, ih tail⟩
      rcases mem_insert member with rfl | inside
      · exact below
      · exact head g inside
    · exact sorted_cons.mpr ⟨fun g member => same ▸ head g member, tail⟩
    · have above : k < f.1 := lt_of_le_of_ne (not_lt.mp below) (Ne.symm same)
      refine sorted_cons.mpr ⟨fun g member => ?_, sorted⟩
      rcases List.mem_cons.mp member with rfl | inside
      · exact above
      · exact above.trans (head g inside)

theorem erase_sorted (sorted : Sorted es) (k : K) : Sorted (erase es k) := by
  induction es with
  | nil => exact sorted
  | cons f es ih =>
    obtain ⟨head, tail⟩ := sorted_cons.mp sorted
    rw [erase_cons]
    split_ifs with below same
    · exact sorted_cons.mpr ⟨fun g member => head g (mem_erase member), ih tail⟩
    · exact tail
    · exact sorted

/-! ## Exact lookups -/

theorem find_none_of_above (above : ∀ e ∈ es, k < e.1) : find es k = none := by
  cases es with
  | nil => rfl
  | cons f es =>
    have := above f (by simp)
    simp [find, this.ne', this]

theorem find_cons (f : K × V) (es : List (K × V)) (j : K) :
    find (f :: es) j = if f.1 = j then some f.2 else if j < f.1 then none else find es j := rfl

theorem find_eq_some (sorted : Sorted es) : find es k = some v ↔ (k, v) ∈ es := by
  induction es with
  | nil => simp
  | cons f es ih =>
    obtain ⟨head, tail⟩ := sorted_cons.mp sorted
    have ih := ih tail
    obtain ⟨j, w⟩ := f
    simp only [find_cons, List.mem_cons, Prod.mk.injEq]
    rcases lt_trichotomy j k with below | rfl | above
    · simp [below.ne, below.ne', not_lt.mpr below.le, ih]
    · have fresh : (j, v) ∉ es := fun inside => lt_irrefl j (head (j, v) inside)
      simp [fresh, eq_comm]
    · have fresh : (k, v) ∉ es := fun inside => lt_irrefl k (above.trans (head (k, v) inside))
      simp [above, above.ne, above.ne', fresh]

theorem present_eq (es : List (K × V)) (k : K) : present es k = (find es k).isSome := by
  induction es with
  | nil => rfl
  | cons f es ih =>
    rcases lt_trichotomy f.1 k with below | rfl | above
    · rw [find_cons, if_neg below.ne, if_neg (not_lt.mpr below.le), ← ih]
      simp [present, below]
    · simp [present, find_cons]
    · rw [find_cons, if_pos above]
      simp [present, not_lt.mpr above.le, above.ne']

theorem erase_of_absent (absent : find es k = none) : erase es k = es := by
  induction es with
  | nil => rfl
  | cons f es ih =>
    rw [find_cons] at absent
    rw [erase_cons]
    grind

theorem insert_insert (es : List (K × V)) (k : K) (v w : V) : insert (insert es k v) k w = insert es k w := by
  induction es with
  | nil => simp [insert, passed, after]
  | cons f es ih =>
    rw [insert_cons, insert_cons]
    split
    · next below => rw [insert_cons, if_pos below, ih]
    · rw [insert_cons]
      simp

theorem find_insert (sorted : Sorted es) (k : K) (v : V) (j : K) :
    find (insert es k v) j = if j = k then some v else find es j := by
  induction es with
  | nil => grind [insert_nil, find_cons, find_nil]
  | cons f es ih =>
    obtain ⟨head, tail⟩ := sorted_cons.mp sorted
    rw [insert_cons]
    grind [find_cons]

theorem find_erase (sorted : Sorted es) (k j : K) : find (erase es k) j = if j = k then none else find es j := by
  induction es with
  | nil => simp
  | cons f es ih =>
    obtain ⟨head, tail⟩ := sorted_cons.mp sorted
    -- past a removed or larger head every remaining key is larger than `j`
    have rest (upto : j ≤ f.1) : find es j = none :=
      find_none_of_above fun g member => lt_of_le_of_lt upto (head g member)
    rw [erase_cons]
    grind [find_cons]

/-! ## Editing one side of a cut -/

theorem find_append_left (above : ∀ e ∈ high, k < e.1) : find (low ++ high) k = find low k := by
  induction low with
  | nil => exact find_none_of_above above
  | cons f low ih => simp only [List.cons_append, find, ih]

theorem find_append_right (below : ∀ e ∈ low, e.1 < k) : find (low ++ high) k = find high k := by
  induction low with
  | nil => rfl
  | cons f low ih =>
    have head := below f (by simp)
    simp only [List.cons_append, find, head.ne, not_lt.mpr head.le, if_false]
    exact ih fun e member => below e (by simp [member])

theorem insert_append_left (above : ∀ e ∈ high, k < e.1) (v : V) :
    insert (low ++ high) k v = insert low k v ++ high := by
  induction low with
  | nil =>
    cases high with
    | nil => rfl
    | cons f high =>
      have head := above f (by simp)
      simp [insert_cons, not_lt.mpr head.le, head.ne']
  | cons f low ih =>
    rw [List.cons_append, insert_cons, insert_cons]
    split_ifs with below same
    · rw [ih, List.cons_append]
    · rfl
    · rfl

theorem insert_append_right (below : ∀ e ∈ low, e.1 < k) (v : V) :
    insert (low ++ high) k v = low ++ insert high k v := by
  induction low with
  | nil => rfl
  | cons f low ih =>
    rw [List.cons_append, insert_cons, if_pos (below f (by simp)), ih fun e member => below e (by simp [member])]
    rfl

theorem erase_append_left (above : ∀ e ∈ high, k < e.1) : erase (low ++ high) k = erase low k ++ high := by
  induction low with
  | nil =>
    cases high with
    | nil => rfl
    | cons f high =>
      have head := above f (by simp)
      simp [erase_cons, not_lt.mpr head.le, head.ne']
  | cons f low ih =>
    rw [List.cons_append, erase_cons, erase_cons]
    split_ifs with below same
    · rw [ih, List.cons_append]
    · rfl
    · rfl

theorem erase_append_right (below : ∀ e ∈ low, e.1 < k) : erase (low ++ high) k = low ++ erase high k := by
  induction low with
  | nil => rfl
  | cons f low ih =>
    rw [List.cons_append, erase_cons, if_pos (below f (by simp)), ih fun e member => below e (by simp [member])]
    rfl

end Innova.Lib.Entries
