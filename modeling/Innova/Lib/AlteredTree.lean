import Innova.Lib.PagedTree

/-! A tree read through pages whose separators may have been altered. Leaves and child
references are the original ones, so a walk stays inside the original tree, but it may go
down another path. `Follows` says that it still takes the path of a key. -/
namespace Innova.Lib.PagedTree
open Entries

variable {K V R : Type} [LinearOrder K]

/-- The same node but for its separators. -/
def Alike : Node K V R → Node K V R → Prop
  | .leaf es, .leaf fs => fs = es
  | .internal rs ks, .internal ss js => ss = rs ∧ js.length = ks.length
  | _, _ => False

/-- Where `rd'` can read a reference of `rd`, it reads the same node but for its separators. -/
def Altered (rd rd' : R → Option (Node K V R)) : Prop := ∀ r n n', rd r = some n → rd' r = some n' → Alike n n'

/-- At every internal page on the path of `k` in the original tree, the altered separators
meet the child the path enters. -/
inductive Follows (rd rd' : R → Option (Node K V R)) (meets : List K → Nat → Prop) (k : K) : R → Prop where
  | leaf {r : R} {es : List (K × V)} (read : rd r = some (.leaf es)) : Follows rd rd' meets k r
  | child {r c : R} {rs ss : List R} {ks js : List K} (read : rd r = some (.internal rs ks))
      (other : rd' r = some (.internal ss js)) (met : meets js (slot ks k)) (edge : rs[slot ks k]? = some c)
      (below : Follows rd rd' meets k c) : Follows rd rd' meets k r

/-- The leaf a search for `k` ends in. -/
inductive Lands (rd : R → Option (Node K V R)) (k : K) : R → List (K × V) → Prop where
  | leaf {r : R} {es : List (K × V)} (read : rd r = some (.leaf es)) : Lands rd k r es
  | child {r c : R} {rs : List R} {ks : List K} {es : List (K × V)} (read : rd r = some (.internal rs ks))
      (edge : rs[slot ks k]? = some c) (below : Lands rd k c es) : Lands rd k r es

section
variable {js : List K} {xs : List (Extent K V R)} {es : List (K × V)}

theorem Chain.child_at (chain : Chain P lo hi ks rs xs) {i : Nat} (edge : rs[i]? = some c) :
    ∃ a b y, xs[i]? = some y ∧ P a b c y := by
  induction chain generalizing i with
  | last only =>
    obtain ⟨rfl, rfl⟩ : i = 0 ∧ _ = c := by simpa [List.getElem?_singleton] using edge
    exact ⟨_, _, _, rfl, only⟩
  | cons head above below tail ih =>
    cases i with
    | zero => cases edge; exact ⟨_, _, _, rfl, head⟩
    | succ i => exact ih edge

/-- The search slot of a key is the child that holds it. -/
theorem Chain.slot_of_mem (chain : Chain (Holds rd d) lo hi ks rs xs) (at_ : xs[i]? = some y) (member : e ∈ y.entries) :
    slot ks e.1 = i := by
  induction chain generalizing i with
  | last only =>
    obtain ⟨rfl, -⟩ : i = 0 ∧ _ = y := by simpa [List.getElem?_singleton] using at_
    rfl
  | @cons lo hi m ks r rs x xs head above below tail ih =>
    rw [slot_cons]
    cases i with
    | zero =>
      cases at_
      rw [if_neg (not_le.mpr (WithTop.coe_lt_coe.mp (head.within member).2))]
    | succ i =>
      have later : xs[i]? = some y := at_
      have inside : e ∈ (Extent.join xs).entries := Extent.mem_join_entries.mpr ⟨y, List.mem_of_getElem? later, member⟩
      have past : m ≤ e.1 := WithBot.coe_le_coe.mp ((tail.within inside).1)
      rw [if_pos past, ih later]

omit [LinearOrder K] in
/-- A node of the original tree seen through altered pages. -/
theorem Altered.internal (altered : Altered rd rd') (read : rd r = some (.internal rs ks))
    (other : rd' r = some (.internal ss js)) : ss = rs ∧ js.length = ks.length := altered r _ _ read other

/-- A walk through altered pages ends in a leaf of the original tree. -/
theorem Lands.within (lands : Lands rd' k r es) (altered : Altered rd rd') (holds : Holds rd d lo hi r x) :
    Sorted es ∧ ∀ e ∈ es, e ∈ x.entries := by
  induction lands generalizing d lo hi x with
  | leaf other =>
    cases d with
    | zero =>
      obtain ⟨fs, read, sorted, -, rfl⟩ := holds
      cases altered _ _ _ read other
      exact ⟨sorted, fun _ => id⟩
    | succ d =>
      obtain ⟨rs, ks, xs, read, -⟩ := holds
      exact (altered _ _ _ read other).elim
  | child other edge _ ih =>
    cases d with
    | zero =>
      obtain ⟨fs, read, -⟩ := holds
      exact (altered _ _ _ read other).elim
    | succ d =>
      obtain ⟨rs, ks, xs, read, -, chain, rfl⟩ := holds
      obtain ⟨rfl, -⟩ := altered.internal read other
      obtain ⟨a, b, y, place, held⟩ := chain.child_at edge
      obtain ⟨sorted, inside⟩ := ih held
      exact ⟨sorted, fun e member => Extent.mem_join_entries.mpr ⟨y, List.mem_of_getElem? place, inside e member⟩⟩

/-- What a walk through altered pages finds for `k` is right exactly if `k` is absent or the
walk kept to its path. -/
theorem Lands.find_iff (lands : Lands rd' k r es) (altered : Altered rd rd') (holds : Holds rd d lo hi r x)
    (lower : lo ≤ (k : WithBot K)) (upper : (k : WithTop K) < hi) :
    find es k = find x.entries k ↔ find x.entries k = none ∨ Follows rd rd' (fun keys i => slot keys k = i) k r := by
  induction lands generalizing d lo hi x with
  | leaf other =>
    cases d with
    | zero =>
      obtain ⟨fs, read, sorted, -, rfl⟩ := holds
      cases altered _ _ _ read other
      exact ⟨fun _ => .inr (.leaf read), fun _ => rfl⟩
    | succ d =>
      obtain ⟨rs, ks, xs, read, -⟩ := holds
      exact (altered _ _ _ read other).elim
  | @child r c ss js es other edge below ih =>
    obtain ⟨sorted, inside⟩ := (Lands.child other edge below).within altered holds
    cases d with
    | zero =>
      obtain ⟨fs, read, -⟩ := holds
      exact (altered _ _ _ read other).elim
    | succ d =>
      obtain ⟨rs, ks, c', a, b, y, read, entered, held, above, under, answer, -⟩ := holds.descend lower upper
      obtain ⟨rfl, -⟩ := altered.internal read other
      have same_child (same : slot js k = slot ks k) : c = c' := by
        rw [same, entered] at edge
        exact (Option.some.inj edge).symm
      constructor
      · intro same
        cases present : find x.entries k with
        | none => exact .inl rfl
        | some v =>
          rw [present] at same
          obtain ⟨rs', ks', xs, read', -, chain, rfl⟩ := holds
          cases read.symm.trans read'
          obtain ⟨_, _, z, place, held'⟩ := chain.child_at edge
          -- the leaf holds `k`, and only the child at the search slot does
          have member := (below.within altered held').2 _ ((find_eq_some sorted).mp same)
          have routed : slot js k = slot ks k := (chain.slot_of_mem place member).symm
          cases same_child routed
          have deeper := (ih held above under).mp (by rw [same, ← answer, present])
          rw [← answer, present] at deeper
          exact .inr (.child read other routed entered (deeper.resolve_left nofun))
      · rintro (absent | follows)
        · rw [absent]
          cases found : find es k with
          | none => rfl
          | some v =>
            have member := inside _ ((find_eq_some sorted).mp found)
            rw [(find_eq_some holds.sorted).mpr member] at absent
            cases absent
        · cases follows with
          | leaf leaf => rw [read] at leaf; cases leaf
          | child read' other' met edge' deeper =>
            cases read.symm.trans read'
            cases other.symm.trans other'
            cases same_child met
            cases entered.symm.trans edge'
            rw [answer]
            exact (ih held above under).mpr (.inr deeper)

/-- One step down the path of `k`. -/
theorem follows_child_iff (read : rd r = some (.internal rs ks)) (other : rd' r = some (.internal ss js))
    (edge : rs[slot ks k]? = some c) : Follows rd rd' meets k r ↔ meets js (slot ks k) ∧ Follows rd rd' meets k c := by
  constructor
  · intro follows
    cases follows with
    | leaf leaf => rw [read] at leaf; cases leaf
    | child read' other' met edge' below =>
      cases read.symm.trans read'
      cases other.symm.trans other'
      cases edge.symm.trans edge'
      exact ⟨met, below⟩
  · exact fun ⟨met, below⟩ => .child read other met edge below

end
end Innova.Lib.PagedTree
