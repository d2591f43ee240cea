import Innova.Lib.Entries
import Mathlib.Order.WithBot
import Mathlib.Algebra.Order.Ring.Nat

/-! Search trees spread over pages. A page is read through a reference and holds
either a leaf of sorted entries or an internal node: child references with a
separator between each two neighbours. `Holds` says which entries a reference
stands for and which references its subtree occupies, so that an update can be
specified by what it does to the entries and by which pages it leaves alone. -/
namespace Innova.Lib.PagedTree
open Entries

inductive Node (K V R : Type) where
  | leaf (entries : List (K × V))
  | internal (children : List R) (keys : List K)
deriving DecidableEq

/-- The entries below a reference and the references of its subtree, root first. -/
structure Extent (K V R : Type) where
  entries : List (K × V)
  refs : List R

namespace Extent
variable {K V R : Type}

/-- Several neighbouring subtrees taken together. -/
def join (xs : List (Extent K V R)) : Extent K V R := ⟨xs.flatMap entries, xs.flatMap refs⟩

@[simp] theorem join_nil : join ([] : List (Extent K V R)) = ⟨[], []⟩ := rfl
@[simp] theorem join_cons_entries (x : Extent K V R) (xs : List (Extent K V R)) :
    (join (x :: xs)).entries = x.entries ++ (join xs).entries := rfl
@[simp] theorem join_cons_refs (x : Extent K V R) (xs : List (Extent K V R)) :
    (join (x :: xs)).refs = x.refs ++ (join xs).refs := rfl
@[simp] theorem join_append_entries (xs ys : List (Extent K V R)) :
    (join (xs ++ ys)).entries = (join xs).entries ++ (join ys).entries := by simp [join]
@[simp] theorem join_append_refs (xs ys : List (Extent K V R)) :
    (join (xs ++ ys)).refs = (join xs).refs ++ (join ys).refs := by simp [join]

theorem mem_join_refs : r ∈ (join xs).refs ↔ ∃ x ∈ xs, r ∈ x.refs := by
  simp [join]

theorem mem_join_entries : e ∈ (join xs).entries ↔ ∃ x ∈ xs, e ∈ x.entries := by simp [join]

end Extent

variable {K V R : Type} [LinearOrder K]

/-- The child slot a search for `k` takes: past every leading separator that is at most `k`. -/
def slot (keys : List K) (k : K) : Nat := (keys.takeWhile (· ≤ k)).length

@[simp] theorem slot_nil (k : K) : slot [] k = 0 := rfl

theorem slot_cons (m : K) (ks : List K) (k : K) : slot (m :: ks) k = if m ≤ k then slot ks k + 1 else 0 := by
  by_cases below : m ≤ k <;> simp [slot, below]

theorem slot_le (ks : List K) (k : K) : slot ks k ≤ ks.length := (List.takeWhile_prefix _).length_le

/-! ## Separator chains -/

section Chain
variable (P : WithBot K → WithTop K → R → Extent K V R → Prop)

/-- Neighbouring subtrees with a separator between each two: every subtree keeps
to the half-open key range its separators leave it. -/
inductive Chain : WithBot K → WithTop K → List K → List R → List (Extent K V R) → Prop where
  | last {lo : WithBot K} {hi : WithTop K} {r : R} {x : Extent K V R} (only : P lo hi r x) : Chain lo hi [] [r] [x]
  | cons {lo : WithBot K} {hi : WithTop K} {m : K} {ks : List K} {r : R} {rs : List R}
      {x : Extent K V R} {xs : List (Extent K V R)} (head : P lo m r x) (above : lo < m) (below : m < hi)
      (tail : Chain m hi ks rs xs) : Chain lo hi (m :: ks) (r :: rs) (x :: xs)
end Chain

section Chains
variable {P Q : WithBot K → WithTop K → R → Extent K V R → Prop} {lo : WithBot K} {hi : WithTop K} {k m : K}
  {js : List K} {ss : List R} {ys : List (Extent K V R)}

section
variable {rs : List R} {ks : List K} {xs : List (Extent K V R)} (chain : Chain P lo hi ks rs xs)
include chain

theorem Chain.length : rs.length = ks.length + 1 ∧ xs.length = ks.length + 1 := by
  induction chain with
  | last only => simp
  | cons head above below tail ih => simp [ih]

theorem Chain.imp (step : ∀ {lo hi r x}, x ∈ xs → P lo hi r x → Q lo hi r x) : Chain Q lo hi ks rs xs := by
  induction chain with
  | last only => exact .last (step (by simp) only)
  | cons head above below tail ih =>
    exact .cons (step (by simp) head) above below (ih fun member => step (by simp [member]))

omit chain in
theorem Chain.append (left : Chain P lo m ks rs xs) (right : Chain P m hi js ss ys) (above : lo < m) (below : m < hi) :
    Chain P lo hi (ks ++ m :: js) (rs ++ ss) (xs ++ ys) := by
  generalize middle : (m : WithTop K) = top at left
  induction left with
  | last only => subst middle; exact .cons only above below right
  | cons head first inner tail ih =>
    subst middle
    have order := WithTop.coe_lt_coe.mp inner
    exact .cons head first ((WithTop.coe_lt_coe.mpr order).trans below)
      (ih (WithBot.coe_lt_coe.mpr order) rfl)

/-- A chain can be cut at any of its separators. -/
theorem Chain.cut (cut : ks[i]? = some m) :
    lo < m ∧ m < hi ∧ Chain P lo m (ks.take i) (rs.take (i + 1)) (xs.take (i + 1)) ∧
      Chain P m hi (ks.drop (i + 1)) (rs.drop (i + 1)) (xs.drop (i + 1)) := by
  induction chain generalizing i with
  | last only => simp at cut
  | @cons lo hi n ks r rs x xs head above below tail ih =>
    cases i with
    | zero =>
      cases cut
      exact ⟨above, below, by simpa using Chain.last head, by simpa using tail⟩
    | succ i =>
      obtain ⟨beyond, under, left, right⟩ := ih (by simpa using cut)
      have order := WithBot.coe_lt_coe.mp beyond
      refine ⟨above.trans beyond, under, ?_, by simpa using right⟩
      simpa using Chain.cons head above (WithTop.coe_lt_coe.mpr order) left

/-- Where a search for `k` enters a chain: the key range of the child taken, what
stands left and right of it, and the fact that any chain over the same range may
take its place, also after its siblings moved from `P` to `Q`. -/
structure Hole (P : WithBot K → WithTop K → R → Extent K V R → Prop) (lo : WithBot K) (hi : WithTop K) (k : K)
    (kl kr : List K) (rl rr : List R) (xl xr : List (Extent K V R)) where
  a : WithBot K
  b : WithTop K
  lower : a ≤ k
  upper : k < b
  left : ∀ x ∈ xl, ∃ c d r, P c d r x ∧ d ≤ (k : WithTop K)
  right : ∀ x ∈ xr, ∃ c d r, P c d r x ∧ (k : WithBot K) < c
  fill : ∀ {Q : WithBot K → WithTop K → R → Extent K V R → Prop} {js ss ys},
    (∀ {lo hi r x}, x ∈ xl ++ xr → P lo hi r x → Q lo hi r x) → Chain Q a b js ss ys →
      Chain Q lo hi (kl ++ js ++ kr) (rl ++ ss ++ rr) (xl ++ ys ++ xr)

theorem Chain.split_members (under : (k : WithBot K) < lo) :
    ∀ x ∈ xs, ∃ c d r, P c d r x ∧ (k : WithBot K) < c := by
  induction chain with
  | last only => intro x member; cases List.mem_singleton.mp member; exact ⟨_, _, _, only, under⟩
  | cons head above below tail ih =>
    intro x member
    rcases List.mem_cons.mp member with rfl | inside
    · exact ⟨_, _, _, head, under⟩
    · exact ih (under.trans above) x inside

/-- A search for a key inside the chain's range finds its hole. -/
theorem Chain.route (lower : lo ≤ k) (upper : k < hi) :
    ∃ kl kr rl r rr xl x xr, ks = kl ++ kr ∧ rs = rl ++ r :: rr ∧ xs = xl ++ x :: xr ∧
      kl.length = slot ks k ∧ rl.length = slot ks k ∧ ∃ hole : Hole P lo hi k kl kr rl rr xl xr,
        P hole.a hole.b r x := by
  induction chain with
  | @last lo hi r x only =>
    exact ⟨[], [], [], r, [], [], x, [], rfl, rfl, rfl, rfl, rfl,
      ⟨lo, hi, lower, upper, by simp, by simp, fun _ inner => by simpa using inner⟩, only⟩
  | @cons lo hi m ks r rs x xs head above below tail ih =>
    by_cases past : m ≤ k
    · obtain ⟨kl, kr, rl, s, rr, xl, y, xr, rfl, rfl, rfl, keysAt, refsAt, hole, found⟩ :=
        ih (WithBot.coe_le_coe.mpr past) upper
      refine ⟨m :: kl, kr, r :: rl, s, rr, x :: xl, y, xr, rfl, rfl, rfl, by simp [slot_cons, past, keysAt],
        by simp [slot_cons, past, refsAt],
        ⟨hole.a, hole.b, hole.lower, hole.upper, ?_, hole.right, fun move inner => ?_⟩, found⟩
      · intro z member
        rcases List.mem_cons.mp member with rfl | inside
        · exact ⟨_, _, _, head, WithTop.coe_le_coe.mpr past⟩
        · exact hole.left z inside
      · exact .cons (move (by simp) head) above below (hole.fill (fun member => move (by simp [member])) inner)
    · have under := not_le.mp past
      refine ⟨[], m :: ks, [], r, rs, [], x, xs, rfl, rfl, rfl, by simp [slot_cons, past], by simp [slot_cons, past],
        ⟨lo, m, lower, WithTop.coe_lt_coe.mpr under, by simp,
          tail.split_members (WithBot.coe_lt_coe.mpr under), fun move inner => ?_⟩, head⟩
      simpa using inner.append (tail.imp fun member => move (by simp [member])) above below

end

end Chains

/-! ## Trees -/

/-- `Holds rd d lo hi r x`: read through `rd`, the reference `r` is the root of a
subtree of uniform depth `d` for the key range `[lo, hi)`, with extent `x`. -/
def Holds (rd : R → Option (Node K V R)) : Nat → WithBot K → WithTop K → R → Extent K V R → Prop
  | 0, lo, hi, r, x => ∃ es, rd r = some (.leaf es) ∧ Sorted es ∧
      (∀ e ∈ es, lo ≤ (e.1 : WithBot K) ∧ (e.1 : WithTop K) < hi) ∧ x = ⟨es, [r]⟩
  | d + 1, lo, hi, r, x => ∃ rs ks xs, rd r = some (.internal rs ks) ∧ ks ≠ [] ∧
      Chain (Holds rd d) lo hi ks rs xs ∧ x = ⟨(Extent.join xs).entries, r :: (Extent.join xs).refs⟩

section Trees
variable {rd : R → Option (Node K V R)} {d : Nat} {lo : WithBot K} {hi : WithTop K} {r : R} {k : K} {ks : List K}
  {rs : List R}

theorem Holds.root_mem (holds : Holds rd d lo hi r x) : r ∈ x.refs := by
  cases d with
  | zero => obtain ⟨es, -, -, -, rfl⟩ := holds; simp
  | succ d => obtain ⟨rs, ks, xs, -, -, -, rfl⟩ := holds; simp

/-- A subtree depends only on the pages it occupies. -/
theorem Holds.frame (holds : Holds rd d lo hi r x) (same : ∀ s ∈ x.refs, rd' s = rd s) : Holds rd' d lo hi r x := by
  induction d generalizing lo hi r x with
  | zero =>
    obtain ⟨es, read, rest⟩ := holds
    exact ⟨es, by rw [same r (by rw [rest.2.2]; simp), read], rest⟩
  | succ d ih =>
    obtain ⟨rs, ks, xs, read, nonempty, chain, rfl⟩ := holds
    refine ⟨rs, ks, xs, by rw [same r (by simp), read], nonempty, ?_, rfl⟩
    exact chain.imp fun member inner =>
      ih inner fun s inside => same s (List.mem_cons_of_mem _ (Extent.mem_join_refs.mpr ⟨_, member, inside⟩))

theorem Chain.frame (chain : Chain (Holds rd d) lo hi ks rs xs) (same : ∀ s ∈ (Extent.join xs).refs, rd' s = rd s) :
    Chain (Holds rd' d) lo hi ks rs xs :=
  chain.imp fun member inner => inner.frame fun s inside => same s (Extent.mem_join_refs.mpr ⟨_, member, inside⟩)

private theorem Chain.sorted_within (each : ∀ {lo hi r x}, Holds rd d lo hi r x →
      Sorted x.entries ∧ ∀ e ∈ x.entries, lo ≤ (e.1 : WithBot K) ∧ (e.1 : WithTop K) < hi)
    (chain : Chain (Holds rd d) lo hi ks rs xs) : Sorted (Extent.join xs).entries ∧
      ∀ e ∈ (Extent.join xs).entries, lo ≤ (e.1 : WithBot K) ∧ (e.1 : WithTop K) < hi := by
  induction chain with
  | last only => simpa using each only
  | @cons lo hi m ks r rs x xs head above below tail ih =>
    obtain ⟨sortedHead, inHead⟩ := each head
    obtain ⟨sortedTail, inTail⟩ := ih
    refine ⟨sorted_append.mpr ⟨sortedHead, sortedTail, fun e left f right => ?_⟩, fun e member => ?_⟩
    · exact (WithTop.coe_lt_coe.mp (inHead e left).2).trans_le (WithBot.coe_le_coe.mp (inTail f right).1)
    · rcases List.mem_append.mp member with left | right
      · exact ⟨(inHead e left).1, (inHead e left).2.trans below⟩
      · exact ⟨above.le.trans (inTail e right).1, (inTail e right).2⟩

/-- The entries of a subtree are sorted and keep to its range. -/
theorem Holds.sorted_within (holds : Holds rd d lo hi r x) :
    Sorted x.entries ∧ ∀ e ∈ x.entries, lo ≤ (e.1 : WithBot K) ∧ (e.1 : WithTop K) < hi := by
  induction d generalizing lo hi r x with
  | zero => obtain ⟨es, -, sorted, within, rfl⟩ := holds; exact ⟨sorted, within⟩
  | succ d ih =>
    obtain ⟨rs, ks, xs, -, -, chain, rfl⟩ := holds
    exact Chain.sorted_within ih chain

theorem Holds.sorted (holds : Holds rd d lo hi r x) : Sorted x.entries := holds.sorted_within.1

theorem Holds.within (holds : Holds rd d lo hi r x) (member : e ∈ x.entries) :
    lo ≤ (e.1 : WithBot K) ∧ (e.1 : WithTop K) < hi := holds.sorted_within.2 e member

theorem Chain.within (chain : Chain (Holds rd d) lo hi ks rs xs) (member : e ∈ (Extent.join xs).entries) :
    lo ≤ (e.1 : WithBot K) ∧ (e.1 : WithTop K) < hi := (Chain.sorted_within Holds.sorted_within chain).2 e member

/-- An update at `k` that acts on the entries around `k` only. -/
def Local (k : K) (edit : List (K × V) → List (K × V)) : Prop :=
  ∀ left mid right, (∀ e ∈ left, e.1 < k) → (∀ e ∈ right, k < e.1) →
    edit (left ++ mid ++ right) = left ++ edit mid ++ right

theorem insert_local (k : K) (v : V) : Local k (Entries.insert · k v) := by
  intro left mid right below above
  show Entries.insert (left ++ mid ++ right) k v = left ++ Entries.insert mid k v ++ right
  rw [insert_append_left above, insert_append_right below]

theorem erase_local (k : K) : Local k (Entries.erase · k : List (K × V) → List (K × V)) := by
  intro left mid right below above
  show Entries.erase (left ++ mid ++ right) k = left ++ Entries.erase mid k ++ right
  rw [erase_append_left above, erase_append_right below]

section Holes
variable {kl kr : List K} {rl rr : List R} {xl xr : List (Extent K V R)}
  (hole : Hole (Holds rd d) lo hi k kl kr rl rr xl xr)

include hole in
theorem Hole.below : ∀ e ∈ (Extent.join xl).entries, e.1 < k := by
  intro e member
  obtain ⟨y, inside, entry⟩ := Extent.mem_join_entries.mp member
  obtain ⟨c, b, s, held, upto⟩ := hole.left y inside
  exact WithTop.coe_lt_coe.mp ((held.within entry).2.trans_le upto)

include hole in
theorem Hole.above : ∀ e ∈ (Extent.join xr).entries, k < e.1 := by
  intro e member
  obtain ⟨y, inside, entry⟩ := Extent.mem_join_entries.mp member
  obtain ⟨c, b, s, held, past⟩ := hole.right y inside
  exact WithBot.coe_lt_coe.mp (past.trans_le (held.within entry).1)

include hole in
/-- A local update of the whole node is the update of the child the search enters. -/
theorem Hole.edit {edit : List (K × V) → List (K × V)} (isLocal : Local k edit) (mid : List (K × V)) :
    edit ((Extent.join xl).entries ++ mid ++ (Extent.join xr).entries) =
      (Extent.join xl).entries ++ edit mid ++ (Extent.join xr).entries :=
  isLocal _ _ _ hole.below hole.above

include hole in
theorem Hole.find (mid : List (K × V)) :
    find ((Extent.join xl).entries ++ mid ++ (Extent.join xr).entries) k = find mid k := by
  rw [find_append_left hole.above, find_append_right hole.below]

end Holes

/-- One step of a search: the child at the search slot holds the answer. -/
theorem Holds.descend (holds : Holds rd (d + 1) lo hi r x) (lower : lo ≤ k) (upper : k < hi) :
    ∃ rs ks c a b y, rd r = some (.internal rs ks) ∧ rs[slot ks k]? = some c ∧ Holds rd d a b c y ∧
      a ≤ (k : WithBot K) ∧ (k : WithTop K) < b ∧ find x.entries k = find y.entries k ∧ ∀ s ∈ y.refs, s ∈ x.refs := by
  obtain ⟨rs, ks, xs, read, -, chain, rfl⟩ := holds
  obtain ⟨kl, kr, rl, c, rr, xl, y, xr, rfl, rfl, rfl, -, refsAt, hole, found⟩ := chain.route lower upper
  refine ⟨_, _, c, hole.a, hole.b, y, read, ?_, found, hole.lower, hole.upper, ?_, fun s member => by simp [member]⟩
  · rw [← refsAt]; simp
  · simpa using hole.find y.entries

/-- A search for `k` takes the child with the entries up to `k` that no separator it passes exceeds. -/
theorem Chain.passed (chain : Chain (Holds rd d) lo hi ks rs xs) (lower : lo ≤ (k : WithBot K))
    (upper : (k : WithTop K) < hi) :
    ∃ c a b y, rs[slot ks k]? = some c ∧ Holds rd d a b c y ∧ a ≤ (k : WithBot K) ∧ (k : WithTop K) < b ∧
      y.entries ⊆ (Extent.join xs).entries ∧
      ∀ e ∈ (Extent.join xs).entries, e.1 ≤ k → (e ∈ y.entries ↔ ∀ m ∈ ks.takeWhile (· ≤ k), m ≤ e.1) := by
  induction chain with
  | @last lo hi r x only =>
    refine ⟨r, lo, hi, x, rfl, only, lower, upper, by simp, fun e member _ => ?_⟩
    simpa using member
  | @cons lo hi m ks r rs x xs head above below tail ih =>
    have beyond (e : K × V) (member : e ∈ (Extent.join xs).entries) : m ≤ e.1 :=
      WithBot.coe_le_coe.mp (tail.within member).1
    by_cases past : m ≤ k
    · obtain ⟨c, a, b, y, found, held, low, high, inside, taken⟩ := ih (WithBot.coe_le_coe.mpr past) upper
      refine ⟨c, a, b, y, by simpa [slot_cons, past] using found, held, low, high,
        fun e member => by simp [inside member], fun e member upto => ?_⟩
      rw [List.takeWhile_cons_of_pos (by simpa using past), List.forall_mem_cons]
      rcases List.mem_append.mp (Extent.join_cons_entries x xs ▸ member) with first | later
      · have under : e.1 < m := WithTop.coe_lt_coe.mp (head.within first).2
        exact iff_of_false (fun member => absurd (beyond e (inside member)) (not_le.mpr under))
          fun all => absurd all.1 (not_le.mpr under)
      · rw [taken e later upto, and_iff_right (beyond e later)]
    · refine ⟨r, lo, m, x, by simp [slot_cons, past], head, lower, WithTop.coe_lt_coe.mpr (not_le.mp past),
        fun e member => by simp [member], fun e member upto => ?_⟩
      rw [List.takeWhile_cons_of_neg (by simpa using past)]
      refine iff_of_true ?_ (by simp)
      rcases List.mem_append.mp (Extent.join_cons_entries x xs ▸ member) with first | later
      · exact first
      · exact absurd ((beyond e later).trans upto) past

/-- A tree of depth `d` occupies at least `2 ^ d` references. -/
theorem Holds.two_pow_le (holds : Holds rd d lo hi r x) : 2 ^ d ≤ x.refs.length := by
  induction d generalizing lo hi r x with
  | zero => obtain ⟨es, -, -, -, rfl⟩ := holds; simp
  | succ d ih =>
    obtain ⟨rs, ks, xs, -, nonempty, chain, rfl⟩ := holds
    -- a separator makes the first two children two subtrees of depth `d`
    cases chain with
    | last only => exact absurd rfl nonempty
    | cons head above below tail =>
      have first := ih head
      simp only [Extent.join_cons_refs, List.length_cons, List.length_append, pow_succ]
      cases tail with
      | last only =>
        have second := ih only
        simp only [Extent.join_cons_refs, List.length_append]
        omega
      | cons next _ _ _ =>
        have second := ih next
        simp only [Extent.join_cons_refs, List.length_append]
        omega

/-! ## Reachable references -/

/-- References met by walking down from a root. -/
inductive Reaches (rd : R → Option (Node K V R)) : R → R → Prop where
  | here (r : R) : Reaches rd r r
  | child {r c s : R} {rs : List R} {ks : List K} (read : rd r = some (.internal rs ks)) (member : c ∈ rs)
      (below : Reaches rd c s) : Reaches rd r s

theorem Chain.member_of_ref (chain : Chain P lo hi ks rs xs) (member : c ∈ rs) : ∃ a b, ∃ y ∈ xs, P a b c y := by
  induction chain with
  | last only => cases List.mem_singleton.mp member; exact ⟨_, _, _, by simp, only⟩
  | cons head above below tail ih =>
    rcases List.mem_cons.mp member with rfl | inside
    · exact ⟨_, _, _, by simp, head⟩
    · obtain ⟨a, b, y, found, held⟩ := ih inside
      exact ⟨a, b, y, by simp [found], held⟩

theorem Chain.ref_of_member (chain : Chain P lo hi ks rs xs) (member : y ∈ xs) : ∃ a b, ∃ c ∈ rs, P a b c y := by
  induction chain with
  | last only => cases List.mem_singleton.mp member; exact ⟨_, _, _, by simp, only⟩
  | cons head above below tail ih =>
    rcases List.mem_cons.mp member with rfl | inside
    · exact ⟨_, _, _, by simp, head⟩
    · obtain ⟨a, b, c, found, held⟩ := ih inside
      exact ⟨a, b, c, by simp [found], held⟩

/-- The references of an extent are exactly those its root reaches. -/
theorem Holds.reaches_iff (holds : Holds rd d lo hi r x) : Reaches rd r s ↔ s ∈ x.refs := by
  constructor
  · intro reaches
    induction reaches generalizing d lo hi x with
    | here r => exact holds.root_mem
    | child read member below ih =>
      cases d with
      | zero => obtain ⟨es, leaf, -⟩ := holds; rw [leaf] at read; cases read
      | succ d =>
        obtain ⟨rs, ks, xs, node, -, chain, rfl⟩ := holds
        rw [node] at read
        cases read
        obtain ⟨a, b, y, inside, held⟩ := chain.member_of_ref member
        exact List.mem_cons_of_mem _ (Extent.mem_join_refs.mpr ⟨y, inside, ih held⟩)
  · intro member
    induction d generalizing lo hi r x with
    | zero =>
      obtain ⟨es, -, -, -, rfl⟩ := holds
      cases List.mem_singleton.mp member
      exact .here _
    | succ d ih =>
      obtain ⟨rs, ks, xs, node, -, chain, rfl⟩ := holds
      rcases List.mem_cons.mp member with rfl | inside
      · exact .here _
      · obtain ⟨y, found, deeper⟩ := Extent.mem_join_refs.mp inside
        obtain ⟨a, b, c, edge, held⟩ := chain.ref_of_member found
        exact .child node edge (ih held deeper)

/-- Every reachable reference is the root of a subtree of its own. -/
theorem Holds.of_reaches (holds : Holds rd d lo hi r x) (reaches : Reaches rd r s) :
    ∃ e a b y, Holds rd e a b s y ∧ e ≤ d := by
  induction reaches generalizing d lo hi x with
  | here r => exact ⟨d, lo, hi, x, holds, le_rfl⟩
  | child read member below ih =>
    cases d with
    | zero => obtain ⟨es, leaf, -⟩ := holds; rw [leaf] at read; cases read
    | succ d =>
      obtain ⟨rs, ks, xs, node, -, chain, rfl⟩ := holds
      rw [node] at read
      cases read
      obtain ⟨a, b, y, -, held⟩ := chain.member_of_ref member
      obtain ⟨e, lo', hi', z, deeper, bound⟩ := ih held
      exact ⟨e, lo', hi', z, deeper, bound.trans (Nat.le_succ d)⟩

end Trees
end Innova.Lib.PagedTree
