import Innova.Lib.PagedTree

/-! Trees under edit. A batch changes leaves in memory and leaves their pages alone,
so a subtree has two readings: the edited one, `rd`, and the stored one, `base`.
The references on the way to an edited leaf are marked dirty; what hangs below an
unmarked reference reads the same both ways. -/
namespace Innova.Lib.PagedTree
open Entries

variable {K V R : Type} [LinearOrder K]

def Edited (rd base : R → Option (Node K V R)) (dirty : R → Prop) : Nat → WithBot K → WithTop K →
    R → Extent K V R → Prop
  | 0, lo, hi, r, x => Holds rd 0 lo hi r x ∧ (¬dirty r → base r = rd r)
  | d + 1, lo, hi, r, x => ∃ rs ks xs, rd r = some (.internal rs ks) ∧ base r = rd r ∧ ks ≠ [] ∧
      Chain (fun lo hi c y => Edited rd base dirty d lo hi c y ∧ (dirty c → dirty r)) lo hi ks rs xs ∧
      x = ⟨(Extent.join xs).entries, r :: (Extent.join xs).refs⟩

/-- The references a search for `k` passes, down to its leaf and the entries there. -/
inductive Search (rd : R → Option (Node K V R)) (k : K) : Nat → R → List R → R → List (K × V) → Prop where
  | leaf {r : R} {es : List (K × V)} (read : rd r = some (.leaf es)) : Search rd k 0 r [r] r es
  | step {d : Nat} {r c leaf : R} {rs trail : List R} {ks : List K} {es : List (K × V)}
      (read : rd r = some (.internal rs ks)) (child : rs[slot ks k]? = some c) (below : Search rd k d c trail leaf es) :
      Search rd k (d + 1) r (r :: trail) leaf es

/-- The dirty references of a subtree, children before parents. -/
def dirtyOrder (rd : R → Option (Node K V R)) (dirty : R → Bool) : Nat → R → List R
  | 0, r => [r]
  | d + 1, r =>
    match rd r with
    | some (.internal rs _) => (rs.filter dirty).flatMap (dirtyOrder rd dirty d) ++ [r]
    | _ => [r]

/-- A hole among subtrees of one kind is one among subtrees of a weaker kind. -/
def Hole.imp {P Q : WithBot K → WithTop K → R → Extent K V R → Prop} {lo : WithBot K} {hi : WithTop K} {k : K}
    {kl kr : List K} {rl rr : List R} {xl xr : List (Extent K V R)} (hole : Hole P lo hi k kl kr rl rr xl xr)
    (weaker : ∀ {lo hi r x}, P lo hi r x → Q lo hi r x) : Hole Q lo hi k kl kr rl rr xl xr where
  a := hole.a
  b := hole.b
  lower := hole.lower
  upper := hole.upper
  left x member := (hole.left x member).imp fun _ ⟨d, r, held, upto⟩ => ⟨d, r, weaker held, upto⟩
  right x member := (hole.right x member).imp fun _ ⟨d, r, held, past⟩ => ⟨d, r, weaker held, past⟩
  fill move inner := hole.fill (fun member held => move member (weaker held)) inner

section
variable {leaf : R} {x : Extent K V R}

theorem Edited.holds (edited : Edited rd base dirty d lo hi r x) : Holds rd d lo hi r x := by
  induction d generalizing lo hi r x with
  | zero => exact edited.1
  | succ d ih =>
    obtain ⟨rs, ks, xs, read, -, nonempty, chain, rfl⟩ := edited
    exact ⟨rs, ks, xs, read, nonempty, chain.imp fun _ child => ih child.1, rfl⟩

/-- Below an unmarked reference the stored pages are current. -/
theorem Edited.clean (edited : Edited rd base dirty d lo hi r x) (clean : ¬dirty r) : Holds base d lo hi r x := by
  induction d generalizing lo hi r x with
  | zero =>
    obtain ⟨⟨es, read, rest⟩, same⟩ := edited
    exact ⟨es, (same clean).trans read, rest⟩
  | succ d ih =>
    obtain ⟨rs, ks, xs, read, same, nonempty, chain, rfl⟩ := edited
    exact ⟨rs, ks, xs, same.trans read, nonempty, chain.imp fun _ child => ih child.1 (clean ∘ child.2), rfl⟩

/-- A tree nobody edited yet. -/
theorem Holds.edited (holds : Holds rd d lo hi r x) (same : ∀ s ∈ x.refs, base s = rd s)
    (clean : ∀ s ∈ x.refs, ¬dirty s) : Edited rd base dirty d lo hi r x := by
  induction d generalizing lo hi r x with
  | zero => exact ⟨holds, fun _ => same r holds.root_mem⟩
  | succ d ih =>
    obtain ⟨rs, ks, xs, read, nonempty, chain, rfl⟩ := holds
    refine ⟨rs, ks, xs, read, same r (by simp), nonempty, chain.imp fun {_ _ c y} member held => ?_, rfl⟩
    have deeper {s : R} (inside : s ∈ y.refs) : s ∈ r :: (Extent.join xs).refs :=
      List.mem_cons_of_mem _ (Extent.mem_join_refs.mpr ⟨y, member, inside⟩)
    exact ⟨ih held (fun s inside => same s (deeper inside)) fun s inside => clean s (deeper inside),
      fun marked => absurd marked (clean c (deeper held.root_mem))⟩

theorem Edited.frame (edited : Edited rd base dirty d lo hi r x) (same : ∀ s ∈ x.refs, rd' s = rd s)
    (stored : ∀ s ∈ x.refs, base' s = base s) (marks : ∀ s ∈ x.refs, dirty' s ↔ dirty s) :
    Edited rd' base' dirty' d lo hi r x := by
  induction d generalizing lo hi r x with
  | zero =>
    have here := edited.1.root_mem
    refine ⟨edited.1.frame same, fun clean => ?_⟩
    rw [stored r here, same r here]
    exact edited.2 fun marked => clean ((marks r here).mpr marked)
  | succ d ih =>
    obtain ⟨rs, ks, xs, read, pages, nonempty, chain, rfl⟩ := edited
    have here : r ∈ r :: (Extent.join xs).refs := by simp
    refine ⟨rs, ks, xs, by rw [same r here, read], by rw [stored r here, same r here, pages], nonempty,
      chain.imp fun {_ _ c y} member child => ?_, rfl⟩
    have deeper {s : R} (inside : s ∈ y.refs) : s ∈ r :: (Extent.join xs).refs :=
      List.mem_cons_of_mem _ (Extent.mem_join_refs.mpr ⟨y, member, inside⟩)
    refine ⟨ih child.1 (fun s inside => same s (deeper inside)) (fun s inside => stored s (deeper inside))
      fun s inside => marks s (deeper inside), fun marked => (marks r here).mpr (child.2 ?_)⟩
    exact (marks c (deeper child.1.holds.root_mem)).mp marked

theorem Search.inside (search : Search rd k d r trail leaf es) (holds : Holds rd d lo hi r x) :
    leaf ∈ trail ∧ ∀ s ∈ trail, s ∈ x.refs := by
  induction search generalizing lo hi x with
  | leaf read => obtain ⟨es, -, -, -, rfl⟩ := holds; simp
  | step read child below ih =>
    obtain ⟨rs, ks, xs, node, -, chain, rfl⟩ := holds
    rw [node] at read
    cases read
    obtain ⟨a, b, y, member, held⟩ := chain.member_of_ref (List.mem_of_getElem? child)
    obtain ⟨bottom, inner⟩ := ih held
    refine ⟨List.mem_cons_of_mem _ bottom, fun s found => ?_⟩
    rcases List.mem_cons.mp found with rfl | deeper
    · simp
    · exact List.mem_cons_of_mem _ (Extent.mem_join_refs.mpr ⟨y, member, inner s deeper⟩)

theorem Search.edit (search : Search rd k d r trail leaf es) {edit : List (K × V) → List (K × V)}
    (isLocal : Local k edit) (sorted : ∀ {es}, Sorted es → Sorted (edit es))
    (origin : ∀ {es} {e : K × V}, e ∈ edit es → e.1 = k ∨ e ∈ es)
    (edited : Edited rd base dirty d lo hi r x) (nodup : x.refs.Nodup) (lower : lo ≤ (k : WithBot K))
    (upper : (k : WithTop K) < hi) (written : rd' leaf = some (.leaf (edit es)))
    (same : ∀ s ∈ x.refs, s ≠ leaf → rd' s = rd s) (marks : ∀ s ∈ x.refs, dirty' s ↔ dirty s ∨ s ∈ trail) :
    Edited rd' base dirty' d lo hi r ⟨edit x.entries, x.refs⟩ := by
  induction search generalizing lo hi x with
  | leaf read =>
    obtain ⟨⟨es, found, inOrder, within, rfl⟩, -⟩ := edited
    rw [read] at found
    cases found
    refine ⟨⟨_, written, sorted inOrder, fun e member => ?_, rfl⟩, fun clean => ?_⟩
    · rcases origin member with rfl | old
      · exact ⟨lower, upper⟩
      · exact within e old
    · exact absurd ((marks _ (by simp)).mpr (.inr (by simp))) clean
  | @step d r c leaf rs trail ks es read child below ih =>
    obtain ⟨rs, ks, xs, node, stored, nonempty, chain, rfl⟩ := edited
    rw [node] at read
    cases read
    obtain ⟨kl, kr, rl, c', rr, xl, y, xr, rfl, rfl, rfl, -, refsAt, hole, held, mark⟩ := chain.route lower upper
    obtain rfl : c' = c := by rw [← refsAt] at child; simpa using child
    obtain ⟨bottom, inner⟩ := below.inside held.holds
    simp only [Extent.join_append_refs, Extent.join_cons_refs, List.nodup_cons, List.nodup_append, List.mem_append]
      at nodup
    obtain ⟨root, -, ⟨nodupChild, -, apartRight⟩, apartLeft⟩ := nodup
    have childRef {s : R} (member : s ∈ y.refs) : s ∈ r :: (Extent.join (xl ++ y :: xr)).refs := by simp [member]
    have here : r ≠ leaf := by rintro rfl; exact root (.inr (.inl (inner _ bottom)))
    have marked : dirty' r := (marks r (by simp)).mpr (.inr (by simp))
    -- siblings keep off the trail, so neither reading nor marks change there
    have sibling {z : Extent K V R} (member : z ∈ xl ++ xr) {s : R} (inside : s ∈ z.refs) :
        s ∈ r :: (Extent.join (xl ++ y :: xr)).refs ∧ s ≠ r ∧ s ∉ y.refs := by
      rcases List.mem_append.mp member with before | behind
      · have found := Extent.mem_join_refs.mpr ⟨z, before, inside⟩
        exact ⟨by simp [found], by rintro rfl; exact root (.inl found), fun both => apartLeft s found s (.inl both) rfl⟩
      · have found := Extent.mem_join_refs.mpr ⟨z, behind, inside⟩
        exact ⟨by simp [found], by rintro rfl; exact root (.inr (.inr found)),
          fun both => apartRight s both s found rfl⟩
    have deeper := ih held nodupChild hole.lower hole.upper written (fun s member => same s (childRef member))
      fun s member => by
        have other : s ≠ r := by rintro rfl; exact root (.inr (.inl member))
        simpa [other] using marks s (childRef member)
    have filled := hole.fill (Q := fun lo hi c z => Edited rd' base dirty' d lo hi c z ∧ (dirty' c → dirty' r))
      (fun member held => ⟨held.1.frame
        (fun s inside => same s (sibling member inside).1 fun same => (sibling member inside).2.2
          (same ▸ inner _ bottom))
        (fun _ _ => rfl) fun s inside => ?_, fun _ => marked⟩)
      (.last ⟨deeper, fun _ => marked⟩)
    · refine ⟨_, _, _, by rw [same r (by simp) here, node], by rw [same r (by simp) here, stored], nonempty,
        by simpa using filled, ?_⟩
      have edit := (hole.imp (Q := Holds rd d) fun held => held.1.holds).edit isLocal y.entries
      simpa using edit
    · obtain ⟨found, other, off⟩ := sibling member inside
      have missing : s ∉ trail := fun on => off (inner s on)
      simpa [other, missing] using marks s found

end
end Innova.Lib.PagedTree
