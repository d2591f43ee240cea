import Innova.Lib.Flags
import Innova.Chainstate.Coin
import Mathlib.Data.Finset.Basic
import Mathlib.Data.Finset.Card
import Mathlib.Data.Finset.Image

/-! The memory pool (`main.cpp`, `CTxMemPool`): `addUnchecked`, `remove` and `removeConflicts` on `mapTx` and
`mapNextTx`. A transaction is known by its hash, which stands for one content and covers its inputs. -/
namespace Innova.Mempool
open Lib Lib.Flags Chainstate

/-- `COutPoint::IsNull`. -/
def nullOutPoint : OutPoint := ⟨ByteArr.zero 32, 0xffffffff⟩

/-- What the hashes stand for. Since a hash covers the inputs, spending goes up in `rank`. -/
structure Txs where
  vin : Hash → List OutPoint
  /-- `vout.size()`. -/
  nOut : Hash → Nat
  isCoinBase : Hash → Bool
  isCoinStake : Hash → Bool
  /-- The height at the front of the `scriptSig` of a coinbase. -/
  pushedHeight : Hash → Nat
  rank : Hash → Nat
  covers : ∀ h, ∀ o ∈ vin h, rank o.txid < rank h
  coinBase : ∀ h, isCoinBase h = true → vin h = [nullOutPoint]

def Txs.outpoint (h : Hash) (i : Nat) : OutPoint := ⟨h, UInt32.ofNat i⟩

/-- The outputs of a transaction. -/
def Txs.outs (t : Txs) (h : Hash) : Finset OutPoint := (Finset.range (t.nOut h)).image (Txs.outpoint h)

/-- `CInPoint`; the pointer is the hash of the transaction it points to. -/
structure InPoint where
  ptx : Hash
  n : Nat
deriving DecidableEq

structure Pool where
  mapTx : Finset Hash
  mapNextTx : OutPoint → Option InPoint

namespace Pool
variable (t : Txs)

def empty : Pool := ⟨∅, fun _ => none⟩

/-- An input enters `mapNextTx`. -/
def enter (h : Hash) (next : OutPoint → Option InPoint) (o : OutPoint × Nat) : OutPoint → Option InPoint :=
  Function.update next o.1 (some ⟨h, o.2⟩)

/-- An input leaves `mapNextTx`. -/
def leave (next : OutPoint → Option InPoint) (o : OutPoint) : OutPoint → Option InPoint := Function.update next o none

def addUnchecked (p : Pool) (h : Hash) : Pool where
  mapTx := insert h p.mapTx
  mapNextTx := (t.vin h).zipIdx.foldl (enter h) p.mapNextTx

/-- The end of `remove`: the inputs leave `mapNextTx` and the transaction leaves `mapTx`. -/
def erase (p : Pool) (h : Hash) : Pool where
  mapTx := p.mapTx.erase h
  mapNextTx := (t.vin h).foldl leave p.mapNextTx

/-- `remove` with `fRecursive`: the spenders of each output are removed first. -/
def removeSpenders : (fuel : Nat) → Pool → Hash → Pool
  | 0, p, _ => p
  | fuel + 1, p, h =>
    if h ∈ p.mapTx then
      ((List.range (t.nOut h)).foldl (fun p i =>
        match p.mapNextTx (Txs.outpoint h i) with
        | some spender => removeSpenders fuel p spender.ptx
        | none => p) p).erase t h
    else p

/-- `remove`. No chain of spenders is longer than the pool. -/
def remove (p : Pool) (h : Hash) (fRecursive : Bool) : Pool :=
  if fRecursive then p.removeSpenders t (p.mapTx.card + 1) h
  else if h ∈ p.mapTx then p.erase t h
  else p

/-- One input of `removeConflicts`. -/
def removeConflict (h : Hash) (p : Pool) (o : OutPoint) : Pool :=
  match p.mapNextTx o with
  | some conflict => if conflict.ptx ≠ h then p.remove t conflict.ptx true else p
  | none => p

/-- `removeConflicts`. -/
def removeConflicts (p : Pool) (h : Hash) : Pool := (t.vin h).foldl (removeConflict t h) p

/-! ## The index of spent outpoints -/

/-- `mapNextTx` is exactly the index from spent outpoints to the transactions of `mapTx`. -/
def Indexed (p : Pool) : Prop :=
  ∀ o s, p.mapNextTx o = some s ↔ s.ptx ∈ p.mapTx ∧ (t.vin s.ptx)[s.n]? = some o

end Pool

section
variable {t : Txs} {p p' : Pool} {h : Hash} {o : OutPoint}
open Pool

private theorem leave_all (vin : List OutPoint) (next : OutPoint → Option InPoint) (o : OutPoint) :
    vin.foldl leave next o = if o ∈ vin then none else next o := by
  induction vin generalizing next with
  | nil => simp
  | cons first rest ih =>
    rw [List.foldl_cons, ih]
    by_cases here : o = first
    · subst here
      simp [leave]
    · simp [leave, here]

private theorem enter_all (h : Hash) {vin : List OutPoint} (distinct : vin.Nodup)
    (next : OutPoint → Option InPoint) (o : OutPoint) :
    vin.zipIdx.foldl (enter h) next o =
      if o ∈ vin then some ⟨h, vin.idxOf o⟩ else next o := by
  let inv (k : Nat) (now : OutPoint → Option InPoint) : Prop :=
    now o = if o ∈ vin ∧ vin.idxOf o < k then some ⟨h, vin.idxOf o⟩ else next o
  have run : inv vin.length (vin.zipIdx.foldl (enter h) next) := by
    apply foldl_zipIdx inv
    · simp [inv]
    · intro k x now found held
      obtain ⟨inside, value⟩ := List.getElem?_eq_some_iff.mp found
      by_cases here : o = x
      · have position : vin.idxOf o = k := by rw [here, ← value, distinct.idxOf_getElem]
        have member : o ∈ vin := here ▸ List.mem_of_getElem? found
        simp [inv, enter, ← here, position, member]
      · have other : vin.idxOf o ≠ k ∨ o ∉ vin := by
          by_contra both
          rw [not_or, not_not, not_not] at both
          exact here (by rw [← value, ← List.getElem_idxOf (List.idxOf_lt_length_of_mem both.2)]; simp [both.1])
        have next : (o ∈ vin ∧ vin.idxOf o < k + 1) ↔ (o ∈ vin ∧ vin.idxOf o < k) := by
          constructor
          · rintro ⟨member, below⟩
            exact ⟨member, by rcases other with other | other; omega; exact absurd member other⟩
          · rintro ⟨member, below⟩
            exact ⟨member, by omega⟩
        simp only [inv, enter, Function.update_of_ne here, next]
        exact held
  rw [run]
  by_cases member : o ∈ vin
  · simp [member, List.idxOf_lt_length_of_mem member]
  · simp [member]

section
variable (indexed : p.Indexed t)
include indexed

/-- No two transactions of the pool spend the same outpoint. -/
theorem Pool.Indexed.unique (heldA : a ∈ p.mapTx) (heldB : b ∈ p.mapTx) (spentA : o ∈ t.vin a)
    (spentB : o ∈ t.vin b) : a = b := by
  obtain ⟨i, found⟩ := List.mem_iff_getElem?.mp spentA
  obtain ⟨j, found'⟩ := List.mem_iff_getElem?.mp spentB
  have left := (indexed o ⟨a, i⟩).mpr ⟨heldA, found⟩
  have right := (indexed o ⟨b, j⟩).mpr ⟨heldB, found'⟩
  exact congrArg InPoint.ptx (Option.mem_unique left right)

/-- An outpoint without an entry is spent by no transaction of the pool. -/
theorem Pool.Indexed.unspent (none : p.mapNextTx o = none) (held : h ∈ p.mapTx) : o ∉ t.vin h := by
  intro spent
  obtain ⟨i, found⟩ := List.mem_iff_getElem?.mp spent
  have entry := (indexed o ⟨h, i⟩).mpr ⟨held, found⟩
  rw [none] at entry
  cases entry

private theorem Pool.Indexed.spent (found : p.mapNextTx o = some s) : s.ptx ∈ p.mapTx ∧ o ∈ t.vin s.ptx := by
  obtain ⟨held, at_⟩ := (indexed o s).mp found
  exact ⟨held, List.mem_of_getElem? at_⟩

theorem indexed_addUnchecked (distinct : (t.vin h).Nodup)
    (free : ∀ o ∈ t.vin h, p.mapNextTx o = none) : (p.addUnchecked t h).Indexed t := by
  intro o s
  simp only [addUnchecked, enter_all h distinct]
  split
  case isTrue member =>
    constructor
    · intro same
      obtain rfl := Option.some.inj same
      exact ⟨Finset.mem_insert_self _ _, List.getElem?_idxOf member⟩
    · rintro ⟨held, found⟩
      rcases Finset.mem_insert.mp held with same | old
      · obtain ⟨ptx, n⟩ := s
        obtain rfl : ptx = h := same
        obtain ⟨inside, value⟩ := List.getElem?_eq_some_iff.mp found
        rw [← value, distinct.idxOf_getElem]
      · exact absurd (List.mem_of_getElem? found) (indexed.unspent (free o member) old)
  case isFalse outside =>
    rw [indexed]
    constructor
    · exact fun ⟨held, found⟩ => ⟨Finset.mem_insert_of_mem held, found⟩
    · rintro ⟨held, found⟩
      rcases Finset.mem_insert.mp held with same | old
      · exact absurd (List.mem_of_getElem? (same ▸ found)) outside
      · exact ⟨old, found⟩

theorem indexed_erase (held : h ∈ p.mapTx) : (p.erase t h).Indexed t := by
  intro o s
  simp only [erase, leave_all]
  split
  case isTrue member =>
    constructor
    · intro none
      cases none
    · rintro ⟨kept, found⟩
      obtain ⟨other, old⟩ := Finset.mem_erase.mp kept
      exact absurd (indexed.unique old held (List.mem_of_getElem? found) member) other
  case isFalse outside =>
    rw [indexed, Finset.mem_erase]
    constructor
    · rintro ⟨old, found⟩
      refine ⟨⟨?_, old⟩, found⟩
      rintro rfl
      exact outside (List.mem_of_getElem? found)
    · exact fun ⟨⟨_, old⟩, found⟩ => ⟨old, found⟩

end

/-! ## What a removal leaves -/

/-- Whatever spends an output of a transaction with `E` has `E` too. -/
def Pool.Inherited (t : Txs) (p : Pool) (E : Hash → Prop) : Prop :=
  ∀ q, E q → ∀ y ∈ p.mapTx, ∀ o ∈ t.vin y, o ∈ t.outs q → E y

theorem Pool.Inherited.mono (inherited : p.Inherited t E) (subset : p'.mapTx ⊆ p.mapTx) : p'.Inherited t E :=
  fun q marked y held => inherited q marked y (subset held)

/-- The pool has lost transactions with `E` only, it is indexed, and no transaction of it has lost a parent
that was in the pool. -/
structure Pool.Pruned (t : Txs) (E : Hash → Prop) (p p' : Pool) : Prop where
  indexed : p'.Indexed t
  subset : p'.mapTx ⊆ p.mapTx
  closed : ∀ h ∈ p'.mapTx, ∀ o ∈ t.vin h, ∀ q ∈ p.mapTx, o ∈ t.outs q → q ∈ p'.mapTx
  only : ∀ x ∈ p.mapTx, x ∉ p'.mapTx → E x

private theorem Pool.Pruned.refl (indexed : p.Indexed t) : Pruned t E p p where
  indexed := indexed
  subset _ := id
  closed _ _ _ _ _ held _ := held
  only _ held gone := absurd held gone

private theorem Pool.Pruned.trans (first : Pruned t E p p') (second : Pruned t E p' p'') : Pruned t E p p'' where
  indexed := second.indexed
  subset := second.subset.trans first.subset
  closed h held o spent q old out :=
    second.closed h held o spent q (first.closed h (second.subset held) o spent q old out) out
  only x held gone := by
    by_cases between : x ∈ p'.mapTx
    · exact second.only x between gone
    · exact first.only x held between

/-- An outpoint that is not spent stays so. -/
theorem Pool.Indexed.unspent_mono (indexed : p.Indexed t) (indexed' : p'.Indexed t) (subset : p'.mapTx ⊆ p.mapTx)
    (free : p.mapNextTx o = none) : p'.mapNextTx o = none := by
  cases found : p'.mapNextTx o with
  | none => rfl
  | some s =>
    obtain ⟨held, spent⟩ := indexed'.spent found
    exact absurd spent (indexed.unspent free (subset held))

/-- An outpoint is free once its spender has gone. -/
theorem Pool.Indexed.freed (indexed : p.Indexed t) (indexed' : p'.Indexed t) (subset : p'.mapTx ⊆ p.mapTx)
    (held : h ∈ p.mapTx) (spent : o ∈ t.vin h) (gone : h ∉ p'.mapTx) : p'.mapNextTx o = none := by
  cases found : p'.mapNextTx o with
  | none => rfl
  | some s =>
    obtain ⟨stays, spends⟩ := indexed'.spent found
    have same := indexed.unique (subset stays) held spends spent
    exact absurd (same ▸ stays) gone

/-- The transactions of the pool that a transaction can be an ancestor of. -/
def Pool.above (t : Txs) (p : Pool) (h : Hash) : Finset Hash := p.mapTx.filter fun x => t.rank h < t.rank x

private theorem above_lt (subset : p'.mapTx ⊆ p.mapTx) (held : c ∈ p'.mapTx) (higher : t.rank h < t.rank c) :
    (p'.above t c).card < (p.above t h).card := by
  apply Finset.card_lt_card
  refine ⟨fun x inside => ?_, fun back => ?_⟩
  · obtain ⟨old, rank⟩ := Finset.mem_filter.mp inside
    exact Finset.mem_filter.mpr ⟨subset old, higher.trans rank⟩
  · have self := back (Finset.mem_filter.mpr ⟨subset held, higher⟩)
    exact absurd (Finset.mem_filter.mp self).2 (lt_irrefl _)

/-- A recursive removal takes the transaction and, before it, everything that spends its outputs. -/
theorem removeSpenders_pruned (fuel : Nat) (indexed : p.Indexed t) (inherited : p.Inherited t E) (marked : E h)
    (enough : (p.above t h).card < fuel) : Pruned t E p (p.removeSpenders t fuel h) ∧
    h ∉ (p.removeSpenders t fuel h).mapTx ∧
      ∀ x ∈ p.mapTx, t.rank x < t.rank h → x ∈ (p.removeSpenders t fuel h).mapTx := by
  induction fuel generalizing p h with
  | zero => omega
  | succ fuel ih =>
    unfold removeSpenders
    split
    case isFalse absent => exact ⟨.refl indexed, absent, fun _ held _ => held⟩
    case isTrue held =>
      -- after `k` outputs none of them is spent any more, and nothing of lower rank has gone
      have loop (k : Nat) : k ≤ t.nOut h → ∀ p', p' = (List.range k).foldl (fun p i =>
            match p.mapNextTx (Txs.outpoint h i) with
            | some spender => removeSpenders t fuel p spender.ptx
            | none => p) p →
          Pruned t E p p' ∧ (∀ i < k, p'.mapNextTx (Txs.outpoint h i) = none) ∧
            ∀ x ∈ p.mapTx, t.rank x ≤ t.rank h → x ∈ p'.mapTx := by
        induction k with
        | zero =>
          rintro - p' rfl
          exact ⟨.refl indexed, fun i below => absurd below (Nat.not_lt_zero i), fun _ held _ => held⟩
        | succ k loop =>
          rintro within p' rfl
          obtain ⟨pruned, unspent, lower⟩ := loop (by omega) _ rfl
          rw [List.range_succ, List.foldl_append, List.foldl_cons]
          split
          case h_1 spender found =>
            obtain ⟨here, spent⟩ := pruned.indexed.spent found
            have higher : t.rank h < t.rank spender.ptx := t.covers spender.ptx _ spent
            have smaller := above_lt (t := t) (h := h) pruned.subset here higher
            have out : Txs.outpoint h k ∈ t.outs h := Finset.mem_image_of_mem _ (Finset.mem_range.mpr (by omega))
            have heir := inherited h marked spender.ptx (pruned.subset here) _ spent out
            obtain ⟨next, gone, kept⟩ :=
              ih (h := spender.ptx) pruned.indexed (inherited.mono pruned.subset) heir (by omega)
            refine ⟨pruned.trans next, fun i below => ?_, fun x old low => kept x (lower x old low) (by omega)⟩
            rcases Nat.lt_succ_iff_lt_or_eq.mp below with before | rfl
            · exact pruned.indexed.unspent_mono next.indexed next.subset (unspent i before)
            · exact pruned.indexed.freed next.indexed next.subset here spent gone
          case h_2 free =>
            refine ⟨pruned, fun i below => ?_, lower⟩
            rcases Nat.lt_succ_iff_lt_or_eq.mp below with before | rfl
            · exact unspent i before
            · exact free
      obtain ⟨pruned, unspent, lower⟩ := loop (t.nOut h) le_rfl _ rfl
      have here := lower h held le_rfl
      refine ⟨⟨indexed_erase pruned.indexed here, (Finset.erase_subset _ _).trans pruned.subset, ?_, ?_⟩,
        Finset.notMem_erase _ _, ?_⟩
      · intro y kept o spent q old out
        obtain ⟨-, stays⟩ := Finset.mem_erase.mp kept
        refine Finset.mem_erase.mpr ⟨?_, pruned.closed y stays o spent q old out⟩
        rintro rfl
        obtain ⟨i, below, rfl⟩ := Finset.mem_image.mp out
        exact absurd spent (pruned.indexed.unspent (unspent i (Finset.mem_range.mp below)) stays)
      · intro x old gone
        by_cases same : x = h
        · exact same ▸ marked
        · exact pruned.only x old fun stays => gone (Finset.mem_erase.mpr ⟨same, stays⟩)
      · intro x old low
        have other : x ≠ h := by
          rintro rfl
          exact lt_irrefl _ low
        exact Finset.mem_erase.mpr ⟨other, lower x old low.le⟩

theorem remove_pruned (indexed : p.Indexed t) (inherited : p.Inherited t E) (marked : E h) :
    Pruned t E p (p.remove t h true) ∧ h ∉ (p.remove t h true).mapTx := by
  have fits : (p.above t h).card < p.mapTx.card + 1 := Nat.lt_succ_of_le (Finset.card_filter_le _ _)
  obtain ⟨pruned, gone, -⟩ := removeSpenders_pruned (p.mapTx.card + 1) indexed inherited marked fits
  exact ⟨pruned, gone⟩

/-- After `removeConflicts` of a transaction that is not in the pool nothing there spends one of its
inputs. -/
theorem removeConflicts_pruned (indexed : p.Indexed t) (inherited : p.Inherited t E) (absent : h ∉ p.mapTx)
    (marked : ∀ x ∈ p.mapTx, ∀ o ∈ t.vin x, o ∈ t.vin h → E x) :
    Pruned t E p (p.removeConflicts t h) ∧ ∀ o ∈ t.vin h, (p.removeConflicts t h).mapNextTx o = none := by
  have run (vin : List OutPoint) (all : vin ⊆ t.vin h) (p : Pool) (indexed : p.Indexed t) (inherited : p.Inherited t E)
      (absent : h ∉ p.mapTx) (marked : ∀ x ∈ p.mapTx, ∀ o ∈ t.vin x, o ∈ t.vin h → E x) :
      Pruned t E p (vin.foldl (removeConflict t h) p) ∧
        ∀ o ∈ vin, (vin.foldl (removeConflict t h) p).mapNextTx o = none := by
    induction vin generalizing p with
    | nil => exact ⟨.refl indexed, by simp⟩
    | cons o rest ih =>
      have here : Pruned t E p (removeConflict t h p o) ∧ (removeConflict t h p o).mapNextTx o = none := by
        unfold removeConflict
        split
        case h_1 conflict found =>
          obtain ⟨held, spent⟩ := indexed.spent found
          have other : conflict.ptx ≠ h := fun same => absent (same ▸ held)
          rw [if_pos other]
          obtain ⟨pruned, gone⟩ :=
            remove_pruned indexed inherited (marked conflict.ptx held o spent (all (List.mem_cons_self ..)))
          exact ⟨pruned, indexed.freed pruned.indexed pruned.subset held spent gone⟩
        case h_2 free => exact ⟨.refl indexed, free⟩
      obtain ⟨pruned, free⟩ := here
      obtain ⟨later, unspent⟩ := ih (fun x member => all (List.mem_cons_of_mem _ member)) _ pruned.indexed
        (inherited.mono pruned.subset) (fun held => absent (pruned.subset held))
        (fun x held => marked x (pruned.subset held))
      refine ⟨pruned.trans later, fun x member => ?_⟩
      rcases List.mem_cons.mp member with rfl | member
      · exact pruned.indexed.unspent_mono later.indexed later.subset free
      · exact unspent x member
  exact run (t.vin h) (List.Subset.refl _) p indexed inherited absent marked

end
end Innova.Mempool
