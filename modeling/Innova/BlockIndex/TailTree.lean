import Innova.BlockIndex.Tip
import Innova.Kernel.StakeModifier
import Mathlib.Logic.Relation

/-! The records above the immutable base as a forest of blocks, with the active chain among them and
the operator-invalid set: which blocks may be chosen as a tip, where a branch leaves the active
chain, and what a chain looks like that ends in the heaviest of them. -/
namespace Innova.BlockIndex
open Lib Chainstate Kernel

private theorem hashValue_inj (same : hashValue h = hashValue k) : h = k := by
  apply Subtype.ext
  have left := Bytes.le_toNat h.val
  have right := Bytes.le_toNat k.val
  rw [h.property] at left
  rw [k.property] at right
  rw [← left, ← right]
  exact congrArg (Bytes.le 32) same

/-! ## Blocks, the active chain and the invalid set -/

structure Tail where
  baseHeight : Int
  baseHash : Hash
  blocks : List Append
  /-- The places of the active blocks, the lowest first. -/
  active : List Nat
  invalid : Hash → Bool

/-- The order in which a tip is chosen: the larger trust, then the smaller hash. -/
def Beats (x y : Append) : Prop :=
  y.derived.chainTrust < x.derived.chainTrust ∨
    (x.derived.chainTrust = y.derived.chainTrust ∧ hashValue x.record.hash < hashValue y.record.hash)

instance (x y : Append) : Decidable (Beats x y) := inferInstanceAs (Decidable (_ ∨ _))

namespace Tail
variable (c : Tail)

def activeAt (rel : Nat) : Option Append := c.active[rel]?.bind fun place => c.blocks[place]?

/-- What the active block at a place of the chain names as its parent. -/
def below : Nat → Option Hash
  | 0 => some c.baseHash
  | rel + 1 => (c.activeAt rel).map (·.record.hash)

def tipHeight : Int := c.baseHeight + c.active.length

def tip? : Option Append := c.active.getLast?.bind fun place => c.blocks[place]?

def Active (b : Append) : Prop := ∃ rel, c.activeAt rel = some b

/-- An active block has the hash. -/
def isActive (h : Hash) : Bool := c.active.any fun place => (c.blocks[place]?).any fun b => b.record.hash = h

/-- The height above which a call looks for a branch: below the target, or at the tip when the block
to invalidate is not active. -/
def floor (invalidate : Bool) (hash : Hash) (height : Int) : Int :=
  if invalidate && !c.isActive hash then c.tipHeight else height - 1

/-- Where the block of a hash is stored. -/
def find (h : Hash) : Option Nat := c.blocks.findIdx? fun b => b.record.hash = h

/-- The tail with one operator intent more. -/
def mark (h : Hash) (invalidate : Bool) : Tail :=
  { c with invalid := fun k => if k = h then invalidate else c.invalid k }

/-- `p` is the parent of `b`. -/
def Names (b p : Append) : Prop := b ∈ c.blocks ∧ p ∈ c.blocks ∧ b.record.hashPrev = p.record.hash

/-- `b` is `x` or one of its ancestors. -/
def Descends (x b : Append) : Prop := Relation.ReflTransGen c.Names x b

/-- The whole ancestry down to the base is free of invalid blocks. -/
inductive Eligible : Append → Prop where
  | first {b} (mem : b ∈ c.blocks) (valid : c.invalid b.record.hash = false)
    (base : b.record.hashPrev = c.baseHash) : Eligible b
  | next {b p} (valid : c.invalid b.record.hash = false) (names : c.Names b p) (parent : Eligible p) : Eligible b

/-- The ancestry above a height is committed and free of invalid blocks. -/
inductive Open (floor : Int) : Append → Prop where
  | first {b} (mem : b ∈ c.blocks) (valid : c.invalid b.record.hash = false)
    (lowest : b.record.height = floor + 1) : Open floor b
  | next {b p} (valid : c.invalid b.record.hash = false) (names : c.Names b p) (parent : Open floor p) : Open floor b

/-- The same, and each block counts one height more than its parent. -/
inductive Unbroken (floor : Int) : Append → Prop where
  | first {b} (mem : b ∈ c.blocks) (valid : c.invalid b.record.hash = false)
    (lowest : b.record.height = floor + 1) : Unbroken floor b
  | next {b p} (valid : c.invalid b.record.hash = false) (names : c.Names b p)
    (above : b.record.height = p.record.height + 1)
    (parent : Unbroken floor p) : Unbroken floor b

/-- The first choice among the blocks that are open above a height. -/
structure Heaviest (floor : Int) (x : Append) : Prop where
  isOpen : c.Open floor x
  unbeaten : ∀ y, c.Open floor y → ¬ Beats y x

/-- The last active ancestor of `x` up to a height has the height `f`; the base counts as active. -/
structure MeetsAt (floor : Int) (x : Append) (f : Int) : Prop where
  low : f ≤ floor
  foot : (f = c.baseHeight ∧ ∃ b, c.Descends x b ∧ b.record.hashPrev = c.baseHash) ∨
    ∃ b, c.Active b ∧ c.Descends x b ∧ b.record.height = f
  last : ∀ b, c.Active b → c.Descends x b → b.record.height ≤ floor → b.record.height ≤ f

/-- An eligible block that no other outweighs. -/
def Maximal (m : Append) : Prop := c.Eligible m ∧ ∀ e, c.Eligible e → e.derived.chainTrust ≤ m.derived.chainTrust

/-- The active chain hangs together from the base on, has no invalid block, and ends in an eligible
block of the largest trust, or at the base if there is none. -/
structure Best : Prop where
  linked : ∀ rel < c.active.length, ∃ b, c.activeAt rel = some b ∧ c.below rel = some b.record.hashPrev
  valid : ∀ b, c.Active b → c.invalid b.record.hash = false
  best : match c.tip? with
    | none => ∀ e, ¬ c.Eligible e
    | some b => ∀ e, c.Eligible e → e.derived.chainTrust ≤ b.derived.chainTrust

/-- Where the first choice above a height leaves the active chain; without one, the height itself. -/
def ForksAt (floor f : Int) : Prop :=
  ((∀ x, ¬ c.Open floor x) ∧ f = floor) ∨ ∃ x, c.Heaviest floor x ∧ c.MeetsAt floor x f

/-- The active chain is valid up to `f` and a heaviest eligible block lies above `f`, or nothing
eligible lies above `f` and the active block there is a heaviest one. -/
structure BestFrom (f : Int) : Prop where
  clean : ∀ b, c.Active b → b.record.height ≤ f → c.invalid b.record.hash = false
  heaviest : (∃ m, c.Maximal m ∧ f < m.record.height) ∨
    ((∀ e, c.Eligible e → e.record.height ≤ f) ∧
      ((∃ b, c.Active b ∧ b.record.height = f ∧ c.Maximal b) ∨ (f = c.baseHeight ∧ ∀ e, ¬ c.Eligible e)))

/-- A run of valid blocks from the height after `f` on. -/
structure Runs (f : Int) (branch : List Append) : Prop where
  mem : ∀ b ∈ branch, b ∈ c.blocks
  valid : ∀ b ∈ branch, c.invalid b.record.hash = false
  height : ∀ (i : Nat) b, branch[i]? = some b → b.record.height = f + 1 + i
  linked : ∀ (i : Nat) a b, branch[i]? = some a → branch[i + 1]? = some b → b.record.hashPrev = a.record.hash

/-- The branch up to the first choice above `f`, or none. -/
def Selects (f : Int) (branch : List Append) : Prop :=
  (branch = [] ∧ ∀ x, ¬ c.Open f x) ∨ ∃ x, c.Heaviest f x ∧ branch.getLast? = some x ∧ c.Runs f branch

/-- The branch up to the first choice among the unbroken blocks above `f`, or none. -/
def Chooses (f : Int) (branch : List Append) : Prop :=
  (branch = [] ∧ ∀ x, ¬ c.Unbroken f x) ∨
    ∃ x, (c.Unbroken f x ∧ ∀ y, c.Unbroken f y → ¬ Beats y x) ∧ branch.getLast? = some x ∧ c.Runs f branch

/-- The active chain up to `f`, then the branch. -/
def spliced (f : Int) (branch : List Append) : Tail :=
  { c with active := c.active.take (f - c.baseHeight).toNat ++ branch.filterMap fun b => c.find b.record.hash }

variable {c}

theorem find_some (found : c.find h = some place) : ∃ b, c.blocks[place]? = some b ∧ b.record.hash = h := by
  obtain ⟨inside, isHash, -⟩ := List.findIdx?_eq_some_iff_getElem.mp found
  exact ⟨c.blocks[place], List.getElem?_eq_getElem inside, by simpa using isHash⟩

theorem find_mem (named : (c.blocks.map (·.record.hash)).Nodup) (mem : b ∈ c.blocks) :
    ∃ place, c.find b.record.hash = some place ∧ c.blocks[place]? = some b := by
  cases found : c.find b.record.hash with
  | none =>
    have missing := List.findIdx?_eq_none_iff.mp found b mem
    simp at missing
  | some place =>
    obtain ⟨b', stored, same⟩ := find_some found
    have equal : b' = b := List.inj_on_of_nodup_map named (List.mem_of_getElem? stored) mem same
    exact ⟨place, rfl, equal ▸ stored⟩

theorem Unbroken.isOpen (unbroken : c.Unbroken f b) : c.Open f b := by
  induction unbroken with
  | first mem valid lowest => exact .first mem valid lowest
  | next valid names _ _ ih => exact .next valid names ih

theorem Unbroken.height (unbroken : c.Unbroken f b) : f < b.record.height := by
  induction unbroken with
  | first _ _ lowest => omega
  | next _ _ above _ ih => omega

end Tail

/-- A tail whose blocks are found by their hashes, lie above the base, count their heights from
it, and whose active chain is linked to the base tip. -/
structure TailTree extends Tail where
  named : (blocks.map (·.record.hash)).Nodup
  known : baseHash ≠ ByteArr.zero 32
  above : ∀ b ∈ blocks, baseHeight < b.record.height
  rooted : ∀ b ∈ blocks, b.record.hashPrev = baseHash → b.record.height = baseHeight + 1
  grown : ∀ b p, toTail.Names b p → b.record.height = p.record.height + 1
  chained : ∀ rel < active.length, ∃ b, toTail.activeAt rel = some b ∧ b.record.height = baseHeight + 1 + rel ∧
    toTail.below rel = some b.record.hashPrev

namespace TailTree
variable {c : TailTree} {b : Append} {f : Int} {branch : List Append}

def mark (c : TailTree) (h : Hash) (invalidate : Bool) : TailTree :=
  { c with toTail := c.toTail.mark h invalidate }

/-! ## Finding blocks -/

private theorem eq_of_hash (memA : a ∈ c.blocks) (memB : b ∈ c.blocks) (same : a.record.hash = b.record.hash) : a = b :=
  List.inj_on_of_nodup_map c.named memA memB same

theorem find_mem (mem : b ∈ c.blocks) : ∃ place, c.find b.record.hash = some place ∧ c.blocks[place]? = some b :=
  Tail.find_mem c.named mem

section
variable (at_ : c.activeAt rel = some b)
include at_

theorem mem_of_activeAt : b ∈ c.blocks := by
  obtain ⟨place, -, stored⟩ := Option.bind_eq_some_iff.mp at_
  exact List.mem_of_getElem? stored

private theorem lt_of_activeAt : rel < c.active.length := by
  obtain ⟨place, found, -⟩ := Option.bind_eq_some_iff.mp at_
  exact (List.getElem?_eq_some_iff.mp found).1

omit at_ in
theorem isActive_iff : c.isActive h = true ↔ ∃ rel b, c.activeAt rel = some b ∧ b.record.hash = h := by
  simp only [Tail.isActive, List.any_eq_true, Option.any_eq_true, decide_eq_true_eq, Tail.activeAt,
    Option.bind_eq_some_iff]
  constructor
  · rintro ⟨place, member, b, stored, same⟩
    obtain ⟨rel, found⟩ := List.getElem?_of_mem member
    exact ⟨rel, b, ⟨place, found, stored⟩, same⟩
  · rintro ⟨rel, b, ⟨place, found, stored⟩, same⟩
    exact ⟨place, List.mem_of_getElem? found, b, stored, same⟩

theorem height_activeAt : b.record.height = c.baseHeight + 1 + rel := by
  obtain ⟨b', at', height, -⟩ := c.chained rel (lt_of_activeAt at_)
  obtain rfl : b' = b := Option.mem_unique at' at_
  exact height

omit at_ in
theorem height_active {rel place : Nat} (active : c.active[rel]? = some place) (stored : c.blocks[place]? = some b) :
    b.record.height = c.baseHeight + 1 + rel :=
  height_activeAt (by rw [Tail.activeAt, active, Option.bind_some, stored])

private theorem below_activeAt : c.below rel = some b.record.hashPrev := by
  obtain ⟨b', at', -, below⟩ := c.chained rel (lt_of_activeAt at_)
  obtain rfl : b' = b := Option.mem_unique at' at_
  exact below

end

/-! ## Open and eligible blocks -/

theorem mem_of_open {c : Tail} (isOpen : c.Open f b) : b ∈ c.blocks := by
  cases isOpen with
  | first mem => exact mem
  | next _ names => exact names.1

theorem valid_of_open {c : Tail} (isOpen : c.Open f b) : c.invalid b.record.hash = false := by
  cases isOpen with
  | first _ valid => exact valid
  | next valid => exact valid

theorem unbroken (isOpen : c.Open f b) : c.Unbroken f b := by
  induction isOpen with
  | first mem valid lowest => exact .first mem valid lowest
  | next valid names _ ih => exact .next valid names (c.grown _ _ names) ih

theorem height_of_open (isOpen : c.Open f b) : f < b.record.height := (unbroken isOpen).height

theorem mem_of_eligible (eligible : c.Eligible b) : b ∈ c.blocks := by
  cases eligible with
  | first mem => exact mem
  | next _ names => exact names.1

/-- An eligible block is open above every height between the base and its own. -/
theorem open_of_eligible (low : c.baseHeight ≤ f) (eligible : c.Eligible e) (higher : f < e.record.height) :
    c.Open f e := by
  induction eligible with
  | first mem valid base =>
    have height := c.rooted _ mem base
    exact .first mem valid (by omega)
  | @next b p valid names _ ih =>
    have height := c.grown _ _ names
    by_cases parentHigher : f < p.record.height
    · exact .next valid names (ih parentHigher)
    · exact .first names.1 valid (by omega)

/-- Below a height up to which it is valid, the active chain is eligible. -/
theorem eligible_of_active (clean : ∀ b, c.Active b → b.record.height ≤ f → c.invalid b.record.hash = false)
    (at_ : c.activeAt rel = some b) (low : b.record.height ≤ f) : c.Eligible b := by
  induction rel generalizing b with
  | zero =>
    have base : some c.baseHash = some b.record.hashPrev := below_activeAt at_
    exact .first (mem_of_activeAt at_) (clean b ⟨0, at_⟩ low) (Option.some.inj base).symm
  | succ rel ih =>
    obtain ⟨p, atP, parent⟩ := Option.map_eq_some_iff.mp (below_activeAt at_)
    have names : c.Names b p := ⟨mem_of_activeAt at_, mem_of_activeAt atP, parent.symm⟩
    have height := c.grown b p names
    exact .next (clean b ⟨_, at_⟩ low) names (ih atP (by omega))

/-! ## Ancestors -/

private theorem height_of_descends (descends : c.Descends x b) : b = x ∨ b.record.height < x.record.height := by
  induction descends with
  | refl => exact .inl rfl
  | @tail a b _ names ih =>
    have height := c.grown a b names
    rcases ih with rfl | lower
    · exact .inr (by omega)
    · exact .inr (by omega)

/-- A block has one ancestor at each height. -/
theorem descends_unique (one : c.Descends x a) (two : c.Descends x b)
    (height : a.record.height = b.record.height) : a = b := by
  have unique : Relator.RightUnique c.Names := by
    intro y p q namesP namesQ
    exact eq_of_hash namesP.2.1 namesQ.2.1 (namesP.2.2.symm.trans namesQ.2.2)
  rcases one.total_of_right_unique unique two with down | down
  · rcases height_of_descends down with same | lower
    · exact same.symm
    · omega
  · rcases height_of_descends down with same | lower
    · exact same
    · omega

/-! ## The first choice -/

private theorem heaviest_unique (one : c.Heaviest f x) (two : c.Heaviest f y) : x = y := by
  have first := one.unbeaten y two.isOpen
  have second := two.unbeaten x one.isOpen
  have hash : hashValue x.record.hash = hashValue y.record.hash := by
    unfold Beats at first second
    omega
  exact eq_of_hash (mem_of_open one.isOpen) (mem_of_open two.isOpen) (hashValue_inj hash)

private theorem meetsAt_unique (one : c.MeetsAt floor x f) (two : c.MeetsAt floor x g) : f = g := by
  rcases one.foot with ⟨base, -⟩ | ⟨b, active, descends, height⟩
  · rcases two.foot with ⟨base', -⟩ | ⟨b', active', descends', height'⟩
    · omega
    · have bound := one.last b' active' descends' (height' ▸ two.low)
      obtain ⟨rel, at_⟩ := active'
      have above := c.above b' (mem_of_activeAt at_)
      omega
  · have bound := two.last b active descends (height ▸ one.low)
    rcases two.foot with ⟨base', -⟩ | ⟨b', active', descends', height'⟩
    · obtain ⟨rel, at_⟩ := active
      have above := c.above b (mem_of_activeAt at_)
      omega
    · have bound' := one.last b' active' descends' (height' ▸ two.low)
      omega

theorem forksAt_unique (one : c.ForksAt floor f) (two : c.ForksAt floor g) : f = g := by
  rcases one with ⟨nothing, rfl⟩ | ⟨x, heaviest, meets⟩
  · rcases two with ⟨-, rfl⟩ | ⟨y, heaviest', -⟩
    · rfl
    · exact absurd heaviest'.isOpen (nothing y)
  · rcases two with ⟨nothing, -⟩ | ⟨y, heaviest', meets'⟩
    · exact absurd heaviest.isOpen (nothing x)
    · rw [heaviest_unique heaviest' heaviest] at meets'
      exact meetsAt_unique meets meets'

/-! ## A branch on the active chain -/

theorem runs_snoc {c : Tail} (runs : c.Runs f branch) (names : c.Names b p) (valid : c.invalid b.record.hash = false)
    (last : branch.getLast? = some p) (height : b.record.height = f + 1 + branch.length) :
    c.Runs f (branch ++ [b]) := by
  have entry {i : Nat} {y : Append} (at_ : (branch ++ [b])[i]? = some y) : branch[i]? = some y ∨
    (i = branch.length ∧ y = b) := by
    rw [List.getElem?_append] at at_
    split at at_
    · exact .inl at_
    · next outside =>
      rw [List.getElem?_singleton] at at_
      split at at_
      · exact .inr ⟨by omega, (Option.some.inj at_).symm⟩
      · cases at_
  constructor
  · intro y member
    rcases List.mem_append.mp member with old | new
    · exact runs.mem y old
    · rw [List.mem_singleton.mp new]
      exact names.1
  · intro y member
    rcases List.mem_append.mp member with old | new
    · exact runs.valid y old
    · rw [List.mem_singleton.mp new]
      exact valid
  · intro i y at_
    rcases entry at_ with old | ⟨rfl, rfl⟩
    · exact runs.height i y old
    · exact height
  · intro i x y atX atY
    rcases entry atY with old | ⟨end_, rfl⟩
    · rcases entry atX with old' | ⟨end', -⟩
      · exact runs.linked i x y old' old
      · have inside := (List.getElem?_eq_some_iff.mp old).1
        omega
    · rcases entry atX with old' | ⟨end', -⟩
      · rw [List.getLast?_eq_getElem?, show branch.length - 1 = i by omega] at last
        obtain rfl : p = x := Option.mem_unique last old'
        exact names.2.2
      · omega

/-- The last block of a run descends from all of them. -/
theorem descends_of_runs (runs : c.Runs f branch) (last : branch.getLast? = some x) {i : Nat}
    (at_ : branch[i]? = some a) :
    c.Descends x a := by
  have inside := (List.getElem?_eq_some_iff.mp at_).1
  generalize above : branch.length - 1 - i = n
  induction n generalizing i a with
  | zero =>
    rw [List.getLast?_eq_getElem?, show branch.length - 1 = i by omega] at last
    obtain rfl : x = a := Option.mem_unique last at_
    exact .refl
  | succ n ih =>
    have next : branch[i + 1]? = some branch[i + 1] := List.getElem?_eq_getElem (by omega)
    have names : c.Names branch[i + 1] a :=
      ⟨runs.mem _ (List.mem_of_getElem? next), runs.mem _ (List.mem_of_getElem? at_), runs.linked i a _ at_ next⟩
    exact (ih next (by omega) (by omega)).tail names

/-- A run whose last block meets the active chain where the run begins continues it. -/
theorem foot_of_meetsAt (runs : c.Runs f branch) (last : branch.getLast? = some x) (meets : c.MeetsAt f x f)
    (first : branch[0]? = some a) : c.below (f - c.baseHeight).toNat = some a.record.hashPrev := by
  have height := runs.height 0 a first
  have descends : c.Descends x a := descends_of_runs runs last first
  rcases meets.foot with ⟨base, b, descendsB, parent⟩ | ⟨b, ⟨rel, at_⟩, descendsB, heightB⟩
  · have memB : b ∈ c.blocks := by
      rcases descendsB.cases_tail with rfl | ⟨y, -, names⟩
      · exact runs.mem _ (List.mem_of_getLast? last)
      · exact names.2.1
    have heightB := c.rooted b memB parent
    obtain rfl : b = a := descends_unique descendsB descends (by omega)
    rw [base, Int.sub_self, parent]
    rfl
  · have place := height_activeAt at_
    obtain ⟨y, descendsY, namesY⟩ : ∃ y, c.Descends x y ∧ c.Names y b := by
      rcases descendsB.cases_tail with rfl | ⟨y, descendsY, names⟩
      · rcases height_of_descends descends with rfl | lower <;> omega
      · exact ⟨y, descendsY, names⟩
    have heightY := c.grown y b namesY
    obtain rfl : y = a := descends_unique descendsY descends (by omega)
    rw [show (f - c.baseHeight).toNat = rel + 1 by omega, Tail.below, at_, namesY.2.2, Option.map_some]

theorem base_le_of_meetsAt (meets : c.MeetsAt floor x f) : c.baseHeight ≤ f := by
  rcases meets.foot with ⟨base, -⟩ | ⟨b, ⟨rel, at_⟩, -, height⟩
  · omega
  · have above := c.above b (mem_of_activeAt at_)
    omega

/-- A run of blocks that continues the active chain from `f` on. -/
structure Attached (c : TailTree) (f : Int) (branch : List Append) : Prop where
  runs : c.Runs f branch
  low : c.baseHeight ≤ f
  high : f ≤ c.tipHeight
  foot : ∀ b ∈ branch.head?, c.below (f - c.baseHeight).toNat = some b.record.hashPrev

section Splice
variable (attached : Attached c f branch)
include attached

/-- The places of the new chain are those of the old one up to `f`, then those of the branch. -/
theorem Attached.place (rel : Nat) :
    (c.spliced f branch).active[rel]? = if rel < (f - c.baseHeight).toNat then c.active[rel]?
    else (branch[rel - (f - c.baseHeight).toNat]?).bind fun b => c.find b.record.hash := by
  have places : branch.filterMap (fun b => c.find b.record.hash) = branch.map fun b =>
    (c.find b.record.hash).getD 0 := by
    rw [← List.filterMap_eq_map]
    apply List.filterMap_congr
    intro b member
    obtain ⟨place, found, -⟩ := find_mem (attached.runs.mem b member)
    simp [found]
  have kept : (c.active.take (f - c.baseHeight).toNat).length = (f - c.baseHeight).toNat := by
    have high := attached.high
    unfold Tail.tipHeight at high
    rw [List.length_take]
    omega
  unfold Tail.spliced
  split
  · next old => rw [List.getElem?_append_left (by omega), List.getElem?_take_of_lt old]
  · next new =>
    rw [List.getElem?_append_right (by omega), kept, places, List.getElem?_map]
    cases at_ : branch[rel - (f - c.baseHeight).toNat]? with
    | none => rfl
    | some b =>
      obtain ⟨place, found, -⟩ := find_mem (attached.runs.mem b (List.mem_of_getElem? at_))
      simp [found]

private theorem Attached.activeAt (rel : Nat) : (c.spliced f branch).activeAt rel =
    if rel < (f - c.baseHeight).toNat then c.activeAt rel else branch[rel - (f - c.baseHeight).toNat]? := by
  rw [Tail.activeAt, attached.place]
  split
  · rfl
  · cases at_ : branch[rel - (f - c.baseHeight).toNat]? with
    | none => rfl
    | some b =>
      obtain ⟨place, found, stored⟩ := find_mem (attached.runs.mem b (List.mem_of_getElem? at_))
      rw [Option.bind_some, found]
      exact stored

theorem Attached.length : (c.spliced f branch).active.length = (f - c.baseHeight).toNat + branch.length := by
  have found : (branch.filterMap fun b => c.find b.record.hash).length = branch.length := by
    rw [List.length_filterMap_eq_countP, List.countP_eq_length]
    intro b member
    obtain ⟨place, found, -⟩ := find_mem (attached.runs.mem b member)
    simp [found]
  have high := attached.high
  unfold Tail.tipHeight at high
  simp only [Tail.spliced, List.length_append, List.length_take, found]
  omega

private theorem Attached.below (old : rel ≤ (f - c.baseHeight).toNat) :
    (c.spliced f branch).below rel = c.below rel := by
  cases rel with
  | zero => rfl
  | succ rel => rw [Tail.below, attached.activeAt, if_pos (by omega), Tail.below]

private theorem Attached.chained (inside : rel < (c.spliced f branch).active.length) :
    ∃ b, (c.spliced f branch).activeAt rel = some b ∧ b.record.height = c.baseHeight + 1 + rel ∧
      (c.spliced f branch).below rel = some b.record.hashPrev := by
  have low := attached.low
  have high := attached.high
  unfold Tail.tipHeight at high
  rw [attached.length] at inside
  by_cases old : rel < (f - c.baseHeight).toNat
  · obtain ⟨b, at_, height, below⟩ := c.chained rel (by omega)
    exact ⟨b, by rw [attached.activeAt, if_pos old, at_], height, by rw [attached.below (by omega), below]⟩
  · obtain ⟨i, rfl⟩ : ∃ i, rel = (f - c.baseHeight).toNat + i := ⟨rel - (f - c.baseHeight).toNat, by omega⟩
    have at_ : branch[i]? = some branch[i] := List.getElem?_eq_getElem (by omega)
    have height := attached.runs.height i _ at_
    refine ⟨branch[i], by rw [attached.activeAt, if_neg old, Nat.add_sub_cancel_left, at_], by omega, ?_⟩
    cases i with
    | zero =>
      rw [Nat.add_zero, attached.below (Nat.le_refl _)]
      exact attached.foot _ (by rw [List.head?_eq_getElem?, at_]; rfl)
    | succ i =>
      have at' : branch[i]? = some branch[i] := List.getElem?_eq_getElem (by omega)
      rw [← Nat.add_assoc, Tail.below, attached.activeAt, if_neg (by omega), Nat.add_sub_cancel_left, at']
      exact congrArg some (attached.runs.linked i _ _ at' at_).symm

end Splice

/-- The tree with the branch made active. -/
def splice (c : TailTree) (f : Int) (branch : List Append) (attached : Attached c f branch) : TailTree where
  toTail := c.spliced f branch
  named := c.named
  known := c.known
  above := c.above
  rooted := c.rooted
  grown := c.grown
  chained := fun _ inside => attached.chained inside

/-! ## When the new chain is best -/

private theorem eligible_spliced : (c.spliced f branch).Eligible e ↔ c.Eligible e := by
  constructor
  · intro eligible
    induction eligible with
    | first mem valid base => exact .first mem valid base
    | next valid names _ ih => exact .next valid names ih
  · intro eligible
    induction eligible with
    | first mem valid base => exact .first mem valid base
    | next valid names _ ih => exact .next valid names ih

section Best
variable (attached : Attached c f branch)
include attached

/-- On a valid chain every block of the branch is eligible. -/
theorem Attached.eligible (clean : ∀ b, c.Active b → b.record.height ≤ f → c.invalid b.record.hash = false) {i : Nat}
    (at_ : branch[i]? = some b) : c.Eligible b := by
  have member := List.mem_of_getElem? at_
  induction i generalizing b with
  | zero =>
    have foot := attached.foot b (by rw [List.head?_eq_getElem?, at_]; rfl)
    generalize kept : (f - c.baseHeight).toNat = n at foot
    cases n with
    | zero =>
      have base : some c.baseHash = some b.record.hashPrev := foot
      exact .first (attached.runs.mem b member) (attached.runs.valid b member) (Option.some.inj base).symm
    | succ n =>
      obtain ⟨p, atP, parent⟩ := Option.map_eq_some_iff.mp foot
      have names : c.Names b p := ⟨attached.runs.mem b member, mem_of_activeAt atP, parent.symm⟩
      have height := height_activeAt atP
      exact .next (attached.runs.valid b member) names (eligible_of_active clean atP (by omega))
  | succ i ih =>
    have inside := (List.getElem?_eq_some_iff.mp at_).1
    have atP : branch[i]? = some branch[i] := List.getElem?_eq_getElem (by omega)
    have memberP := List.mem_of_getElem? atP
    have names : c.Names b branch[i] :=
      ⟨attached.runs.mem b member, attached.runs.mem _ memberP, attached.runs.linked i _ _ atP at_⟩
    exact .next (attached.runs.valid b member) names (ih atP memberP)

private theorem Attached.height {i : Nat} (at_ : branch[i]? = some b) : f < b.record.height := by
  have height := attached.runs.height i b at_
  omega

/-- The tip of the new chain. -/
theorem Attached.tip : (c.spliced f branch).tip? =
    match branch.getLast? with
    | some x => some x
    | none => if f = c.baseHeight then none else c.activeAt ((f - c.baseHeight).toNat - 1) := by
  have low := attached.low
  have length := attached.length
  have last : (c.spliced f branch).tip? =
      (c.spliced f branch).activeAt ((f - c.baseHeight).toNat + branch.length - 1) := by
    rw [Tail.tip?, List.getLast?_eq_getElem?, length]
    rfl
  rw [last, attached.activeAt, List.getLast?_eq_getElem?]
  cases branch with
  | nil =>
    by_cases atBase : f = c.baseHeight
    · simp [atBase]
    · rw [List.length_nil, if_pos (by omega)]
      simp [atBase]
  | cons first rest =>
    have inside : rest.length < (first :: rest).length := by simp
    rw [List.length_cons, if_neg (by omega), show (f - c.baseHeight).toNat + (rest.length + 1) - 1 -
      (f - c.baseHeight).toNat = rest.length by omega, Nat.add_sub_cancel, List.getElem?_eq_getElem inside]

private theorem Attached.valid_iff : (∀ b, (c.spliced f branch).Active b → c.invalid b.record.hash = false) ↔
    ∀ b, c.Active b → b.record.height ≤ f → c.invalid b.record.hash = false := by
  constructor
  · rintro valid b ⟨rel, at_⟩ lower
    have height := height_activeAt at_
    exact valid b ⟨rel, by rw [attached.activeAt, if_pos (by omega), at_]⟩
  · rintro clean b ⟨rel, at_⟩
    rw [attached.activeAt] at at_
    split at at_
    · have height := height_activeAt at_
      exact clean b ⟨rel, at_⟩ (by omega)
    · exact attached.runs.valid b (List.mem_of_getElem? at_)

/-- Linked it is in any case. -/
theorem Attached.best_def : (c.splice f branch attached).Best ↔
    (∀ b, c.Active b → b.record.height ≤ f → c.invalid b.record.hash = false) ∧
      match (c.spliced f branch).tip? with
      | none => ∀ e, ¬ c.Eligible e
      | some b => ∀ e, c.Eligible e → e.derived.chainTrust ≤ b.derived.chainTrust := by
  constructor
  · rintro ⟨-, valid, best⟩
    simp only [splice, eligible_spliced] at best
    exact ⟨attached.valid_iff.mp valid, best⟩
  · rintro ⟨clean, best⟩
    refine ⟨fun rel inside => ?_, attached.valid_iff.mpr clean, by simpa only [splice, eligible_spliced] using best⟩
    obtain ⟨b, at_, -, below⟩ := attached.chained inside
    exact ⟨b, at_, below⟩

/-- The chain that goes on with the first choice is best exactly when its kept part is valid and
some heaviest eligible block lies above the fork. -/
theorem Attached.best_of_branch (heaviest : c.Heaviest f x) (last : branch.getLast? = some x) :
    (c.splice f branch attached).Best ↔ c.BestFrom f := by
  have atLast : branch[branch.length - 1]? = some x := by rw [← List.getLast?_eq_getElem?, last]
  rw [attached.best_def, attached.tip, last]
  constructor
  · rintro ⟨clean, best⟩
    exact ⟨clean, .inl ⟨x, ⟨attached.eligible clean atLast, best⟩, attached.height atLast⟩⟩
  · rintro ⟨clean, ⟨m, maximal, higher⟩ | ⟨bounded, -⟩⟩
    · refine ⟨clean, fun e eligible => ?_⟩
      have unbeaten := heaviest.unbeaten m (open_of_eligible attached.low maximal.1 higher)
      have most := maximal.2 e eligible
      unfold Beats at unbeaten
      omega
    · have above := attached.height atLast
      exact absurd (bounded x (attached.eligible clean atLast)) (by omega)

end Best

/-- A chain that ends at the fork because nothing above it is open. -/
theorem Attached.best_at_fork (attached : Attached c f []) (nothing : ∀ x, ¬ c.Open f x) :
    (c.splice f [] attached).Best ↔ c.BestFrom f := by
  have low := attached.low
  have high := attached.high
  unfold Tail.tipHeight at high
  have bounded : ∀ e, c.Eligible e → e.record.height ≤ f := by
    intro e eligible
    by_contra higher
    exact nothing e (open_of_eligible low eligible (by omega))
  rw [attached.best_def, attached.tip]
  constructor
  · rintro ⟨clean, best⟩
    refine ⟨clean, .inr ⟨bounded, ?_⟩⟩
    by_cases atBase : f = c.baseHeight
    · simp only [if_pos atBase] at best
      exact .inr ⟨atBase, best⟩
    · obtain ⟨b, at_, height, -⟩ := c.chained ((f - c.baseHeight).toNat - 1) (by omega)
      simp only [if_neg atBase, at_] at best
      exact .inl ⟨b, ⟨_, at_⟩, by omega, eligible_of_active clean at_ (by omega), best⟩
  · rintro ⟨clean, heavy⟩
    refine ⟨clean, ?_⟩
    rcases heavy with ⟨m, maximal, higher⟩ | ⟨-, ⟨b, ⟨rel, at_⟩, height, maximal⟩ | ⟨atBase, empty⟩⟩
    · exact absurd (bounded m maximal.1) (by omega)
    · have height' := height_activeAt at_
      obtain rfl : rel = (f - c.baseHeight).toNat - 1 := by omega
      simp only [if_neg (show f ≠ c.baseHeight by omega), at_]
      exact maximal.2
    · simp only [if_pos atBase]
      exact empty

/-- The selection leads to a best chain exactly when it did not leave a heavier block at or below
the fork. -/
theorem Attached.best_iff (attached : Attached c f branch) (selects : c.Selects f branch) :
    (c.splice f branch attached).Best ↔ c.BestFrom f := by
  rcases selects with ⟨rfl, nothing⟩ | ⟨x, heaviest, last, -⟩
  · exact attached.best_at_fork nothing
  · exact attached.best_of_branch heaviest last

end TailTree
end Innova.BlockIndex
