import Innova.Kernel.Navigator

/-! The kernel modifier along a candidate branch: the walk over pointers (`kernel.cpp`) and the walk
by value (`cold_hot_seam.cpp`), which steps forward along the active chain when source and tip are
both active and backward from the tip otherwise. -/
namespace Innova.Kernel
open Lib Chainstate BlockIndex Navigator

/-! ## The walk over pointers -/

/-- The `pprev` chain from the branch tip to the source, the source included. -/
def pathTo (source : Record) : List Record → Option (List Record)
  | [] => none
  | b :: rest => if b = source then some [b] else (pathTo source rest).map (b :: ·)

/-- The forward scan, `runHeight` and `runTime` being those of the last generated modifier. -/
def scanPath (target : Nat) (runHeight : Int) (runTime : Nat) : List Record → Option KernelModifier
  | [] => none
  | b :: rest =>
    let run := if b.generatedStakeModifier then (b.height, b.nTime) else (runHeight, runTime)
    if target ≤ run.2 then some ⟨b.nStakeModifier, run.1, run.2⟩ else scanPath target run.1 run.2 rest

/-- `GetKernelStakeModifier` with `pindexPrev`: `chain` is the branch tip and its `pprev` chain. -/
def getKernelStakeModifier (mapBlockIndex : Hash → Option Record) (source : Hash) (chain : List Record) :
    Option KernelModifier :=
  (mapBlockIndex source).bind fun src =>
    (pathTo src chain).bind fun path =>
      let target := src.nTime + selectionInterval
      match scanPath target src.height src.nTime path.reverse.tail with
      | some found => some found
      | none => chain.head?.bind fun tip => if target ≤ tip.nTime then some (.ofRecord tip) else none

/-- A block that generated a modifier at or after the target time. -/
def Late (target : Nat) (b : Record) : Bool := b.generatedStakeModifier && decide (target ≤ b.nTime)

/-- The scan stops at the first late block. -/
theorem scanPath_eq (target : Nat) (runHeight : Int) (runTime : Nat) (early : runTime < target) (blocks : List Record) :
    scanPath target runHeight runTime blocks = (blocks.find? (Late target)).map .ofRecord := by
  induction blocks generalizing runHeight runTime with
  | nil => rfl
  | cons b rest ih =>
    rw [scanPath, List.find?_cons]
    cases generated : b.generatedStakeModifier with
    | false =>
      have late : Late target b = false := by simp [Late, generated]
      simp only [late, Bool.false_eq_true, if_false, if_neg (show ¬ target ≤ runTime by omega)]
      exact ih runHeight runTime early
    | true =>
      simp only [if_true]
      by_cases reached : target ≤ b.nTime
      · simp [Late, generated, reached, KernelModifier.ofRecord]
      · have late : Late target b = false := by simp [Late, reached]
        simp only [late, if_neg reached]
        exact ih b.height b.nTime (by omega)

private theorem pathTo_eq (new : source ∉ above) :
    pathTo source (above ++ source :: rest) = some (above ++ [source]) := by
  induction above with
  | nil => simp [pathTo]
  | cons b above ih =>
    have differ : b ≠ source := fun same => new (same ▸ List.mem_cons_self)
    simp [pathTo, differ, ih fun member => new (List.mem_cons_of_mem _ member)]

private theorem pathTo_none (absent : source ∉ chain) : pathTo source chain = none := by
  induction chain with
  | nil => rfl
  | cons b rest ih =>
    have differ : b ≠ source := fun same => absent (same ▸ List.mem_cons_self)
    simp [pathTo, differ, ih fun member => absent (List.mem_cons_of_mem _ member)]

/-! ## What the two sides serve -/

/-- A snapshot shows a block, with the active flag of the side it came from. -/
structure Shows (s : Snapshot) (b : Record) (inMain : Prop) : Prop where
  record : s.record = b
  hasParent : s.hasParent = true ↔ b.hashPrev ≠ ByteArr.zero 32
  inMain : s.fInMainChain = true ↔ inMain

/-- A generation that holds the blocks `Held` of the tree, frozen when `tip` was the best block. -/
structure ColdServes (t : BlockTree) (Held : Record → Prop) (tip : Record) (snap : Record → Snapshot)
    (cold : ColdSide) :
    Prop where
  has_tip : t.Has tip
  held_tip : Held tip
  /-- A generation is built from whole ancestries. -/
  held_parent : ∀ {b p}, t.Has b → Held b → t.find b.hashPrev = some p → Held p
  shows : ∀ {b}, t.Has b → Held b → Shows (snap b) b (b ∈ t.lineage tip)
  id_pos : ∀ {b}, t.Has b → Held b → (snap b).id ≠ 0
  unchanged : cold.selectionChanged = false
  found : ∀ {b}, t.Has b → Held b → cold.lookupByHash b.hash = .found (snap b)
  missing : ∀ {h}, (∀ b, t.find h = some b → ¬ Held b) → cold.lookupByHash h = .notFound
  byId : ∀ {b}, t.Has b → Held b → cold.getRecordById (snap b).id = .found (snap b)
  parent : ∀ {b p}, t.Has b → Held b → t.find b.hashPrev = some p → cold.getParent (snap b).id = .found (snap p)
  active : ∀ {b}, b ∈ t.lineage tip → cold.getActiveByHeight b.height = .found (snap b)
  next : ∀ {b n}, n ∈ t.lineage tip → t.find n.hashPrev = some b → cold.getNextActive (snap b).id = .found (snap n)
  tipIs : cold.getTip = some (snap tip)

/-- A hot side that serves the tree's blocks, the active chain ending in `best`. -/
structure HotServes (t : BlockTree) (best : Record) (snap : Record → Snapshot) (hot : HotSide) : Prop where
  has_best : t.Has best
  shows : ∀ {b}, t.Has b → Shows (snap b) b (b ∈ t.lineage best)
  lookup : ∀ h, hot.lookupByHash h = (t.find h).map snap
  active : ∀ {b}, b ∈ t.lineage best → hot.getActiveByHeight b.height = some (snap b)
  active_none : ∀ {n}, (∀ b ∈ t.lineage best, b.height ≠ n) → hot.getActiveByHeight n = none
  parent : ∀ {b}, t.Has b → hot.getParent (snap b) = (t.find b.hashPrev).map snap
  next : ∀ {b n}, n ∈ t.lineage best → t.find n.hashPrev = some b → hot.getNextActive (snap b) = some (snap n)
  next_none : ∀ {b}, t.Has b → (∀ n ∈ t.lineage best, t.find n.hashPrev ≠ some b) → hot.getNextActive (snap b) = none

/-! ## Sides that serve any tree

Record ids are the hashes read as numbers. -/

section Serving
variable (t : BlockTree) (Held : Record → Prop) [DecidablePred Held] (frozen best : Record)

def hashOfValue (n : Nat) : Hash := ByteArr.ofNat 32 n

private theorem hashOfValue_hashValue (h : Hash) : hashOfValue (hashValue h) = h := by
  apply Subtype.ext
  have same := Bytes.le_toNat h.val
  rw [h.property] at same
  exact same

/-- The snapshot of a block on the chain of `tip`. -/
def showBlock (tip b : Record) : Snapshot where
  id := hashValue b.hash
  record := b
  hasParent := b.hashPrev != ByteArr.zero 32
  fProofOfStake := b.prevoutStake.isSome
  fInMainChain := decide (b ∈ t.lineage tip)

def readOf (found : Option Record) : ColdRead :=
  match found with
  | some b => if Held b then .found (showBlock t frozen b) else .notFound
  | none => .notFound

/-- A generation that holds the blocks `Held`, frozen at `frozen`. -/
def generationOf : ColdSide where
  lookupByHash h := readOf t Held frozen (t.find h)
  getRecordById id := readOf t Held frozen (t.find (hashOfValue id))
  getParent id := readOf t Held frozen ((t.find (hashOfValue id)).bind fun b => t.find b.hashPrev)
  getActiveByHeight n := readOf t Held frozen ((t.lineage frozen).find? fun b => b.height = n)
  getNextActive id := readOf t Held frozen ((t.lineage frozen).find? fun n => n.hashPrev = hashOfValue id)
  getTip := some (showBlock t frozen frozen)
  selectionChanged := false

/-- A hot oracle over the whole tree, the active chain ending in `best`. -/
def resolverOf : HotSide where
  lookupByHash h := (t.find h).map (showBlock t best)
  getActiveByHeight n := ((t.lineage best).find? fun b => b.height = n).map (showBlock t best)
  getParent s := (t.find s.record.hashPrev).map (showBlock t best)
  getNextActive s := ((t.lineage best).find? fun n => n.hashPrev = s.record.hash).map (showBlock t best)

variable {t Held frozen best}

theorem shows_showBlock (tip : Record) : Shows (showBlock t tip b) b (b ∈ t.lineage tip) :=
  ⟨rfl, by simp [showBlock], by simp [showBlock]⟩

private theorem hashValue_pos (has : t.Has b) : hashValue b.hash ≠ 0 := by
  intro zero
  apply t.hash_ne_zero has
  rw [← hashOfValue_hashValue b.hash, zero]
  decide

/-- Every tree has a generation that holds a given set of its blocks, closed under parents. -/
theorem generationOf_serves (has : t.Has frozen) (held : Held frozen)
    (closed : ∀ {b p}, t.Has b → Held b → t.find b.hashPrev = some p → Held p) :
    ColdServes t Held frozen (showBlock t frozen) (generationOf t Held frozen) := by
  have lineage : ∀ b ∈ t.lineage frozen, Held b :=
    fun _ => has.descend held fun has found held => closed has held found
  have named : ∀ {b}, t.Has b → t.find (hashOfValue (hashValue b.hash)) = some b := by
    intro b has
    rw [hashOfValue_hashValue]
    exact has
  exact
    { has_tip := has
      held_tip := held
      held_parent := closed
      shows := fun _ _ => shows_showBlock frozen
      id_pos := fun has _ => hashValue_pos has
      unchanged := rfl
      found := fun {b} has held => by
        have find : t.find b.hash = some b := has
        simp [generationOf, readOf, find, held]
      missing := fun {h} absent => by
        cases found : t.find h with
        | none => simp [generationOf, readOf, found]
        | some b => simp [generationOf, readOf, found, absent b found]
      byId := fun has held => by simp [generationOf, readOf, showBlock, named has, held]
      parent := fun has held found => by
        simp [generationOf, readOf, showBlock, named has, found, closed has held found]
      active := fun member => by simp [generationOf, readOf, t.find_height has member, lineage _ member]
      next := fun {b n} member found => by
        simp [generationOf, readOf, showBlock, hashOfValue_hashValue, t.find_next has member found, lineage _ member]
      tipIs := rfl }

private theorem resolverOf_serves (has : t.Has best) : HotServes t best (showBlock t best) (resolverOf t best) where
  has_best := has
  shows := fun _ => shows_showBlock best
  lookup := fun _ => rfl
  active := fun member => by simp [resolverOf, t.find_height has member]
  active_none := fun {n} absent => by
    have none : (t.lineage best).find? (fun b => b.height = n) = none := by simpa using absent
    simp [resolverOf, none]
  parent := fun _ => rfl
  next := fun member found => by simp [resolverOf, showBlock, t.find_next has member found]
  next_none := fun {b} hasHere absent => by
    have none : (t.lineage best).find? (fun n => n.hashPrev = b.hash) = none := by
      rw [List.find?_eq_none]
      intro n member linked
      have linked : n.hashPrev = b.hash := by simpa using linked
      apply absent n member
      rw [linked]
      exact hasHere
    simp [resolverOf, showBlock, none]

end Serving

/-! ## Resolving and stepping over what is served -/

/-- A block resolved from the generation. -/
def atCold (snap : Record → Snapshot) (b : Record) : SeamSnapshot := ⟨.cold b.hash (snap b).id, snap b⟩

/-- A block resolved from the hot side. -/
def atHot (snap : Record → Snapshot) (b : Record) : SeamSnapshot := ⟨.hot b.hash, snap b⟩

section Served
variable {t : BlockTree} {Held : Record → Prop} {frozen best : Record} {coldSnap hotSnap : Record → Snapshot}
  {nav : Navigator} {b : Record} {x : SeamSnapshot}

/-- The navigator holds the block, from one side or the other. -/
def At (Held : Record → Prop) (coldSnap hotSnap : Record → Snapshot) (x : SeamSnapshot) (b : Record) : Prop :=
  (x = atCold coldSnap b ∧ Held b) ∨ x = atHot hotSnap b

variable (cold : ColdServes t Held frozen coldSnap nav.cold) (hot : HotServes t best hotSnap nav.hot)

include cold in
private theorem makeCold_held (has : t.Has b) (held : Held b) : makeCold (coldSnap b) = .ok (atCold coldSnap b) := by
  have record := (cold.shows has held).record
  rw [makeCold, record, if_neg (not_or.mpr ⟨cold.id_pos has held, t.hash_ne_zero has⟩)]
  rfl

include hot in
private theorem makeHot_has (has : t.Has b) : makeHot (hotSnap b) = .ok (atHot hotSnap b) := by
  rw [makeHot, (hot.shows has).record, if_neg (t.hash_ne_zero has)]
  rfl

include cold in
private theorem resolveCold_held (has : t.Has b) (held : Held b) :
    nav.resolveColdLogicalR b.hash = .ok (atCold coldSnap b) := by
  have record := (cold.shows has held).record
  simp only [resolveColdLogicalR, cold.unchanged, t.hash_ne_zero has, cold.found has held, ColdRead.seam, record,
    makeCold_held cold has held]
  simp

include cold in
theorem lookup_missing (has : t.Has b) (absent : ¬ Held b) : nav.cold.lookupByHash b.hash = .notFound := by
  apply cold.missing
  intro b' found
  have same : t.find b.hash = some b := has
  rw [same] at found
  cases found
  exact absent

include cold in
private theorem resolveCold_missing (has : t.Has b) (absent : ¬ Held b) :
    nav.resolveColdLogicalR b.hash = .notFound := by
  simp [resolveColdLogicalR, cold.unchanged, t.hash_ne_zero has, lookup_missing cold has absent, ColdRead.seam]

include cold in
theorem resolve_held (has : t.Has b) (held : Held b) : nav.resolveLogicalR b.hash = .ok (atCold coldSnap b) := by
  have record := (cold.shows has held).record
  simp only [resolveLogicalR, cold.unchanged, t.hash_ne_zero has, cold.found has held, record,
    makeCold_held cold has held]
  simp

include cold in
/-- Within the generation the step to the parent stays there. -/
theorem parent_held (has : t.Has b) (held : Held b) (found : t.find b.hashPrev = some p) :
    nav.getParentR (atCold coldSnap b).ref = .ok (atCold coldSnap p) := by
  have record := (cold.shows has held).record
  have resolved : nav.resolveR (atCold coldSnap b).ref = .ok (atCold coldSnap b) := by
    simp [resolveR, atCold, cold.unchanged, cold.byId has held, ColdRead.seam, record, makeCold_held cold has held]
  have linked : (atCold coldSnap b).snapshot.hasParent = true :=
    (cold.shows has held).hasParent.mpr ((t.parent_iff has).mpr ⟨p, found⟩)
  rw [getParentR, resolved]
  simp only [SeamResult.bind, linked, Bool.not_true, Bool.false_eq_true, if_false]
  simp [atCold, cold.parent has held found, ColdRead.seam,
    makeCold_held cold (LinkedTree.has_find found) (cold.held_parent has held found)]

include cold hot

/-- Every block of the tree resolves, from the generation when it is held there. -/
theorem resolve_has (has : t.Has b) : (Held b ∧ nav.resolveLogicalR b.hash = .ok (atCold coldSnap b)) ∨
      (¬ Held b ∧ nav.resolveLogicalR b.hash = .ok (atHot hotSnap b)) := by
  have find : t.find b.hash = some b := has
  by_cases held : Held b
  · exact .inl ⟨held, resolve_held cold has held⟩
  · refine .inr ⟨held, ?_⟩
    have record := (hot.shows has).record
    simp only [resolveLogicalR, cold.unchanged, t.hash_ne_zero has, lookup_missing cold has held, hot.lookup, find,
      Option.map_some, record, makeHot_has hot has]
    simp

private theorem resolve_missing (missing : t.find h = none) (k : SeamSnapshot) : nav.resolveLogicalR h ≠ .ok k := by
  have absent : nav.cold.lookupByHash h = .notFound := by
    apply cold.missing
    intro b found
    rw [missing] at found
    cases found
  simp only [resolveLogicalR, absent, hot.lookup, missing, Option.map_none]
  split <;> simp

private theorem At.record (held : At Held coldSnap hotSnap x b) (has : t.Has b) : x.snapshot.record = b := by
  rcases held with ⟨rfl, held⟩ | rfl
  · exact (cold.shows has held).record
  · exact (hot.shows has).record

private theorem At.hasParent (held : At Held coldSnap hotSnap x b) (has : t.Has b) :
    x.snapshot.hasParent = true ↔ ∃ p, t.find b.hashPrev = some p := by
  rw [← t.parent_iff has]
  rcases held with ⟨rfl, held⟩ | rfl
  · exact (cold.shows has held).hasParent
  · exact (hot.shows has).hasParent

omit hot in
private theorem coldTipHeight_frozen : nav.coldTipHeight = frozen.height := by
  rw [coldTipHeight, cold.tipIs]
  exact congrArg Record.height (cold.shows cold.has_tip cold.held_tip).record

/-- The step to the parent arrives there, or stops at a block of the live chain that lies within the
generation's heights without being in it. -/
theorem parent_cases (here : At Held coldSnap hotSnap x b) (has : t.Has b) (found : t.find b.hashPrev = some p) :
    (∃ y, At Held coldSnap hotSnap y p ∧ nav.getParentR x.ref = .ok y) ∨
      (nav.getParentR x.ref = .authorityFailure ∧ p ∈ t.lineage best ∧ p.height ≤ frozen.height ∧ ¬ Held p) := by
  have has' : t.Has p := LinkedTree.has_find found
  have linked : x.snapshot.hasParent = true := (here.hasParent cold hot has).mpr ⟨p, found⟩
  rcases here with ⟨rfl, held⟩ | rfl
  · exact .inl ⟨atCold coldSnap p, .inl ⟨rfl, cold.held_parent has held found⟩, parent_held cold has held found⟩
  · have resolved : nav.resolveR (atHot hotSnap b).ref = .ok (atHot hotSnap b) := by
      have find : t.find b.hash = some b := has
      simp [resolveR, atHot, hot.lookup, find, (hot.shows has).record, makeHot_has hot has]
    have step : nav.hot.getParent (hotSnap b) = some (hotSnap p) := by rw [hot.parent has, found]; rfl
    have shows := hot.shows has'
    rw [getParentR, resolved]
    simp only [SeamResult.bind, linked, Bool.not_true, Bool.false_eq_true, if_false]
    simp only [atHot, step, shows.record, coldTipHeight_frozen cold, shows.inMain]
    by_cases within : p ∈ t.lineage best ∧ p.height ≤ frozen.height
    · rw [if_pos within]
      by_cases held : Held p
      · refine .inl ⟨atCold coldSnap p, .inl ⟨rfl, held⟩, ?_⟩
        rw [resolveCold_held cold has' held]
        exact makeCold_held cold has' held
      · refine .inr ⟨?_, within.1, within.2, held⟩
        rw [resolveCold_missing cold has' held]
    · rw [if_neg within]
      exact .inl ⟨atHot hotSnap p, .inr rfl, makeHot_has hot has'⟩

/-! ## The backward walk -/

/-- The lowest late block of a descending run, or the one found before. -/
def lowestLate (target : Nat) : Option Record → List Record → Option Record
  | before, [] => before
  | before, b :: rest => lowestLate target (if Late target b then some b else before) rest

omit cold hot in
private theorem lowestLate_eq (target : Nat) (before : Option Record) (blocks : List Record) :
    lowestLate target before blocks = (blocks.reverse.find? (Late target)).or before := by
  induction blocks generalizing before with
  | nil => simp [lowestLate]
  | cons b rest ih =>
    rw [lowestLate, ih, List.reverse_cons, List.find?_append, Option.or_assoc]
    congr 1
    cases late : Late target b <;> simp [late]

/-- From a descendant the walk reaches the source with the lowest late block between them, unless a
parent on the way is missing from the generation. -/
theorem walkBranch_reaches (has : t.Has b) (has' : t.Has src) (shown : source.record = src)
    (split : t.lineage b = above ++ t.lineage src) (here : At Held coldSnap hotSnap x b)
    (clear : ∀ p ∈ (above ++ [src]).tail, p ∈ t.lineage best → p.height ≤ frozen.height → Held p)
    (enough : above.length < fuel) (before : Option Snapshot) :
    ∃ found, nav.walkBranch source target fuel x before = some (.ok found) ∧
      found.map Snapshot.record = lowestLate target (before.map Snapshot.record) above := by
  induction above generalizing b x fuel before with
  | nil =>
    obtain ⟨more, rest, path, -⟩ := has.lineage_between has' split
    obtain rfl : src = b := (List.cons.inj path).1
    obtain ⟨fuel, rfl⟩ : ∃ n, fuel = n + 1 := ⟨fuel - 1, by simp at enough; omega⟩
    refine ⟨before, ?_, rfl⟩
    simp [walkBranch, here.record cold hot has, shown]
  | cons first above ih =>
    obtain ⟨rfl, p, found, split'⟩ := has.lineage_above split has'
    have hasParent := LinkedTree.has_find found
    obtain ⟨fuel, rfl⟩ : ∃ n, fuel = n + 1 := ⟨fuel - 1, by simp at enough; omega⟩
    have record := here.record cold hot has
    -- the source lies strictly below, so this block is not it
    have differ : ¬ (first.hash = src.hash ∧ first.height = src.height) := by
      have below : src.height.toNat ≤ p.height.toNat := by
        apply hasParent.height_le
        rw [split']
        exact List.mem_append_right _ has'.mem_lineage_self
      have above := t.height_parent has found
      have := t.height_nonneg hasParent
      omega
    have linked := (here.hasParent cold hot has).mpr ⟨p, found⟩
    have arrives : ∃ y, At Held coldSnap hotSnap y p ∧ nav.getParentR x.ref = .ok y := by
      rcases parent_cases cold hot here has found with arrived | ⟨-, active, low, absent⟩
      · exact arrived
      · obtain ⟨more, rest, path, -⟩ := hasParent.lineage_between has' split'
        exact absurd (clear p (by simp [path]) active low) absent
    obtain ⟨y, there, stepped⟩ := arrives
    have clear' : ∀ q ∈ (above ++ [src]).tail, q ∈ t.lineage best → q.height ≤ frozen.height → Held q :=
      fun q member => clear q (List.mem_of_mem_tail member)
    obtain ⟨result, ran, lowest⟩ := ih hasParent split' there clear' (by simpa using enough)
      (if first.generatedStakeModifier ∧ target ≤ first.nTime then some x.snapshot else before)
    refine ⟨result, ?_, ?_⟩
    · rw [walkBranch]
      simp only [record, shown, if_neg differ, linked, Bool.not_true, Bool.false_eq_true, if_false, stepped]
      exact ran
    · rw [lowest, lowestLate]
      by_cases late : first.generatedStakeModifier = true ∧ target ≤ first.nTime
      · simp [late, Late, record]
      · have : Late target first = false := by simpa [Late] using late
        simp [late, this]

/-- A walk that does not start on a descendant of the source does not succeed. -/
theorem walkBranch_misses (has : t.Has b) (has' : t.Has src) (shown : source.record = src)
    (apart : src ∉ t.lineage b) (here : At Held coldSnap hotSnap x b) (enough : b.height.toNat < fuel)
    (before : Option Snapshot) : ∃ r, nav.walkBranch source target fuel x before = some r ∧ r.Fails := by
  induction fuel generalizing b x before with
  | zero => omega
  | succ fuel ih =>
    have record := here.record cold hot has
    have differ : ¬ (b.hash = src.hash ∧ b.height = src.height) := by
      rintro ⟨same, -⟩
      exact apart (has.eq_of_key has' same ▸ has.mem_lineage_self)
    rw [walkBranch]
    simp only [record, shown, if_neg differ]
    cases found : t.find b.hashPrev with
    | none =>
      have last : x.snapshot.hasParent = false := by
        rw [Bool.eq_false_iff]
        intro linked
        obtain ⟨p, found'⟩ := (here.hasParent cold hot has).mp linked
        rw [found] at found'
        cases found'
      simp [last, SeamResult.Fails]
    | some p =>
      have linked := (here.hasParent cold hot has).mpr ⟨p, found⟩
      simp only [linked, Bool.not_true, Bool.false_eq_true, if_false]
      rcases parent_cases cold hot here has found with ⟨y, there, stepped⟩ | ⟨stopped, -⟩
      · rw [stepped]
        have above := t.height_parent has found
        have := t.height_nonneg (LinkedTree.has_find found)
        have apart' : src ∉ t.lineage p := by
          intro member
          apply apart
          rw [LinkedTree.lineage_step has found]
          exact List.mem_cons_of_mem _ member
        exact ih (LinkedTree.has_find found) apart' there (by omega) _
      · rw [stopped]
        simp [SeamResult.Fails]

/-! ## The forward walk -/

omit hot in
private theorem held_lineage (has : t.Has b) (held : Held b) (member : p ∈ t.lineage b) : Held p :=
  has.descend held (fun has found held => cold.held_parent has held found) member

omit hot in
private theorem held_frozen (member : b ∈ t.lineage frozen) : Held b :=
  held_lineage cold cold.has_tip cold.held_tip member

omit hot in
private theorem frozen_shows (member : b ∈ t.lineage frozen) : Shows (coldSnap b) b (b ∈ t.lineage frozen) :=
  cold.shows (cold.has_tip.of_mem_lineage member) (held_frozen cold member)

omit hot in
/-- Within the generation the step follows its frozen chain. -/
theorem next_frozen (active : n ∈ t.lineage frozen) (found : t.find n.hashPrev = some b) :
    nav.getNextActiveFromSnapshotR (atCold coldSnap b) = .ok (atCold coldSnap n) := by
  have hasNext := cold.has_tip.of_mem_lineage active
  have member : b ∈ t.lineage frozen := cold.has_tip.parent_mem_lineage active found
  have shows := frozen_shows cold member
  have tipShows := (frozen_shows cold cold.has_tip.mem_lineage_self).record
  have notTip : nav.isAtColdTip (coldSnap b) = false := by
    have above := t.height_parent hasNext found
    have low : n.height.toNat ≤ frozen.height.toNat := cold.has_tip.height_le active
    have := t.height_nonneg hasNext
    have := t.height_nonneg cold.has_tip
    have differ : ¬ b.height = frozen.height := by omega
    simp [isAtColdTip, cold.tipIs, tipShows, shows.record, differ]
  simp only [getNextActiveFromSnapshotR, atCold, shows.inMain.mpr member, notTip, cold.next active found]
  simp only [Bool.not_true, Bool.false_eq_true, if_false, Bool.not_false, if_true]
  exact makeCold_held cold hasNext (held_frozen cold active)

/-- At the generation's tip the step crosses to the hot side, the live chain passing through it. -/
theorem next_seam (seam : frozen ∈ t.lineage best) (active : n ∈ t.lineage best)
    (found : t.find n.hashPrev = some frozen) :
    nav.getNextActiveFromSnapshotR (atCold coldSnap frozen) = .ok (atHot hotSnap n) := by
  have hasNext := hot.has_best.of_mem_lineage active
  have self := cold.has_tip.mem_lineage_self
  have shows := frozen_shows cold self
  have atTip : nav.isAtColdTip (coldSnap frozen) = true := by simp [isAtColdTip, cold.tipIs]
  have verified : nav.verifySeam = true := by
    simp [verifySeam, cold.unchanged, cold.tipIs, shows.record, hot.active seam, (hot.shows cold.has_tip).record]
  have upper : nav.hot.getActiveByHeight (frozen.height + 1) = some (hotSnap n) := by
    rw [← t.height_parent hasNext found]
    exact hot.active active
  have linked : n.hashPrev = frozen.hash := (t.hash_of_find found).symm
  simp only [getNextActiveFromSnapshotR, atCold, shows.inMain.mpr self, atTip, verified, shows.record, upper,
    (hot.shows hasNext).record, linked]
  simp [makeHot_has hot hasNext]

/-- From a hot block the step follows the live chain, through the generation where that holds it. -/
theorem next_live (active : n ∈ t.lineage best) (found : t.find n.hashPrev = some b)
    (coherent : n.height ≤ frozen.height → n ∈ t.lineage frozen) : nav.getNextActiveFromSnapshotR (atHot hotSnap b) =
      .ok (if n.height ≤ frozen.height then atCold coldSnap n else atHot hotSnap n) := by
  have hasNext := hot.has_best.of_mem_lineage active
  have has := LinkedTree.has_find found
  have linked : n.hashPrev = b.hash := (t.hash_of_find found).symm
  have upper : nav.hot.getActiveByHeight (b.height + 1) = some (hotSnap n) := by
    rw [← t.height_parent hasNext found]
    exact hot.active active
  have shows := hot.shows hasNext
  have next : nav.nextHot (hotSnap b) = some (hotSnap n) := by
    have member : b ∈ t.lineage best := hot.has_best.parent_mem_lineage active found
    simp [nextHot, (hot.shows has).record, upper, shows.record, linked, (hot.shows has).inMain.mpr member]
  simp only [getNextActiveFromSnapshotR, atHot, next, shows.record, shows.inMain, coldTipHeight_frozen cold,
    active, true_and]
  by_cases low : n.height ≤ frozen.height
  · have inside := coherent low
    simp only [if_pos low, cold.active inside, (frozen_shows cold inside).record]
    simpa using makeCold_held cold hasNext (held_frozen cold inside)
  · simp only [if_neg low]
    exact makeHot_has hot hasNext

omit cold hot in
/-- A walk whose steps all arrive scans the blocks up to the tip. -/
theorem walkActive_scans {Here : SeamSnapshot → Record → Prop} (shown : ∀ {x b}, Here x b → x.snapshot.record = b)
    (step : ∀ {x b n}, Here x b → n ∈ blocks → t.find n.hashPrev = some b →
      ∃ y, Here y n ∧ nav.getNextActiveFromSnapshotR x = .ok y)
    (linked : (b :: blocks).IsChain fun b n => t.find n.hashPrev = some b)
    (rising : ∀ n ∈ blocks, t.Has n ∧ n.height ≤ tip.record.height)
    (last : (b :: blocks).getLast (List.cons_ne_nil b blocks) = tip.record) (here : Here x b) (runHeight : Int)
    (runTime : Nat) (early : runTime < target) (enough : blocks.length < fuel) :
    nav.walkActive tip target fuel x runHeight runTime = some (.ok (scanPath target runHeight runTime blocks)) := by
  obtain ⟨fuel, rfl⟩ : ∃ n, fuel = n + 1 := ⟨fuel - 1, by omega⟩
  induction blocks generalizing b x fuel runHeight runTime with
  | nil =>
    have atTip : tip.record.height ≤ x.snapshot.record.height := by
      rw [shown here, ← last]
      exact le_refl _
    simp [walkActive, atTip, scanPath]
  | cons n blocks ih =>
    obtain ⟨found, linked'⟩ := List.isChain_cons_cons.mp linked
    -- heights rise to the tip, so the walk has not reached it yet
    have before : ¬ (target ≤ runTime ∨ tip.record.height ≤ x.snapshot.record.height) := by
      obtain ⟨has, high⟩ := rising n List.mem_cons_self
      have := t.height_parent has found
      rw [shown here]
      omega
    obtain ⟨y, there, stepped⟩ := step here List.mem_cons_self found
    rw [walkActive, if_neg before, stepped, scanPath]
    dsimp only
    rw [shown there]
    generalize (if n.generatedStakeModifier = true then (n.height, n.nTime) else (runHeight, runTime)) = run
    split
    · rfl
    · next later =>
      obtain ⟨fuel, rfl⟩ : ∃ n, fuel = n + 1 := ⟨fuel - 1, by simp at enough; omega⟩
      exact ih (fun here member => step here (List.mem_cons_of_mem _ member)) linked'
        (fun m member => rising m (List.mem_cons_of_mem _ member)) last there _ _ (by omega) fuel
          (by simpa using enough)

end Served

/-! ## Both walks select alike -/

/-- The active flag of a block as it is resolved: the generation's own when the block is held there,
the live one otherwise. -/
def SeenActive (t : BlockTree) (Held : Record → Prop) (frozen best b : Record) : Prop :=
  (Held b ∧ b ∈ t.lineage frozen) ∨ (¬ Held b ∧ b ∈ t.lineage best)

/-- Source and tip are taken for blocks of one active chain. -/
def TakesFastPath (t : BlockTree) (Held : Record → Prop) (frozen best src tip : Record) : Prop :=
  SeenActive t Held frozen best src ∧ SeenActive t Held frozen best tip ∧ src.height ≤ tip.height

/-- The live chain does not pass through the generation's tip, and the walk mixes the two: the fast
path with an end in the generation and one outside it, or below the generation's height on the hot
side, or the backward walk over a live block that the generation should hold. -/
def Strays (t : BlockTree) (Held : Record → Prop) (frozen best src tip : Record) : Prop :=
  frozen ∉ t.lineage best ∧
    ((TakesFastPath t Held frozen best src tip ∧ ¬ (Held src ∧ Held tip) ∧
        (Held src ∨ Held tip ∨ src ≠ tip ∧ src.height < frozen.height)) ∨
      (¬ TakesFastPath t Held frozen best src tip ∧ ∃ p ∈ t.lineage tip, p ≠ tip ∧ src ∈ t.lineage p ∧
        p ∈ t.lineage best ∧ p.height ≤ frozen.height ∧ ¬ Held p))

section Agreement
variable {t : BlockTree} {Held : Record → Prop} {frozen best : Record} {coldSnap hotSnap : Record → Snapshot}
  {nav : Navigator} {src tip : Record} {above : List Record}

/-- The pointer walk on a branch that reaches the source. -/
theorem pointer_reaches (has : t.Has tip) (has' : t.Has src) (split : t.lineage tip = above ++ t.lineage src) :
    getKernelStakeModifier t.find src.hash (t.lineage tip) =
      match above.reverse.find? (Late (src.nTime + selectionInterval)) with
      | some b => some (.ofRecord b)
      | none => if src.nTime + selectionInterval ≤ tip.nTime then some (.ofRecord tip) else none := by
  have find : t.find src.hash = some src := has'
  obtain ⟨rest, head⟩ := has'.lineage_head
  obtain ⟨others, first⟩ := has.lineage_head
  have new : src ∉ above := by
    intro member
    have nodup := List.Nodup.of_map _ has.lineage_keys_nodup
    rw [split, head] at nodup
    exact (List.disjoint_of_nodup_append nodup) member List.mem_cons_self
  have early : src.nTime < src.nTime + selectionInterval := by
    have : 0 < selectionInterval := by decide
    omega
  have path : pathTo src (t.lineage tip) = some (above ++ [src]) := by
    rw [split, head]
    exact pathTo_eq new
  have tail : (above ++ [src]).reverse.tail = above.reverse := by simp
  rw [getKernelStakeModifier, find, Option.bind_some, path, Option.bind_some]
  dsimp only
  rw [tail, scanPath_eq _ _ _ early, first]
  cases above.reverse.find? (Late (src.nTime + selectionInterval)) <;> rfl

private theorem pointer_misses (has' : t.Has src) (apart : src ∉ t.lineage tip) :
    getKernelStakeModifier t.find src.hash (t.lineage tip) = none := by
  have find : t.find src.hash = some src := has'
  rw [getKernelStakeModifier, find, Option.bind_some, pathTo_none apart, Option.bind_none]

variable (cold : ColdServes t Held frozen coldSnap nav.cold) (hot : HotServes t best hotSnap nav.hot)

/-- How the forward walk sees a block it stands on. -/
def OnChain (t : BlockTree) (frozen best : Record) (coldSnap hotSnap : Record → Snapshot)
    (x : SeamSnapshot) (b : Record) :
    Prop :=
  (x = atCold coldSnap b ∧ b ∈ t.lineage frozen) ∨ (x = atHot hotSnap b ∧ b ∈ t.lineage best)

include cold hot

private theorem OnChain.record (here : OnChain t frozen best coldSnap hotSnap x b) : x.snapshot.record = b := by
  rcases here with ⟨rfl, member⟩ | ⟨rfl, member⟩
  · exact (frozen_shows cold member).record
  · exact (hot.shows (hot.has_best.of_mem_lineage member)).record

/-- Where the live chain passes through the generation's tip every step along it arrives. -/
theorem next_coherent (seam : frozen ∈ t.lineage best) (here : OnChain t frozen best coldSnap hotSnap x b)
    (active : n ∈ t.lineage best) (found : t.find n.hashPrev = some b) :
    ∃ y, OnChain t frozen best coldSnap hotSnap y n ∧ nav.getNextActiveFromSnapshotR x = .ok y := by
  have hasNext := hot.has_best.of_mem_lineage active
  have inside : n.height ≤ frozen.height → n ∈ t.lineage frozen := fun low =>
    hot.has_best.mem_lineage_of_le active seam ((t.height_le_iff cold.has_tip).mp low)
  rcases here with ⟨rfl, member⟩ | ⟨rfl, member⟩
  · by_cases low : n.height ≤ frozen.height
    · exact ⟨_, .inl ⟨rfl, inside low⟩, next_frozen cold (inside low) found⟩
    · have last : b = frozen := by
        have := t.height_parent hasNext found
        exact t.eq_of_height_le cold.has_tip member (by omega)
      subst last
      exact ⟨_, .inr ⟨rfl, active⟩, next_seam cold hot seam active found⟩
  · have stepped := next_live cold hot active found inside
    by_cases low : n.height ≤ frozen.height
    · rw [if_pos low] at stepped
      exact ⟨_, .inl ⟨rfl, inside low⟩, stepped⟩
    · rw [if_neg low] at stepped
      exact ⟨_, .inr ⟨rfl, active⟩, stepped⟩

section
variable (has : t.Has tip) (has' : t.Has src) (split : t.lineage tip = above ++ t.lineage src)
include has has' split

omit cold hot in
/-- The path from the source up to the tip: each block follows its parent, and the last is the tip. -/
theorem path_up :
    (src :: above.reverse).IsChain (fun b n => t.find n.hashPrev = some b) ∧
      (src :: above.reverse).getLast (List.cons_ne_nil src above.reverse) = tip := by
  obtain ⟨more, rest, path, whole⟩ := has.lineage_between has' split
  have turned : src :: above.reverse = (tip :: more).reverse := by rw [← path]; simp
  constructor
  · rw [turned, List.isChain_reverse]
    apply has.lineage_isChain.prefix
    rw [whole]
    exact ⟨rest, rfl⟩
  · simp [turned]

omit cold hot in
/-- The blocks from just below the tip down to the source. -/
theorem path_down (member : p ∈ (above ++ [src]).tail) : p ∈ t.lineage tip ∧ p ≠ tip ∧ src ∈ t.lineage p := by
  obtain ⟨more, rest, path, whole⟩ := has.lineage_between has' split
  have below : p ∈ more ++ rest := by
    rw [path] at member
    exact List.mem_append_left _ member
  have inside : p ∈ t.lineage tip := by
    rw [whole]
    exact List.mem_cons_of_mem _ below
  have onSrc : src ∈ t.lineage tip := by
    rw [split]
    exact List.mem_append_right _ has'.mem_lineage_self
  have descending := has.descending
  refine ⟨inside, ?_, ?_⟩
  · rintro rfl
    rw [whole] at descending
    exact absurd ((List.pairwise_cons.mp descending).1 p below) (lt_irrefl _)
  · apply has.mem_lineage_of_le onSrc inside
    rcases List.mem_append.mp (List.mem_of_mem_tail member) with higher | last
    · rw [split, List.pairwise_append] at descending
      exact Nat.le_of_lt (descending.2.2 p higher src has'.mem_lineage_self)
    · rw [List.mem_singleton.mp last]

end

variable {x : SeamSnapshot} {fuel : Nat}

omit cold hot in
/-- On a chain that holds source and tip, a walk whose steps arrive scans what lies between them. -/
theorem walk_between (Here : SeamSnapshot → Record → Prop) {chain : Record} (has : t.Has tip) (has' : t.Has src)
    (hasChain : t.Has chain) (onSrc : src ∈ t.lineage chain) (onTip : tip ∈ t.lineage chain)
    (level : src.height ≤ tip.height) (shown : shownTip.record = tip)
    (records : ∀ {y b}, Here y b → y.snapshot.record = b) (start : Here x src)
    (step : ∀ {y b n}, Here y b → n ∈ t.lineage chain → src.height < n.height → src ≠ tip →
      t.find n.hashPrev = some b → ∃ z, Here z n ∧ nav.getNextActiveFromSnapshotR y = .ok z)
    (early : src.nTime < target) (enough : tip.height.toNat < fuel) : ∃ above, t.lineage tip = above ++ t.lineage src ∧
      nav.walkActive shownTip target fuel x src.height src.nTime =
        some (.ok ((above.reverse.find? (Late target)).map .ofRecord)) := by
  have lower := (t.height_le_iff has).mp level
  obtain ⟨above, split⟩ := has.lineage_suffix (hasChain.mem_lineage_of_le onSrc onTip lower)
  obtain ⟨linked, last⟩ := path_up has has' split.symm
  have total : above.length + src.height.toNat = tip.height.toNat := has.length_between has' split.symm
  have member : ∀ n ∈ above.reverse, n ∈ t.lineage tip := by
    intro n inside
    rw [← split]
    exact List.mem_append_left _ (List.mem_reverse.mp inside)
  have rising : ∀ n ∈ above.reverse, t.Has n ∧ n.height ≤ shownTip.record.height := by
    intro n inside
    have hasNext := has.of_mem_lineage (member n inside)
    rw [shown]
    exact ⟨hasNext, t.height_le has (member n inside)⟩
  refine ⟨above, split.symm, ?_⟩
  rw [← scanPath_eq target src.height src.nTime early]
  refine walkActive_scans records ?_ linked rising (last.trans shown.symm) start _ _ early
    (by rw [List.length_reverse]; omega)
  intro y b n standing inside found
  have descending := has.descending
  rw [← split, List.pairwise_append] at descending
  have higher : src.height.toNat < n.height.toNat :=
    descending.2.2 n (List.mem_reverse.mp inside) src has'.mem_lineage_self
  have differ : src ≠ tip := by
    rintro rfl
    have low : n.height.toNat ≤ src.height.toNat := has'.height_le (member n inside)
    omega
  exact step standing (hasChain.lineage_subset onTip (member n inside)) (by omega) differ found

/-- The fast path, when it does not stray, is the scan of the branch from source to tip. -/
theorem fast_walk (has : t.Has tip) (has' : t.Has src) (shown : shownTip.record = tip)
    (fast : TakesFastPath t Held frozen best src tip) (stays : ¬ Strays t Held frozen best src tip)
    (here : (Held src ∧ x = atCold coldSnap src) ∨ (¬ Held src ∧ x = atHot hotSnap src))
    (early : src.nTime < target) (enough : tip.height.toNat < fuel) : ∃ above, t.lineage tip = above ++ t.lineage src ∧
      nav.walkActive shownTip target fuel x src.height src.nTime =
        some (.ok ((above.reverse.find? (Late target)).map .ofRecord)) := by
  obtain ⟨seenSrc, seenTip, level⟩ := fast
  have inFrozen : ∀ {b}, Held b → SeenActive t Held frozen best b → b ∈ t.lineage frozen := by
    rintro b held (⟨-, member⟩ | ⟨absent, -⟩)
    · exact member
    · exact absurd held absent
  have onBest : ∀ {b}, ¬ Held b → SeenActive t Held frozen best b → b ∈ t.lineage best := by
    rintro b absent (⟨held, -⟩ | ⟨-, member⟩)
    · exact absurd held absent
    · exact member
  by_cases seam : frozen ∈ t.lineage best
  · -- both chains are one
    have along : ∀ {b}, SeenActive t Held frozen best b → b ∈ t.lineage best := by
      rintro b (⟨-, member⟩ | ⟨-, member⟩)
      · exact hot.has_best.lineage_subset seam member
      · exact member
    refine walk_between (OnChain t frozen best coldSnap hotSnap) has has' hot.has_best (along seenSrc) (along seenTip)
      level shown (OnChain.record cold hot) ?_
      (fun standing active _ _ found => next_coherent cold hot seam standing active found) early enough
    rcases here with ⟨held, rfl⟩ | ⟨absent, rfl⟩
    · exact .inl ⟨rfl, inFrozen held seenSrc⟩
    · exact .inr ⟨rfl, along seenSrc⟩
  by_cases both : Held src ∧ Held tip
  · -- the walk stays within the generation
    refine walk_between (fun y b => y = atCold coldSnap b ∧ b ∈ t.lineage frozen) has has' cold.has_tip
      (inFrozen both.1 seenSrc) (inFrozen both.2 seenTip) level shown ?_ ?_ ?_ early enough
    · rintro y b ⟨rfl, member⟩
      exact (frozen_shows cold member).record
    · rcases here with ⟨-, rfl⟩ | ⟨absent, -⟩
      · exact ⟨rfl, inFrozen both.1 seenSrc⟩
      · exact absurd both.1 absent
    · rintro y b n ⟨rfl, -⟩ active - - found
      exact ⟨_, ⟨rfl, active⟩, next_frozen cold active found⟩
  · -- the walk stays on the hot side, above the generation's height
    have outside : ¬ (Held src ∨ Held tip ∨ src ≠ tip ∧ src.height < frozen.height) := fun strays =>
      stays ⟨seam, .inl ⟨⟨seenSrc, seenTip, level⟩, both, strays⟩⟩
    push Not at outside
    obtain ⟨absentSrc, absentTip, high⟩ := outside
    refine walk_between (fun y b => y = atHot hotSnap b ∧ b ∈ t.lineage best) has has' hot.has_best
      (onBest absentSrc seenSrc) (onBest absentTip seenTip) level shown ?_ ?_ ?_ early enough
    · rintro y b ⟨rfl, member⟩
      exact (hot.shows (hot.has_best.of_mem_lineage member)).record
    · rcases here with ⟨held, -⟩ | ⟨-, rfl⟩
      · exact absurd held absentSrc
      · exact ⟨rfl, onBest absentSrc seenSrc⟩
    · rintro y b n ⟨rfl, -⟩ active rising differ found
      have past := high differ
      have low : ¬ n.height ≤ frozen.height := by omega
      have stepped := next_live cold hot active found fun within => absurd within low
      rw [if_neg low] at stepped
      exact ⟨_, ⟨rfl, active⟩, stepped⟩

/-- The backward walk, when it does not stray, finds the lowest late block above the source. -/
theorem branch_walk (has : t.Has tip) (has' : t.Has src) (shown : source.record = src)
    (side : ¬ TakesFastPath t Held frozen best src tip) (stays : ¬ Strays t Held frozen best src tip)
    (split : t.lineage tip = above ++ t.lineage src) (here : At Held coldSnap hotSnap x tip)
    (enough : tip.height.toNat < fuel) :
    ∃ found, nav.walkBranch source target fuel x none = some (.ok found) ∧
      found.map Snapshot.record = above.reverse.find? (Late target) := by
  have total : above.length + src.height.toNat = tip.height.toNat := has.length_between has' split
  have clear : ∀ p ∈ (above ++ [src]).tail, p ∈ t.lineage best → p.height ≤ frozen.height → Held p := by
    intro p member active low
    obtain ⟨inside, differ, under⟩ := path_down has has' split member
    by_contra absent
    by_cases seam : frozen ∈ t.lineage best
    · exact absent (held_frozen cold
        (hot.has_best.mem_lineage_of_le active seam ((t.height_le_iff cold.has_tip).mp low)))
    · exact stays ⟨seam, .inr ⟨side, p, inside, differ, under, active, low, absent⟩⟩
  have short : above.length < fuel := by omega
  obtain ⟨found, ran, lowest⟩ := walkBranch_reaches cold hot has has' shown split here clear short none
  exact ⟨found, ran, by rw [lowest, lowestLate_eq]; simp⟩

omit cold hot in
private theorem tipModifier_ok (shown : shownTip.record = tip) (k : KernelModifier) :
    tipModifier shownTip target = .ok k ↔ (if target ≤ tip.nTime then some (.ofRecord tip) else none) = some k := by
  rw [tipModifier, shown]
  split <;> simp

/-- A block of the tree resolves, with the active flag of the side it comes from. -/
theorem resolve_seen (has : t.Has b) : ∃ x, nav.resolveLogicalR b.hash = .ok x ∧
      ((Held b ∧ x = atCold coldSnap b) ∨ (¬ Held b ∧ x = atHot hotSnap b)) ∧ x.snapshot.record = b ∧
      (x.snapshot.fInMainChain = true ↔ SeenActive t Held frozen best b) := by
  rcases resolve_has cold hot has with ⟨held, resolved⟩ | ⟨absent, resolved⟩
  · have shows := cold.shows has held
    exact ⟨_, resolved, .inl ⟨held, rfl⟩, shows.record, shows.inMain.trans (by simp [SeenActive, held])⟩
  · have shows := hot.shows has
    exact ⟨_, resolved, .inr ⟨absent, rfl⟩, shows.record, shows.inMain.trans (by simp [SeenActive, absent])⟩

/-- On a navigator that serves the tree the walk by value ends, succeeds exactly when the walk over
pointers does and with the same modifier, height and time, and never for a source that is no
ancestor of the branch tip, as long as it does not stray between two chains. -/
theorem branch_modifier_agrees (has : t.Has tip) (source : Hash)
    (stays : ∀ src, t.find source = some src → ¬ Strays t Held frozen best src tip) (enough : tip.height.toNat < fuel) :
    ∃ r, nav.getKernelStakeModifierR fuel source tip.hash = some r ∧
      (∀ k, r = .ok k ↔ getKernelStakeModifier t.find source (t.lineage tip) = some k) ∧
      ∀ k, r = .ok k → ∃ src ∈ t.lineage tip, src.hash = source := by
  cases found : t.find source with
  | none =>
    have pointer : getKernelStakeModifier t.find source (t.lineage tip) = none := by
      rw [getKernelStakeModifier, found, Option.bind_none]
    have missing := resolve_missing cold hot found
    cases resolved : nav.resolveLogicalR source with
    | ok k => exact absurd resolved (missing k)
    | _ => exact ⟨_, by rw [getKernelStakeModifierR, resolved], by simp [pointer], by simp⟩
  | some src =>
    have has' : t.Has src := LinkedTree.has_find found
    have named : src.hash = source := t.hash_of_find found
    subst named
    have early : src.nTime < src.nTime + selectionInterval := by
      have : 0 < selectionInterval := by decide
      omega
    obtain ⟨x, resolved, here, shown, flag⟩ := resolve_seen cold hot has'
    obtain ⟨y, resolved', there, shown', flag'⟩ := resolve_seen cold hot has
    have path : (x.snapshot.fInMainChain = true ∧ y.snapshot.fInMainChain = true ∧
        x.snapshot.record.height ≤ y.snapshot.record.height) ↔ TakesFastPath t Held frozen best src tip := by
      rw [flag, flag', shown, shown']
      rfl
    rw [getKernelStakeModifierR, resolved, resolved']
    dsimp only
    by_cases fast : TakesFastPath t Held frozen best src tip
    · obtain ⟨above, split, walked⟩ := fast_walk cold hot has has' shown' fast (stays src found) here early enough
      have onSrc : src ∈ t.lineage tip := by
        rw [split]
        exact List.mem_append_right _ has'.mem_lineage_self
      rw [if_pos (path.mpr fast), shown, walked, pointer_reaches has has' split]
      refine ⟨_, rfl, fun k => ?_, fun k _ => ⟨src, onSrc, rfl⟩⟩
      cases above.reverse.find? (Late (src.nTime + selectionInterval)) with
      | some b => simp [SeamResult.bind]
      | none => exact tipModifier_ok shown' k
    · rw [if_neg (mt path.mp fast), shown]
      have standing : At Held coldSnap hotSnap y tip := there.imp And.symm And.right
      by_cases onSrc : src ∈ t.lineage tip
      · obtain ⟨above, split⟩ := has.lineage_suffix onSrc
        obtain ⟨lowest, walked, picked⟩ :=
          branch_walk cold hot has has' shown fast (stays src found) split.symm standing enough
        rw [walked, pointer_reaches has has' split.symm, ← picked]
        refine ⟨_, rfl, fun k => ?_, fun k _ => ⟨src, onSrc, rfl⟩⟩
        cases lowest with
        | some s => simp [SeamResult.bind]
        | none => exact tipModifier_ok shown' k
      · obtain ⟨r, walked, fails⟩ := walkBranch_misses cold hot has has' shown onSrc standing enough none
        rw [walked, pointer_misses has' onSrc]
        exact ⟨_, rfl, fun k => iff_of_false (fails.bind k) (by simp), fun k ok => absurd ok (fails.bind k)⟩

end Agreement

/-! ## A generation left behind by a reorganisation -/

namespace Fork

/-- Block `name` on block `prev`. -/
def block (name prev : Nat) (height : Int) (nTime nFlags : Nat) : Record :=
  { hash := hashOfValue name, hashPrev := hashOfValue prev, height, nTime, nFlags, nStakeModifier := name }

def genesis : Record := block 1 0 0 0 0
def staked : Record := block 2 1 1 1000 0
/-- Generated a modifier one selection interval after the staked block. -/
def late : Record := block 3 2 2 22135 4
def other : Record := block 4 1 1 1100 0
def other₂ : Record := block 5 4 2 1200 0
def other₃ : Record := block 6 5 3 30000 4

def tree : BlockTree := .ofBlocks [genesis, staked, late, other, other₂, other₃] (by decide +kernel)

/-- The generation was frozen when `late` was the best block. -/
def Old (b : Record) : Prop := b ∈ [genesis, staked, late]

def Older (b : Record) : Prop := b ∈ [genesis, other]

instance : DecidablePred Old := fun b => inferInstanceAs (Decidable (b ∈ [genesis, staked, late]))
instance : DecidablePred Older := fun b => inferInstanceAs (Decidable (b ∈ [genesis, other]))

/-- The node has since moved to the chain of `other₃`. -/
def diverged : Navigator := { cold := generationOf tree Old late, hot := resolverOf tree other₃, byValueHot := true }

def coherent : Navigator := { cold := generationOf tree Older other, hot := resolverOf tree other₃, byValueHot := true }

private theorem old_closed (held : Old b) (found : tree.find b.hashPrev = some p) : Old p := by
  have each : ∀ b ∈ [genesis, staked, late], (tree.find b.hashPrev).all fun p => decide (Old p) := by decide +kernel
  simpa [found] using each b held

private theorem older_closed (held : Older b) (found : tree.find b.hashPrev = some p) : Older p := by
  have each : ∀ b ∈ [genesis, other], (tree.find b.hashPrev).all fun p => decide (Older p) := by decide +kernel
  simpa [found] using each b held

private theorem has_late : tree.Has late := show tree.find late.hash = some late by decide +kernel
private theorem has_other : tree.Has other := show tree.find other.hash = some other by decide +kernel
private theorem has_other₃ : tree.Has other₃ := show tree.find other₃.hash = some other₃ by decide +kernel

end Fork

open Fork in
/-- A stake on a block that the reorganisation dropped still gets a modifier, from the dropped chain. -/
theorem dropped_source_gets_modifier : ColdServes tree Old late (showBlock tree late) diverged.cold ∧
      HotServes tree other₃ (showBlock tree other₃) diverged.hot ∧
      diverged.getKernelStakeModifierR 4 staked.hash other₃.hash = some (.ok ⟨3, 2, 22135⟩) ∧
      getKernelStakeModifier tree.find staked.hash (tree.lineage other₃) = none ∧ staked ∉ tree.lineage other₃ :=
  ⟨generationOf_serves has_late (by decide) fun _ => old_closed, resolverOf_serves has_other₃,
    by decide +kernel, by decide +kernel, by decide +kernel⟩

open Fork in
theorem branch_modifier_agrees_coherent : ∃ r, coherent.getKernelStakeModifierR 4 other.hash other₃.hash = some r ∧
      (∀ k, r = .ok k ↔ getKernelStakeModifier tree.find other.hash (tree.lineage other₃) = some k) ∧
      ∀ k, r = .ok k → ∃ src ∈ tree.lineage other₃, src.hash = other.hash :=
  branch_modifier_agrees (generationOf_serves has_other (by decide) fun _ => older_closed)
    (resolverOf_serves has_other₃) has_other₃ other.hash
    (fun _ _ strays => strays.1 (by decide +kernel)) (by decide +kernel)

end Innova.Kernel
