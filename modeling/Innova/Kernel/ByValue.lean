import Innova.Kernel.BranchModifier

/-! `ComputeNextStakeModifier` with a navigator (`kernel.cpp`). The last generated modifier is looked
for in the resident entries first, then in the live authority, then in the generation; the candidates
are collected from the generation and the live authority alone. -/
namespace Innova.Kernel
open Lib Chainstate BlockIndex Navigator

/-! ## The sources -/

/-- An entry of `mapBlockIndex`. `hashPrev` is its `hashPrevStable`, or the hash of its `pprev`, or
zero when it has neither. -/
structure Resident where
  record : Record
  hashPrev : Hash

/-- What the computation reads: the retained navigator, the live authority and the resident entries. -/
structure Sources where
  nav : Navigator
  /-- `ResolveBlockSnapshot` of the live authority, if one is retained. -/
  live : Option (Hash → Option Snapshot)
  mapBlockIndex : Hash → Option Resident

/-- `GetActiveByHeight` of the navigator, which asks the hot side. -/
def Navigator.getActiveByHeight (nav : Navigator) (height : Int) : Option Snapshot :=
  if height < 0 then none else nav.hot.getActiveByHeight height

/-- What `ResolveLastStakeModifierByValue` returns: 1, 0 and -1. -/
inductive LastModifier where
  | resolved (modifier time : Nat)
  | noGeneration
  | failed
deriving DecidableEq

def LastModifier.found? : LastModifier → Option (Nat × Nat)
  | .resolved modifier time => some (modifier, time)
  | _ => none

/-- One turn of the walk: it ends, or goes on at a parent, which may be carried along as a snapshot. -/
inductive LastStep where
  | done (result : Option LastModifier)
  | next (h : Hash) (carried : Option Snapshot)

namespace Sources
variable (src : Sources)

/-! ## The last generated modifier -/

/-- The turn on a snapshot. The parent of an active block is taken by height when it is the parent. -/
def snapshotStep (s : Snapshot) : LastStep :=
  if s.record.generatedStakeModifier then .done (some (.resolved s.record.nStakeModifier s.record.nTime))
  else if s.record.height = 0 ∨ s.record.hashPrev = ByteArr.zero 32 then .done (some .noGeneration)
  else if s.fInMainChain ∧ 0 < s.record.height then
    .next s.record.hashPrev
      ((src.nav.getActiveByHeight (s.record.height - 1)).filter fun parent => parent.record.hash = s.record.hashPrev)
  else .next s.record.hashPrev none

/-- The turn below the resident entries: the live authority, or the navigator when there is none. -/
def belowWindow (fuel : Nat) (h : Hash) : LastStep :=
  match src.live with
  | some resolve =>
    match resolve h with
    | some s => src.snapshotStep s
    | none => .done (some .failed)
  | none =>
    .done ((src.nav.getLastStakeModifierR fuel h).map fun r =>
      match r with
      | .ok (modifier, time) => .resolved modifier time
      | .notFound => .noGeneration
      | _ => .failed)

def lastStep (fuel : Nat) (h : Hash) (carried : Option Snapshot) : LastStep :=
  match carried with
  | some s => src.snapshotStep s
  | none =>
    match src.mapBlockIndex h with
    | some hot =>
      if hot.record.generatedStakeModifier then .done (some (.resolved hot.record.nStakeModifier hot.record.nTime))
      else if hot.record.height = 0 then .done (some .noGeneration)
      else if hot.hashPrev ≠ ByteArr.zero 32 then .next hot.hashPrev none
      -- the floor of the window: its parent is known to the authority only
      else src.belowWindow fuel h
    | none => src.belowWindow fuel h

/-- `ResolveLastStakeModifierByValue`, with `guard` turns left. -/
def resolveLastStakeModifierByValue (fuel : Nat) : (guard : Nat) → Hash → Option Snapshot → Option LastModifier
  | 0, _, _ => some .failed
  | guard + 1, h, carried =>
    match src.lastStep fuel h carried with
    | .done result => result
    | .next h carried => resolveLastStakeModifierByValue fuel guard h carried

/-- The number of turns the source allows. -/
def walkGuard : Nat := 200000000

/-! ## The candidates -/

def fromLive (h : Hash) : SeamResult Snapshot :=
  match src.live.bind fun resolve => resolve h with
  | some s => .ok s
  | none => .notFound

/-- `ResolveAuthoritySnapshot`: the generation, a by-value hot oracle, or the live authority. -/
def resolveAuthoritySnapshot (h : Hash) : SeamResult Snapshot :=
  match src.nav.resolveLogicalR h with
  | .authorityFailure => .authorityFailure
  | .ok cur => if cur.ref.isCold ∨ src.nav.byValueHot then .ok cur.snapshot else src.fromLive h
  | _ => src.fromLive h

/-- `CollectCandidatesByValue`, newest first; the inner `none` is its failure. -/
def collectCandidatesByValue (start : Int) : (fuel : Nat) → Hash → Option (Option (List Candidate))
  | 0, _ => none
  | fuel + 1, h =>
    match src.resolveAuthoritySnapshot h with
    | .ok s =>
      if s.record.nTime < start then some (some [])
      else if !s.hasParent ∨ s.record.hashPrev = ByteArr.zero 32 then some (some [.ofRecord s.record])
      else
        (collectCandidatesByValue start fuel s.record.hashPrev).map fun rest =>
          rest.map fun below => .ofRecord s.record :: below
    | _ => some none

/-- `ComputeNextStakeModifier` with a navigator retained; `none` when `fuel` does not end its walks. -/
def computeNextStakeModifier [Digest] (fuel : Nat) : (pindexPrev : Option Record) → Option NextModifier
  | none => some ⟨true, 0, true⟩
  | some prev => do
    let last ← src.resolveLastStakeModifierByValue fuel walkGuard prev.hash none
    let collected ← src.collectCandidatesByValue (selectionIntervalStart prev.nTime) fuel prev.hash
    return nextModifier prev last.found? (collected.map fun found => found.reverse.mergeSort Candidate.le)

end Sources

/-! ## What the sources serve -/

/-- A snapshot shows a block, whatever its active flag. -/
structure ShowsBlock (s : Snapshot) (b : Record) : Prop where
  record : s.record = b
  hasParent : s.hasParent = true ↔ b.hashPrev ≠ ByteArr.zero 32

/-- The sources serve exactly the blocks of the tree. The generation holds the blocks `Held`, the
live tip the blocks `InTip`, and a block in neither is resident with its parent. -/
structure SourcesServe (t : BlockTree) (Held InTip : Record → Prop) (frozen : Record)
    (coldSnap liveSnap : Record → Snapshot) (src : Sources) : Prop where
  cold : ColdServes t Held frozen coldSnap src.nav.cold
  shows : ∀ {b}, t.Has b → ShowsBlock (liveSnap b) b
  live : ∀ {resolve b}, src.live = some resolve → t.Has b → Held b ∨ InTip b → resolve b.hash = some (liveSnap b)
  live_missing : ∀ {resolve b}, src.live = some resolve → t.Has b → ¬ Held b → ¬ InTip b → resolve b.hash = none
  no_live : src.live = none → ∀ b, ¬ InTip b
  /-- A by-value oracle answers for the live tip; an accessor over resident entries may answer more. -/
  oracle : ∀ {b}, src.nav.byValueHot = true → t.Has b → ¬ Held b → InTip b →
    src.nav.hot.lookupByHash b.hash = some (liveSnap b)
  oracle_missing : ∀ {b}, src.nav.byValueHot = true → t.Has b → ¬ Held b → ¬ InTip b →
    src.nav.hot.lookupByHash b.hash = none
  hot : ∀ {b s}, t.Has b → src.nav.hot.lookupByHash b.hash = some s → s.record = b
  active : ∀ {n s}, src.nav.hot.getActiveByHeight n = some s → ∃ b, t.Has b ∧ ShowsBlock s b
  resident : ∀ {h e}, src.mapBlockIndex h = some e → t.find h = some e.record
  resident_prev : ∀ {h e}, src.mapBlockIndex h = some e → e.hashPrev ≠ ByteArr.zero 32 → e.hashPrev = e.record.hashPrev
  covered : ∀ {b}, t.Has b →
    Held b ∨ InTip b ∨ ∃ e, src.mapBlockIndex b.hash = some e ∧ e.hashPrev = b.hashPrev

/-- The walk leaves the resident entries at the block, with no live authority to go on. -/
def Sources.HandsOver (src : Sources) (b : Record) : Prop :=
  src.live = none ∧ ∀ e, src.mapBlockIndex b.hash = some e → e.hashPrev = ByteArr.zero 32

/-- Within `guard` blocks the walk meets a generated modifier or is handed over to the generation. -/
def Sources.EndsWithin (src : Sources) (guard : Nat) (chain : List Record) : Prop :=
  ∃ b ∈ chain.take guard, b.generatedStakeModifier = true ∨ src.HandsOver b

/-- The blocks the candidate walk resolves: the window and the first block below it. -/
def reach (start : Int) (chain : List Record) : List Record :=
  window start chain ++ (chain.drop (window start chain).length).head?.toList

@[simp] theorem reach_nil (start : Int) : reach start [] = [] := rfl

private theorem reach_inside (inside : start ≤ b.nTime) (rest : List Record) :
    reach start (b :: rest) = b :: reach start rest := by
  simp [reach, window, inside]

private theorem reach_below (below : ¬ start ≤ b.nTime) (rest : List Record) : reach start (b :: rest) = [b] := by
  simp [reach, window, below]

private theorem mem_reach_head (start : Int) (b : Record) (rest : List Record) : b ∈ reach start (b :: rest) := by
  by_cases inside : start ≤ b.nTime
  · simp [reach_inside inside]
  · simp [reach_below inside]

section Serving
variable {t : BlockTree} {Held InTip : Record → Prop} {frozen : Record} {coldSnap liveSnap : Record → Snapshot}
  {src : Sources} {b p : Record} {s : Snapshot} {fuel : Nat}

/-! ## The walk to the last generated modifier -/

section
variable {nav : Navigator} (cold : ColdServes t Held frozen coldSnap nav.cold) (has : t.Has b) (held : Held b)
    (enough : b.height.toNat < fuel)
include cold has held enough

private theorem lastModifierFrom_held : nav.lastModifierFrom fuel (atCold coldSnap b) =
      some (match getLastStakeModifier (t.lineage b) with
        | some last => .ok last
        | none => .notFound) := by
  induction fuel generalizing b with
  | zero => omega
  | succ fuel ih =>
    have shows := cold.shows has held
    have record : (atCold coldSnap b).snapshot.record = b := shows.record
    rw [lastModifierFrom, record]
    rcases t.root_or_parent has with ⟨zero, missing⟩ | ⟨p, found, -, linked, -⟩
    · have last : (atCold coldSnap b).snapshot.hasParent = false :=
        Bool.eq_false_iff.mpr fun linked => shows.hasParent.mp linked (t.root_prev has zero)
      rw [last, LinkedTree.lineage_root has missing, getLastStakeModifier]
      cases b.generatedStakeModifier <;> simp [getLastStakeModifier]
    · have linked : (atCold coldSnap b).snapshot.hasParent = true := shows.hasParent.mpr linked
      have level : b.height.toNat = p.height.toNat + 1 := has.height_parent found
      have below := ih (LinkedTree.has_find found) (cold.held_parent has held found) (by omega)
      rw [linked, LinkedTree.lineage_step has found, getLastStakeModifier, parent_held cold has held found]
      cases b.generatedStakeModifier <;> simp [below]

private theorem getLastStakeModifierR_held : nav.getLastStakeModifierR fuel b.hash =
      some (match getLastStakeModifier (t.lineage b) with
        | some last => .ok last
        | none => .notFound) := by
  rw [getLastStakeModifierR, resolve_held cold has held]
  exact lastModifierFrom_held cold has held enough

end

/-- Where the walk stands: at a block by its hash, or carrying a snapshot of it. -/
def Standing (src : Sources) (b : Record) (h : Hash) (carried : Option Snapshot) : Prop :=
  h = b.hash ∧ ∀ s, carried = some s → ShowsBlock s b ∧ src.live ≠ none

/-- A turn at the block ends the walk with what its ancestry holds, for the given reason, or goes on
at the parent. -/
def Turns (t : BlockTree) (src : Sources) (b : Record) (step : LastStep) : Prop :=
  (∃ r, step = .done (some r) ∧ r.found? = getLastStakeModifier (t.lineage b) ∧
      (b.generatedStakeModifier = true ∨ t.find b.hashPrev = none ∨ src.HandsOver b)) ∨
    ∃ p carried, t.find b.hashPrev = some p ∧ b.generatedStakeModifier = false ∧ ¬ src.HandsOver b ∧
      step = .next p.hash carried ∧ Standing src p p.hash carried

private theorem turns_generated (has : t.Has b) (generated : b.generatedStakeModifier = true) :
    Turns t src b (.done (some (.resolved b.nStakeModifier b.nTime))) := by
  obtain ⟨rest, head⟩ := has.lineage_head
  refine .inl ⟨_, rfl, ?_, .inl generated⟩
  rw [head, getLastStakeModifier, if_pos generated]
  rfl

private theorem turns_root (has : t.Has b) (plain : b.generatedStakeModifier = false)
    (missing : t.find b.hashPrev = none) :
    Turns t src b (.done (some .noGeneration)) := by
  refine .inl ⟨_, rfl, ?_, .inr (.inl missing)⟩
  rw [LinkedTree.lineage_root has missing, getLastStakeModifier, plain]
  rfl

variable (serves : SourcesServe t Held InTip frozen coldSnap liveSnap src)
include serves

private theorem snapshotStep_turns (shown : ShowsBlock s b) (has : t.Has b) (live : src.live ≠ none) :
    Turns t src b (src.snapshotStep s) := by
  rw [Sources.snapshotStep, shown.record]
  by_cases generated : b.generatedStakeModifier = true
  · rw [if_pos generated]
    exact turns_generated has generated
  rw [if_neg generated]
  rw [Bool.not_eq_true] at generated
  rcases t.root_or_parent has with ⟨zero, missing⟩ | ⟨p, found, high, linked, named⟩
  · rw [if_pos (.inl zero)]
    exact turns_root has generated missing
  rw [if_neg (not_or.mpr ⟨high, linked⟩), named]
  have away : ¬ src.HandsOver b := fun handed => live handed.1
  split
  · refine .inr ⟨p, _, found, generated, away, rfl, rfl, fun s' kept => ⟨?_, live⟩⟩
    obtain ⟨read, same⟩ := Option.filter_eq_some_iff.mp kept
    have same : s'.record.hash = p.hash := by simpa using same
    rw [Navigator.getActiveByHeight, if_neg (by omega)] at read
    obtain ⟨x, has', shown'⟩ := serves.active read
    -- the identity check makes the block read by height the parent
    have equal : x = p := has'.eq_of_key (LinkedTree.has_find found) (shown'.record ▸ same)
    exact equal ▸ shown'
  · exact .inr ⟨p, none, found, generated, away, rfl, rfl, fun s' none => by cases none⟩

section
variable (has : t.Has b)
include has

/-- Below the window the block is known to the live authority, or to the generation. -/
theorem belowWindow_turns (unlinked : ∀ e, src.mapBlockIndex b.hash = some e →
    e.hashPrev = ByteArr.zero 32 ∧ e.hashPrev ≠ b.hashPrev)
    (enough : b.height.toNat < fuel) : Turns t src b (src.belowWindow fuel b.hash) := by
  have known : Held b ∨ InTip b := by
    rcases serves.covered has with held | tip | ⟨e, read, same⟩
    · exact .inl held
    · exact .inr tip
    · exact absurd same (unlinked e read).2
  rw [Sources.belowWindow]
  cases live : src.live with
  | some resolve =>
    simp only [serves.live live has known]
    exact snapshotStep_turns serves (serves.shows has) has (by simp [live])
  | none =>
    have held : Held b := known.resolve_right (serves.no_live live b)
    simp only [getLastStakeModifierR_held serves.cold has held enough, Option.map_some]
    refine .inl ⟨_, rfl, ?_, .inr (.inr ⟨live, fun e read => (unlinked e read).1⟩)⟩
    cases getLastStakeModifier (t.lineage b) <;> rfl

private theorem lastStep_turns (standing : Standing src b h carried) (enough : b.height.toNat < fuel) :
    Turns t src b (src.lastStep fuel h carried) := by
  obtain ⟨rfl, carries⟩ := standing
  cases carried with
  | some s =>
    obtain ⟨shown, live⟩ := carries s rfl
    exact snapshotStep_turns serves shown has live
  | none =>
    rw [Sources.lastStep]
    cases read : src.mapBlockIndex b.hash with
    | none => exact belowWindow_turns serves has (by simp [read]) enough
    | some e =>
      have find : t.find b.hash = some b := has
      have same : e.record = b := Option.mem_unique (serves.resident read) find
      simp only [same]
      by_cases generated : b.generatedStakeModifier = true
      · rw [if_pos generated]
        exact turns_generated has generated
      rw [if_neg generated]
      rw [Bool.not_eq_true] at generated
      rcases t.root_or_parent has with ⟨zero, missing⟩ | ⟨p, found, high, linked, named⟩
      · rw [if_pos zero]
        exact turns_root has generated missing
      rw [if_neg high]
      by_cases floor : e.hashPrev = ByteArr.zero 32
      · rw [if_neg (not_not_intro floor)]
        refine belowWindow_turns serves has (fun e' read' => ?_) enough
        rw [read] at read'
        cases read'
        exact ⟨floor, fun same => linked (same ▸ floor)⟩
      · rw [if_pos floor]
        have above : e.hashPrev = p.hash := by rw [serves.resident_prev read floor, same, named]
        exact .inr ⟨p, none, found, generated, fun handed => floor (handed.2 e read), by rw [above], rfl,
          fun s none => by cases none⟩

/-- The walk finds what the ancestry holds if it ends within its turns, and nothing otherwise. -/
theorem resolveLast_spec (guard : Nat) (standing : Standing src b h carried) (enough : b.height.toNat < fuel) :
    ∃ r, src.resolveLastStakeModifierByValue fuel guard h carried = some r ∧
      (src.EndsWithin guard (t.lineage b) → r.found? = getLastStakeModifier (t.lineage b)) ∧
      (¬ src.EndsWithin guard (t.lineage b) → r.found? = none) := by
  induction guard generalizing b h carried with
  | zero => exact ⟨.failed, rfl, fun ⟨x, member, _⟩ => by simp at member, fun _ => rfl⟩
  | succ guard ih =>
    rw [Sources.resolveLastStakeModifierByValue]
    rcases lastStep_turns serves has standing enough with ⟨r, stepped, ended, why⟩ | ⟨p, carried',
      found, plain, away, stepped, standing'⟩
    · rw [stepped]
      refine ⟨r, rfl, fun _ => ended, fun never => ?_⟩
      obtain ⟨rest, head⟩ := has.lineage_head
      have goesOn : ¬ (b.generatedStakeModifier = true ∨ src.HandsOver b) := fun ends => never ⟨b, by simp [head], ends⟩
      rcases why with generated | missing | handed
      · exact absurd (.inl generated) goesOn
      · rw [ended, LinkedTree.lineage_root has missing, getLastStakeModifier, if_neg fun generated =>
          goesOn (.inl generated)]
        rfl
      · exact absurd (.inr handed) goesOn
    · have lineage := LinkedTree.lineage_step has found
      have level : b.height.toNat = p.height.toNat + 1 := has.height_parent found
      obtain ⟨r, ran, ends, never⟩ := ih (LinkedTree.has_find found) standing' (by omega)
      rw [stepped]
      have shorter : src.EndsWithin (guard + 1) (t.lineage b) ↔ src.EndsWithin guard (t.lineage p) := by
        simp [Sources.EndsWithin, lineage, plain, away]
      have last : getLastStakeModifier (t.lineage b) = getLastStakeModifier (t.lineage p) := by
        rw [lineage, getLastStakeModifier, plain]
        rfl
      rw [shorter, last]
      exact ⟨r, ran, ends, never⟩

/-! ## The walk over the candidates -/

/-- A block resolves exactly when the generation holds it or the live tip does. -/
theorem resolveAuthority_known (known : Held b ∨ InTip b) :
    ∃ s, src.resolveAuthoritySnapshot b.hash = .ok s ∧ ShowsBlock s b := by
  by_cases held : Held b
  · have shows := serves.cold.shows has held
    refine ⟨coldSnap b, ?_, shows.record, shows.hasParent⟩
    rw [Sources.resolveAuthoritySnapshot, resolve_held serves.cold has held]
    rfl
  have tip := known.resolve_left held
  have live : src.fromLive b.hash = .ok (liveSnap b) := by
    cases retained : src.live with
    | none => exact absurd tip (serves.no_live retained b)
    | some resolve => simp [Sources.fromLive, retained, serves.live retained has known]
  refine ⟨liveSnap b, ?_, serves.shows has⟩
  have missing := lookup_missing serves.cold has held
  have unchanged := serves.cold.unchanged
  rw [Sources.resolveAuthoritySnapshot, resolveLogicalR]
  cases hot : src.nav.hot.lookupByHash b.hash with
  | none => simp [missing, unchanged, t.hash_ne_zero has, live]
  | some s =>
    have record := serves.hot has hot
    simp only [missing, unchanged, t.hash_ne_zero has, record, makeHot, NavRef.isCold]
    cases oracle : src.nav.byValueHot with
    | false => simp [live]
    | true =>
      have same : s = liveSnap b := Option.mem_unique hot (serves.oracle oracle has held tip)
      simp [same]

private theorem resolveAuthority_unknown (absent : ¬ (Held b ∨ InTip b)) :
    (src.resolveAuthoritySnapshot b.hash).Fails := by
  obtain ⟨cold, tip⟩ := not_or.mp absent
  have live : src.fromLive b.hash = .notFound := by
    cases retained : src.live with
    | none => simp [Sources.fromLive, retained]
    | some resolve => simp [Sources.fromLive, retained, serves.live_missing retained has cold tip]
  intro s
  rw [Sources.resolveAuthoritySnapshot, resolveLogicalR, lookup_missing serves.cold has cold]
  cases oracle : src.nav.byValueHot with
  | true => simp [serves.oracle_missing oracle has cold tip, serves.cold.unchanged, t.hash_ne_zero has, live]
  | false =>
    cases hot : src.nav.hot.lookupByHash b.hash with
    | none => simp [serves.cold.unchanged, t.hash_ne_zero has, live]
    | some s =>
      simp [serves.cold.unchanged, t.hash_ne_zero has, serves.hot has hot, makeHot, NavRef.isCold, live]

private theorem collect_unknown (absent : ¬ (Held b ∨ InTip b)) (start : Int) (fuel : Nat) :
    src.collectCandidatesByValue start (fuel + 1) b.hash = some none := by
  have fails := resolveAuthority_unknown serves has absent
  rw [Sources.collectCandidatesByValue]
  cases resolved : src.resolveAuthoritySnapshot b.hash with
  | ok s => exact absurd resolved (fails s)
  | _ => rfl

/-- The collection succeeds exactly when the generation and the live tip know every block it
reaches, and then it is the window. -/
theorem collect_spec (start : Int) (enough : b.height.toNat < fuel) :
    ∃ r, src.collectCandidatesByValue start fuel b.hash = some r ∧
      ((∀ x ∈ reach start (t.lineage b), Held x ∨ InTip x) →
        r = some ((window start (t.lineage b)).map Candidate.ofRecord)) ∧
      ((¬ ∀ x ∈ reach start (t.lineage b), Held x ∨ InTip x) → r = none) := by
  induction fuel generalizing b with
  | zero => omega
  | succ fuel ih =>
    obtain ⟨rest, head⟩ := has.lineage_head
    by_cases known : Held b ∨ InTip b
    · obtain ⟨s, resolved, shown⟩ := resolveAuthority_known serves has known
      rw [Sources.collectCandidatesByValue, resolved]
      simp only [shown.record]
      by_cases inside : start ≤ b.nTime
      · rw [if_neg (by omega)]
        rcases t.root_or_parent has with ⟨zero, missing⟩ | ⟨p, found, -, linked, named⟩
        · rw [if_pos (.inr (t.root_prev has zero)), LinkedTree.lineage_root has missing, reach_inside inside]
          exact ⟨_, rfl, fun _ => by simp [window, inside], fun some => absurd (by simpa using known) some⟩
        · rw [if_neg (by simp [shown.hasParent.mpr linked, linked]), named, LinkedTree.lineage_step has found,
            reach_inside inside]
          have level : b.height.toNat = p.height.toNat + 1 := has.height_parent found
          obtain ⟨r, ran, all, some⟩ := ih (LinkedTree.has_find found) (by omega)
          rw [ran]
          refine ⟨_, rfl, fun every => ?_, fun missed => ?_⟩
          · rw [all fun x member => every x (List.mem_cons_of_mem _ member)]
            simp [window, inside]
          · rw [some fun every => missed (by simpa [known] using every)]
            rfl
      · rw [if_pos (by omega), head, reach_below inside]
        exact ⟨_, rfl, fun _ => by simp [window, inside], fun some => absurd (by simpa using known) some⟩
    · rw [head]
      refine ⟨none, ?_, fun all => absurd (all b (mem_reach_head start b _)) known, fun _ => rfl⟩
      exact collect_unknown serves has known start fuel

end

/-! ## Agreement with the pointer walk -/

omit serves in
/-- The pointer walk succeeds as soon as its ancestry holds a generated modifier. -/
theorem nextModifier_succeeds [Digest] (has : t.Has b) (last : Nat × Nat) :
    (nextModifier b (some last) (some (sortedCandidates (selectionIntervalStart b.nTime) (t.lineage b)))).success =
    true := by
  obtain ⟨new, ran⟩ := rounds_window has.lineage_keys_nodup (selectionIntervalStart b.nTime)
    (selectionIntervalStart b.nTime) last.1
  rw [nextModifier]
  split
  · rfl
  · simp [ran]

/-- The computation by value agrees with the pointer walk exactly when the ancestry holds no generated
modifier, or the walk to the last one ends within its turns and, where a new interval has begun, the
generation and the live tip know the whole candidate window and the block below it. -/
theorem next_modifier_agrees_iff [Digest] (has : t.Has b) (enough : b.height.toNat < fuel) :
    src.computeNextStakeModifier fuel (some b) = some (computeNextStakeModifier t.find (t.lineage b)) ↔
      (∀ x ∈ t.lineage b, x.generatedStakeModifier = false) ∨ src.EndsWithin Sources.walkGuard (t.lineage b) ∧
          ((∀ last, (t.lineage b).find? Record.generatedStakeModifier = some last →
              b.nTime / modifierInterval ≤ last.nTime / modifierInterval) ∨
            ∀ x ∈ reach (selectionIntervalStart b.nTime) (t.lineage b), Held x ∨ InTip x) := by
  obtain ⟨r, ran, ends, never⟩ :=
    resolveLast_spec serves has Sources.walkGuard (⟨rfl, by simp⟩ : Standing src b b.hash none) enough
  obtain ⟨c, collected, all, missed⟩ := collect_spec serves has (selectionIntervalStart b.nTime) enough
  obtain ⟨rest, head⟩ := has.lineage_head
  have pointer : computeNextStakeModifier t.find (t.lineage b) =
      nextModifier b (getLastStakeModifier (t.lineage b))
        (some (sortedCandidates (selectionIntervalStart b.nTime) (t.lineage b))) := by
    rw [← collect_resident (fun x member => has.of_mem_lineage member), head]
    rfl
  have value : src.computeNextStakeModifier fuel (some b) =
      some (nextModifier b r.found? (c.map fun found => found.reverse.mergeSort Candidate.le)) := by
    simp [Sources.computeNextStakeModifier, ran, collected]
  rw [value, pointer, Option.some_inj]
  cases last : (t.lineage b).find? Record.generatedStakeModifier with
  | none =>
    have lost : r.found? = none := by
      by_cases ended : src.EndsWithin Sources.walkGuard (t.lineage b)
      · rw [ends ended, getLastStakeModifier_eq, last]
        rfl
      · exact never ended
    rw [lost, getLastStakeModifier_eq, last]
    exact iff_of_true rfl (.inl (by simpa using List.find?_eq_none.mp last))
  | some g =>
    have some_generated : ¬ ∀ x ∈ t.lineage b, x.generatedStakeModifier = false := fun none => by
      have generated := List.find?_some last
      rw [none g (List.mem_of_find?_eq_some last)] at generated
      cases generated
    have found : getLastStakeModifier (t.lineage b) = some (g.nStakeModifier, g.nTime) := by
      rw [getLastStakeModifier_eq, last]
      rfl
    rw [found] at ends ⊢
    have succeeds := nextModifier_succeeds has (g.nStakeModifier, g.nTime)
    rw [or_iff_right some_generated]
    by_cases ended : src.EndsWithin Sources.walkGuard (t.lineage b)
    · rw [ends ended, and_iff_right ended]
      by_cases same : b.nTime / modifierInterval ≤ g.nTime / modifierInterval
      · refine iff_of_true ?_ (.inl (by simpa [last] using same))
        simp [nextModifier, same]
      have begun : ¬ ∀ last', some g = some last' → b.nTime / modifierInterval ≤ last'.nTime / modifierInterval :=
        fun every => same (every g rfl)
      rw [or_iff_right begun]
      by_cases every : ∀ x ∈ reach (selectionIntervalStart b.nTime) (t.lineage b), Held x ∨ InTip x
      · refine iff_of_true ?_ every
        rw [all every]
        rfl
      · refine iff_of_false (fun equal => ?_) every
        rw [missed every] at equal
        rw [← equal] at succeeds
        simp [nextModifier, same, NextModifier.failed] at succeeds
    · refine iff_of_false (fun equal => ?_) fun both => ended both.1
      rw [never ended] at equal
      rw [← equal] at succeeds
      cases succeeds

end Serving

/-! ## A generation with resident entries above it -/

section Shadow
variable (t : BlockTree) (Held : Record → Prop) [DecidablePred Held] (frozen best : Record)

/-- No live authority is retained, and the hot side is the accessor over resident entries. -/
def shadowSources : Sources where
  nav := { cold := generationOf t Held frozen, hot := resolverOf t best, byValueHot := false }
  live := none
  mapBlockIndex h := (t.find h).map fun b => ⟨b, b.hashPrev⟩

variable {t Held frozen best}

private theorem shadowSources_serve (hasBest : t.Has best) (has : t.Has frozen) (held : Held frozen)
    (closed : ∀ {b p}, t.Has b → Held b → t.find b.hashPrev = some p → Held p) :
    SourcesServe t Held (fun _ => False) frozen (showBlock t frozen) (showBlock t best)
      (shadowSources t Held frozen best) where
  cold := generationOf_serves has held closed
  shows _ := ⟨(shows_showBlock best).record, (shows_showBlock best).hasParent⟩
  live retained := by cases retained
  live_missing retained := by cases retained
  no_live _ _ := id
  oracle byValue := by cases byValue
  oracle_missing byValue := by cases byValue
  hot {b s} has read := by
    have find : t.find b.hash = some b := has
    simp only [shadowSources, resolverOf, find, Option.map_some, Option.some_inj] at read
    rw [← read]
    rfl
  active {n s} read := by
    obtain ⟨b, found, rfl⟩ := Option.map_eq_some_iff.mp read
    refine ⟨b, hasBest.of_mem_lineage (List.mem_of_find?_eq_some found), ?_⟩
    exact ⟨(shows_showBlock best).record, (shows_showBlock best).hasParent⟩
  resident {h e} read := by
    obtain ⟨b, found, rfl⟩ := Option.map_eq_some_iff.mp read
    exact found
  resident_prev {h e} read _ := by
    obtain ⟨b, found, rfl⟩ := Option.map_eq_some_iff.mp read
    rfl
  covered {b} has := by
    have find : t.find b.hash = some b := has
    exact .inr (.inr ⟨⟨b, b.hashPrev⟩, by simp [shadowSources, find], rfl⟩)

end Shadow

namespace Window
open Fork (block)

def genesis : Record := block 1 0 0 1000 4
/-- The first block of a later interval. -/
def accepted : Record := block 2 1 1 30000 0

def tree : BlockTree := .ofBlocks [genesis, accepted] (by decide +kernel)

def Frozen (b : Record) : Prop := b = genesis

instance : DecidablePred Frozen := fun b => inferInstanceAs (Decidable (b = genesis))

private theorem has_genesis : tree.Has genesis := show tree.find genesis.hash = some genesis by decide +kernel
private theorem has_accepted : tree.Has accepted := show tree.find accepted.hash = some accepted by decide +kernel

private theorem frozen_closed (held : Frozen b) (found : tree.find b.hashPrev = some p) : Frozen p := by
  have root : tree.find genesis.hashPrev = none := by decide +kernel
  rw [show b = genesis from held] at found
  cases found

end Window

open Window in
/-- A block accepted after the generation was frozen is in no authority the candidate walk asks, so
the first new interval fails although every block is at hand. -/
theorem accepted_block_has_no_modifier :
    SourcesServe tree Frozen (fun _ => False) genesis (showBlock tree genesis) (showBlock tree accepted)
        (shadowSources tree Frozen genesis accepted) ∧
      @Sources.computeNextStakeModifier (shadowSources tree Frozen genesis accepted) sha256Digest 2 (some accepted) =
        some ⟨false, 0, false⟩ ∧ @computeNextStakeModifier sha256Digest tree.find (tree.lineage accepted) =
          ⟨true, 0, true⟩ := by
  refine ⟨shadowSources_serve has_accepted has_genesis rfl fun _ => frozen_closed, ?_, ?_⟩
  · decide +kernel
  · decide +kernel

open Window in
theorem next_modifier_agrees_frozen :
    @Sources.computeNextStakeModifier (shadowSources tree (fun _ => True) accepted accepted)
      sha256Digest 2 (some accepted) =
      some (@computeNextStakeModifier sha256Digest tree.find (tree.lineage accepted)) := by
  let := sha256Digest
  refine (next_modifier_agrees_iff (shadowSources_serve has_accepted has_accepted trivial fun _ _ _ => trivial)
    has_accepted (by decide +kernel)).mpr (.inr ⟨⟨genesis, ?_, .inl rfl⟩, .inr fun _ _ => .inl trivial⟩)
  have lineage : tree.lineage accepted = [accepted, genesis] := by decide +kernel
  rw [lineage, List.take_of_length_le (by decide)]
  simp

end Innova.Kernel
