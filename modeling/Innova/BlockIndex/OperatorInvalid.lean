import Innova.BlockIndex.SelectBranch
import Innova.Store3A.Reconcile

/-! The operator's calls in authoritative mode (`main.cpp`, `InvalidateBlock` and `ReconsiderBlock`):
they resolve the target, choose a branch with the intent already counted, unwind the coin store and
commit the intent together with the new active chain. -/
namespace Innova.BlockIndex
open Lib Chainstate Store3A.Reconcile

/-! ## The calls -/

/-- What `LookupByHash` of the base generation answers. -/
inductive BaseReply where
  | found (hash : Hash) (height : Int)
  | notFound
  | failed

/-- What the calls read and change. -/
structure Node where
  tip : Tip
  /-- `AuthoritativeBaseTipHeight`. -/
  baseTipHeight : Int
  base : Hash → BaseReply
  /-- `fImporting || fReindex`. -/
  importing : Bool
  /-- The coin store, when it is armed. -/
  store : Option Store3A.Committed
  needsRecovery : Bool
  /-- The chain a tip shows to the coin store's reconciliation. -/
  view : Tip → ChainView
  /-- What an uninitialised hash of the unwinding holds. -/
  garbage : Hash

/-- How a call that does not return true ends. -/
inductive Refusal where
  | error (text : String)
  | crashed

abbrev NodeM := EStateM Refusal Node

/-- `ResolveAuthoritativeTargetV2`, from 0 to 3. -/
inductive Target where
  | above (height : Int) (alreadyInvalid : Bool)
  | atOrBelowBase
  | notFound
  | failed (text : String)

namespace Node
variable (n : Node)

def resolved (hash : Hash) (height : Int) : Target :=
  if 0 ≤ n.baseTipHeight ∧ n.baseTipHeight < height then .above height (n.tip.isOperatorInvalid hash) else
    .atOrBelowBase

/-- The text of a resolution that ended with another status than found or missing. -/
def resolveFailed (status : Nat) : String :=
  "authoritative-live: current-tail snapshot resolve failed (status=" ++ toString status ++ ")"

/-- `ResolveAuthoritativeTargetV2`: the tip first, then the base generation. -/
def resolveAuthoritativeTarget (hash : Hash) : Target :=
  match n.tip.lookupByHash hash with
  | .ok read => n.resolved hash read.record.height
  | .error .corrupt => .failed (resolveFailed 6)
  | .error _ =>
    match n.base hash with
    | .found hash' height =>
      if hash' ≠ hash then .failed ("authoritative-live: current-tail snapshot identity mismatch for " ++ getHex hash)
      else n.resolved hash height
    | .notFound => .notFound
    | .failed => .failed (resolveFailed 6)

/-- The fork height an invalidation starts from. -/
def invalidateFork (hash : Hash) (targetHeight : Int) : Int :=
  max (if n.tip.hashAt targetHeight = some hash then targetHeight - 1 else n.tip.tipHeight) n.baseTipHeight

/-- The loop of `s16_OperatorUnwindStoreTo`, with `left` turns before the store is at the target. -/
def operatorUnwind : (left : Nat) → Store3A.Committed → Store3A.Committed × Option String
  | 0, c => (c, none)
  | left + 1, c =>
    let parent :=
      match n.tip.lookupByHash c.blockHash with
      | .ok rec => if rec.record.hashPrev = ByteArr.zero 32 then n.garbage else rec.record.hashPrev
      | .error _ => n.garbage
    match c.disconnect c.blockHash parent with
    | .error e =>
      (c, some ("store undo at h=" ++ toString c.tipHeight.toInt ++ " (" ++
        (getHex c.blockHash).take 20 ++ "): " ++ errText e))
    | .ok c => operatorUnwind left c

/-- `s16_OperatorUnwindStoreTo`, if the store is armed. -/
def unwindStoreTo (height : Int) : Node × Option String :=
  match n.store with
  | none => (n, none)
  | some c =>
    match n.operatorUnwind (c.tipHeight.toInt - height).toNat c with
    | (c, none) => ({ n with store := some c }, none)
    | (c, some e) => ({ n with store := some c, needsRecovery := true }, some e)

/-- `ReconcileStore3AToChain`, if the store is armed. -/
def reconcileStore : Node × Option String :=
  match n.store with
  | none => (n, none)
  | some c =>
    match reconcileStore3AToChain (n.view n.tip) c with
    | .ok c => ({ n with store := some c }, none)
    | .error e => (n, some e)

end Node

section Calls
variable [Digest] (io flush : Point → Option Fault)

/-- The commit of a selection. -/
def commitSelection (hash : Hash) (invalidate : Bool) (sel : Tip.Selection) (n : Node) :
    EStateM.Result Stop Node Unit :=
  match applyOperatorInvalidAndReorg io flush hash invalidate sel.fork sel.branch sel.heights n.tip with
  | .ok () tip => .ok () { n with tip }
  | .error e tip => .error e { n with tip }

/-- `InvalidateBlock`. -/
def invalidateBlock (hash : Hash) : NodeM Unit := fun n =>
  match n.resolveAuthoritativeTarget hash with
  | .failed text => .error (.error text) n
  | .notFound => .error (.error "Block not found") n
  | .atOrBelowBase =>
    .error (.error ("Cannot invalidate a block at or below the immutable base tip: " ++
      "rebase/rebuild required (V2-R2D fail-closed)")) n
  | .above targetHeight alreadyInvalid =>
    if n.importing then .error (.error "Cannot invalidate while importing or reindexing") n
    else if alreadyInvalid then .ok () n
    else
      match n.tip.selectAttachedBranch n.baseTipHeight (n.invalidateFork hash targetHeight) hash true with
      | .error e => .error (.error ("authoritative selection failed: " ++ e)) n
      | .ok sel =>
        match n.unwindStoreTo sel.fork with
        | (n, some e) => .error (.error ("authoritative invalidate: store undo unwind failed: " ++ e)) n
        | (n, none) =>
          match commitSelection io flush hash true sel n with
          | .ok () n => .ok () n
          -- the store was unwound behind the unchanged index: it is replayed forward
          | .error (.failed _ e) n => .error (.error ("authoritative invalidate failed: " ++ e)) n.reconcileStore.1
          | .error .crashed n => .error .crashed n

/-- `ReconsiderBlock`. -/
def reconsiderBlock (hash : Hash) : NodeM Unit := fun n =>
  match n.resolveAuthoritativeTarget hash with
  | .failed text => .error (.error text) n
  | .notFound => .error (.error "Block not found") n
  | .atOrBelowBase =>
    .error (.error ("Cannot reconsider a block at or below the immutable base tip: " ++
      "rebase/rebuild required (V2-R2D fail-closed)")) n
  | .above targetHeight alreadyInvalid =>
    if n.importing then .error (.error "Cannot reconsider while importing or reindexing") n
    else if !alreadyInvalid then .ok () n
    else
      match n.tip.selectAttachedBranch n.baseTipHeight (max (targetHeight - 1) n.baseTipHeight) hash false with
      | .error e => .error (.error ("authoritative selection failed: " ++ e)) n
      | .ok sel =>
        match commitSelection io flush hash false sel n with
        | .error (.failed _ e) n => .error (.error ("authoritative reconsider failed: " ++ e)) n
        | .error .crashed n => .error .crashed n
        | .ok () n =>
          match n.unwindStoreTo sel.fork with
          | (n, some e) => .error (.error ("authoritative reconsider: store unwind failed: " ++ e)) n
          | (n, none) =>
            match n.reconcileStore with
            | (n, some e) =>
              .error (.error ("authoritative reconsider: store reconnect failed: " ++ e))
                { n with needsRecovery := true }
            | (n, none) => .ok () n

/-- One of the two calls. -/
def operatorCall (hash : Hash) (invalidate : Bool) : NodeM Unit :=
  if invalidate then invalidateBlock io flush hash else reconsiderBlock io flush hash

end Calls

/-! ## The commit -/

/-- The last intent for a hash decides. -/
theorem deriveInvalidSet_snoc (entries : List InvalidEntry) (hash k : Hash) (invalidate : Bool) :
    (deriveInvalidSet (entries ++ [⟨hash, invalidate⟩])).contains k =
      if k = hash then invalidate else (deriveInvalidSet entries).contains k := by
  unfold deriveInvalidSet
  rw [List.foldl_append]
  generalize entries.foldl _ _ = set
  rw [Bool.eq_iff_iff]
  by_cases same : k = hash
  · cases invalidate <;> simp [same]
  · cases invalidate <;> simp [same]

private theorem withIntent_invalid (t : Tip) (hash k : Hash) (invalidate : Bool) :
    (deriveInvalidSet (t.withIntent hash invalidate)).contains k = t.effectivelyInvalid hash invalidate k := by
  unfold Tip.withIntent Tip.effectivelyInvalid
  split
  · next already =>
    by_cases same : k = hash
    · rw [if_pos same, same]
      exact already
    · rw [if_neg same]
      rfl
  · exact deriveInvalidSet_snoc _ _ _ _

section Commit
variable [Digest] {c : TailTree} {hash : Hash}

omit [Digest] in
/-- A branch of committed blocks is promoted as a whole. -/
theorem Tip.Stores.promotes (stores : t.Stores d.toTail) (attached : TailTree.Attached d f branch)
    (plans : Plans .fused t f branch (branch.map (·.record.height)) p) : p.append = [] ∧ p.fixes = [] ∧
      p.keep = (f - d.baseHeight).toNat ∧ p.active.length = p.keep + branch.length ∧
      ∀ (i : Nat) b, branch[i]? = some b → p.active[p.keep + i]? = (d.find b.record.hash).map t.tipMeta.idOf := by
  obtain ⟨-, -, forkIds, length, -, -, planned⟩ := plans
  rw [stores.baseHeight] at length planned
  have item {i : Nat} {b : Append} (at_ : branch[i]? = some b) :
      (branch.zip (branch.map (·.record.height)))[i]? = some (b, b.record.height) := by
    rw [List.getElem?_zip_eq_some]
    exact ⟨at_, by rw [List.getElem?_map, at_, Option.map_some]⟩
  have indexed {b : Append} (member : b ∈ branch) :
      ∃ id slot, t.disk.index b.record.hash = some id ∧ t.tipMeta.slotOf id = some slot ∧
        d.find b.record.hash = some slot := by
    obtain ⟨place, found, -⟩ := TailTree.find_mem (attached.runs.mem b member)
    have side := stores.index b.record.hash
    rw [found, Tip.sideSlot, Option.filter_eq_some_iff, Option.bind_eq_some_iff] at side
    obtain ⟨⟨id, isId, slotted⟩, -⟩ := side
    exact ⟨id, place, isId, slotted, found⟩
  have known : ∀ item ∈ branch.zip (branch.map (·.record.height)), t.knows item = true := by
    rintro ⟨b, height⟩ member
    obtain ⟨id, -, isId, -⟩ := indexed (List.of_mem_zip member).1
    rw [Tip.knows, isId]
    rfl
  refine ⟨?_, ?_, planned.keep, ?_, fun i b at_ => ?_⟩
  · rw [planned.append, Tip.fresh, List.filter_eq_nil_iff.mpr, List.map_nil]
    intro item member
    simp [known item member]
  · apply List.eq_nil_iff_forall_not_mem.mpr
    intro fix member
    exact absurd (planned.fixed fix member).1 (by decide)
  · rw [planned.length, planned.keep, length, List.length_zip, List.length_map, Nat.min_self]
  · obtain ⟨id, slot, committed, promoted, entry, -⟩ :=
      planned.promoted i _ (item at_) (known _ (List.mem_of_getElem? (item at_)))
    obtain ⟨id', slot', isId, slotted, found⟩ := indexed (List.mem_of_getElem? at_)
    obtain rfl : id' = id := Option.mem_unique isId promoted.indexed
    rw [planned.keep, ← length, entry, found, Option.map_some, idOf_slotOf slotted]

/-- After a reorganisation the windows answer from the rewritten files. -/
theorem Reorganised.windows (done : Reorganised t p entries t') :
    t'.recordsWin = .setCount (t.tipMeta.tipRecordCount + p.append.length) ∧
      t'.derivedWin = .setCount (t.tipMeta.tipRecordCount + p.append.length) ∧
        t'.activeWin = .setCount p.active.length ∧
      t'.invalidEntries = entries.getD t.invalidEntries ∧ t'.baseTipHash = t.baseTipHash := by
  obtain ⟨records, derived, v, tipHash, rewritten, -, -, -, rfl⟩ := done
  obtain ⟨-, ⟨u, touched, frame⟩, -⟩ := rewritten
  have metas : v.tipMeta = t.tipMeta := by rw [frame]; exact touched.tipMeta
  have entries' : v.invalidEntries = t.invalidEntries := by rw [frame, touched.frame]
  have base : v.baseTipHash = t.baseTipHash := by rw [frame, touched.frame]
  refine ⟨?_, ?_, rfl, ?_, base⟩
  · rw [← metas]; rfl
  · rw [← metas]; rfl
  · rw [← entries']; rfl

omit [Digest] in
/-- A window without a cache serves the entries it answers with. -/
theorem serves_of_get {α : Type} {g : SlotFile α} {xs : List α} {n : Nat} (length : xs.length = n)
    (get : ∀ slot, (Window.setCount n).get g slot = xs[slot]?) : (Window.setCount n).Serves g xs := by
  subst length
  apply Window.serves_setCount
  intro i x found
  have inside := (List.getElem?_eq_some_iff.mp found).1
  have answer := get i
  rw [Window.get_setCount, if_pos inside, found] at answer
  exact answer

omit [Digest] in
/-- Reading the entries of a served file in place. -/
theorem read_served {α : Type} {w : Window α} {g : SlotFile α} {xs : List α} (serves : w.Serves g xs) (slot : Nat) :
    (if slot < xs.length then g.read slot else none) = xs[slot]? := by
  split
  · next inside => exact serves.file.read inside
  · next outside => rw [List.getElem?_eq_none (by omega)]

/-- The stores after the commit are those of the spliced tail. -/
theorem Tip.Stores.reorganised (stores : t.Stores d.toTail) (attached : TailTree.Attached d f branch)
    (plans : Plans .fused t f branch (branch.map (·.record.height)) p) (done : Reorganised t p entries t') :
    t'.Stores (d.spliced f branch) := by
  obtain ⟨append, fixes, keep, length, promoted⟩ := stores.promotes attached plans
  obtain ⟨recordsWin, derivedWin, activeWin, -, baseHash⟩ := done.windows
  have follows := done.follows (by omega)
  have spliced := attached.length
  have high := attached.high
  unfold Tail.tipHeight at high
  rw [append, stores.count] at recordsWin derivedWin
  have unfixed (slot : Nat) : p.fixAt slot = none := by rw [Plan.fixAt, fixes]; rfl
  have before (slot : Nat) : p.before slot = 0 := by simp [Plan.before, corrections, unfixed]
  have record (slot : Nat) : t'.record? slot = (d.blocks.map (·.record))[slot]? := by
    rw [follows.record, stores.count, unfixed, before, append, ← read_served stores.records, List.length_map]
    rfl
  have derived (slot : Nat) : t'.derived? slot = (d.blocks.map (·.derived))[slot]? := by
    rw [follows.derived, stores.count, unfixed, before, append, ← read_served stores.derived, List.length_map]
    rfl
  have active (rel : Nat) : t'.active? rel = ((d.spliced f branch).active.map t'.tipMeta.idOf)[rel]? := by
    rw [follows.active, List.getElem?_map, attached.place, keep, funext follows.idOf]
    split
    · next old =>
      rw [← List.getElem?_map]
      exact stores.active.file.read (by rw [List.length_map]; omega)
    · next new =>
      obtain ⟨i, rfl⟩ : ∃ i, rel = (f - d.baseHeight).toNat + i := ⟨rel - (f - d.baseHeight).toNat, by omega⟩
      rw [Nat.add_sub_cancel_left]
      cases at_ : branch[i]? with
      | none =>
        have outside := List.getElem?_eq_none_iff.mp at_
        rw [List.getElem?_eq_none (by omega)]
        rfl
      | some b =>
        rw [← keep, promoted i b at_]
        rfl
  have index : t'.disk.index = t.disk.index := by
    rw [follows.index, append]
    rfl
  refine ⟨by rw [follows.pend, stores.pend], by rw [follows.base, stores.baseHeight]; rfl,
    by rw [baseHash, stores.baseHash]; rfl, ?_, by rw [follows.committed, append, stores.count]; rfl,
    ?_, ?_, ?_, fun h => ?_⟩
  · rw [follows.height, Tail.tipHeight, spliced, stores.baseHeight, length, keep]
    rfl
  · rw [recordsWin]
    exact serves_of_get (List.length_map _) fun slot => by rw [← recordsWin]; exact record slot
  · rw [derivedWin]
    exact serves_of_get (List.length_map _) fun slot => by rw [← derivedWin]; exact derived slot
  · rw [activeWin]
    exact serves_of_get (by rw [List.length_map]; omega) fun slot => by rw [← activeWin]; exact active slot
  · have side := stores.index h
    rw [Tip.sideSlot, stores.records.count, List.length_map] at side
    rw [Tip.sideSlot, index, funext follows.slotOf, recordsWin]
    exact side

/-- A commit without buffered appends is planned and carried out on the tip as it stands. -/
theorem apply_plans {heights : List Int} (pend : t.pend = [])
    (ran : applyOperatorInvalidAndReorg io flush hash invalidate f branch heights t = .ok () t') :
    ∃ p, Plans .fused t f branch heights p ∧ Reorganised t p (some (t.withIntent hash invalidate)) t' := by
  have flushed : flushPendingAppends flush t = .ok () t := by
    have empty : t.pend.isEmpty = true := by rw [pend]; rfl
    rw [flushPendingAppends, get_bind, if_pos empty]
    rfl
  have applied : applyOperatorInvalid io hash invalidate f branch heights t = .ok () t' := by
    simpa only [applyOperatorInvalidAndReorg, bind, EStateM.bind, flushed] using ran
  obtain ⟨p, u, planned, done⟩ := applyOperatorInvalid_ok applied
  exact ⟨p, (Ends.of_ok planReorg_ends planned).2, done⟩

omit [Digest] in
/-- The fork of a planned commit lies on the active chain. -/
theorem Tip.Stores.fork_le {heights : List Int} (stores : t.Stores c.toTail)
    (plans : Plans .fused t f branch heights p) :
    f ≤ c.tipHeight := by
  have range := plans.range
  have tall := stores.tipHeight
  unfold Tail.tipHeight at tall ⊢
  simp only [ReorgKind.inRange, ReorgKind.fused, TipMeta.activeCount, stores.baseHeight, if_true,
    Bool.or_eq_true, beq_iff_eq,
    Bool.and_eq_true, decide_eq_true_eq] at range
  omega

/-- A commit of a branch that continues the active chain leaves the tip with the spliced tail. -/
theorem Tip.Holds.committed (holds : t.Holds c.toTail) (attached : TailTree.Attached (c.mark hash invalidate) f branch)
    (plans : Plans .fused t f branch (branch.map (·.record.height)) p)
    (done : Reorganised t p (some (t.withIntent hash invalidate)) t') :
    t'.Holds ((c.mark hash invalidate).spliced f branch) := by
  have marked : t.Stores (c.mark hash invalidate).toTail := holds.toStores.mark hash invalidate
  refine ⟨marked.reorganised attached plans done, fun h => ?_⟩
  rw [Tip.isOperatorInvalid, done.windows.2.2.2.1, Option.getD_some, withIntent_invalid, holds.effectivelyInvalid]
  rfl

end Commit

/-! ## What a call leaves -/

namespace Node
variable {n : Node} {c : TailTree} {hash : Hash} {height : Int}

/-- The height of a target above the base. -/
def targetHeight (n : Node) (hash : Hash) : Option Int :=
  match n.resolveAuthoritativeTarget hash with
  | .above height _ => some height
  | _ => none

@[simp]
theorem unwindStoreTo_tip (n : Node) (height : Int) : (n.unwindStoreTo height).1.tip = n.tip := by
  unfold unwindStoreTo
  split
  · rfl
  · split <;> rfl

@[simp]
theorem reconcileStore_tip (n : Node) : n.reconcileStore.1.tip = n.tip := by
  unfold reconcileStore
  split
  · rfl
  · split <;> rfl

private theorem resolved_above {height' : Int} {already : Bool}
    (above : n.resolved hash height' = .above height already) :
    height' = height ∧ already = n.tip.isOperatorInvalid hash ∧ n.baseTipHeight < height := by
  unfold resolved at above
  split at above
  · next higher =>
    cases above
    exact ⟨rfl, rfl, higher.2⟩
  · cases above

/-- A target above the base is found under its own height, in the tip if it is stored there. -/
theorem resolve_above {already : Bool} (holds : n.tip.Holds c.toTail)
    (target : n.resolveAuthoritativeTarget hash = .above height already) :
    already = c.invalid hash ∧ n.baseTipHeight < height ∧ ∀ b ∈ c.blocks, b.record.hash = hash →
      b.record.height = height := by
  unfold resolveAuthoritativeTarget at target
  have stored : ∀ b ∈ c.blocks, b.record.hash = hash → ∃ read, n.tip.lookupByHash hash = .ok read ∧
    read.record = b.record := by
    rintro b mem rfl
    obtain ⟨place, -, stored⟩ := TailTree.find_mem mem
    exact ⟨_, holds.toStores.lookup_at stored, rfl⟩
  split at target
  · next read found =>
    obtain ⟨same, isInvalid, higher⟩ := resolved_above target
    refine ⟨isInvalid.trans (holds.invalid hash), higher, fun b mem named => ?_⟩
    obtain ⟨read', found', isRecord⟩ := stored b mem named
    obtain rfl : read = read' := Except.ok.inj (found.symm.trans found')
    rw [← isRecord]
    exact same
  · cases target
  next missing =>
  split at target
  · split at target
    · cases target
    obtain ⟨-, isInvalid, higher⟩ := resolved_above target
    refine ⟨isInvalid.trans (holds.invalid hash), higher, fun b mem named => ?_⟩
    obtain ⟨read', found', -⟩ := stored b mem named
    cases missing.symm.trans found'
  · cases target
  · cases target

/-- The fork height a call starts from is the floor of its target. -/
theorem invalidateFork_eq {already : Bool} (holds : n.tip.Holds c.toTail) (bound : n.baseTipHeight = c.baseHeight)
    (target : n.resolveAuthoritativeTarget hash = .above height already) :
    n.invalidateFork hash height = c.floor true hash height := by
  obtain ⟨-, higher, named⟩ := resolve_above holds target
  have tall : n.tip.tipHeight = c.tipHeight := by
    rw [Tip.tipHeight, holds.pend]
    exact holds.tipHeight
  have active : n.tip.hashAt height = some hash ↔ c.isActive hash = true := by
    rw [holds.toStores.hashAt_iff, TailTree.isActive_iff]
    constructor
    · rintro ⟨rel, b, -, at_, same⟩
      exact ⟨rel, b, at_, same⟩
    · rintro ⟨rel, b, at_, same⟩
      refine ⟨rel, b, ?_, at_, same⟩
      rw [← named b (TailTree.mem_of_activeAt at_) same, TailTree.height_activeAt at_]
  unfold invalidateFork Tail.floor
  by_cases isActive : n.tip.hashAt height = some hash
  · simp only [if_pos isActive, active.mp isActive]
    simp only [Bool.not_true, Bool.and_false, Bool.false_eq_true, if_false]
    omega
  · have inactive : c.isActive hash = false := by
      rw [← Bool.not_eq_true]
      exact fun other => isActive (active.mpr other)
    simp only [if_neg isActive, inactive, tall, Bool.not_false, Bool.and_self, if_true, Tail.tipHeight]
    omega

end Node

section Results
variable [Digest] {io flush : Point → Option Fault} {n n' : Node} {c : TailTree} {hash : Hash} {invalidate : Bool}

/-- A call that returns true did nothing, or committed a selection above its floor. -/
theorem operatorCall_ok (holds : n.tip.Holds c.toTail) (bound : n.baseTipHeight = c.baseHeight)
    (ran : operatorCall io flush hash invalidate n = .ok () n') : (c.invalid hash = invalidate ∧ n'.tip = n.tip) ∨
      ∃ height sel, c.invalid hash ≠ invalidate ∧ n.targetHeight hash = some height ∧ c.baseHeight < height ∧
        n.tip.selectAttachedBranch c.baseHeight (c.floor invalidate hash height) hash invalidate = .ok sel ∧
        applyOperatorInvalidAndReorg io flush hash invalidate sel.fork sel.branch sel.heights n.tip =
          .ok () n'.tip := by
  have committed {m m' : Node} {sel : Tip.Selection} (same : m.tip = n.tip)
      (ok : commitSelection io flush hash invalidate sel m = .ok () m') :
      applyOperatorInvalidAndReorg io flush hash invalidate sel.fork sel.branch sel.heights n.tip = .ok () m'.tip := by
    unfold commitSelection at ok
    rw [same] at ok
    split at ok
    · next tip applied =>
      cases ok
      exact applied
    · cases ok
  cases invalidate with
  | true =>
    simp only [operatorCall, if_true, invalidateBlock] at ran
    split at ran
    · cases ran
    · cases ran
    · cases ran
    next height already target =>
    obtain ⟨isInvalid, higher, -⟩ := Node.resolve_above holds target
    split at ran
    · cases ran
    split at ran
    · next done =>
      cases ran
      exact .inl ⟨isInvalid ▸ done, rfl⟩
    next open_ =>
    split at ran
    · cases ran
    next sel selected =>
    split at ran
    · cases ran
    next m unwound =>
    have same : m.tip = n.tip := by rw [← Node.unwindStoreTo_tip n sel.fork, unwound]
    split at ran
    · next m' ok =>
      cases ran
      refine .inr
        ⟨height, sel, isInvalid ▸ open_, by rw [Node.targetHeight, target], bound ▸ higher, ?_, committed same ok⟩
      rw [← Node.invalidateFork_eq holds bound target, ← bound]
      exact selected
    · cases ran
    · cases ran
  | false =>
    simp only [operatorCall, Bool.false_eq_true, if_false, reconsiderBlock] at ran
    split at ran
    · cases ran
    · cases ran
    · cases ran
    next height already target =>
    obtain ⟨isInvalid, higher, -⟩ := Node.resolve_above holds target
    split at ran
    · cases ran
    split at ran
    · next done =>
      cases ran
      exact .inl ⟨by simpa [isInvalid] using done, rfl⟩
    next open_ =>
    split at ran
    · cases ran
    next sel selected =>
    split at ran
    · cases ran
    · cases ran
    next m ok =>
    split at ran
    · cases ran
    next m₁ unwound =>
    split at ran
    · cases ran
    next m₂ reconciled =>
    cases ran
    have same : n'.tip = m.tip := by
      have tip₂ := Node.reconcileStore_tip m₁
      have tip₁ := Node.unwindStoreTo_tip m sel.fork
      rw [reconciled] at tip₂
      rw [unwound] at tip₁
      exact tip₂.trans tip₁
    refine .inr ⟨height, sel, by simpa [isInvalid] using open_, by rw [Node.targetHeight, target], bound ▸ higher, ?_,
      same ▸ committed rfl ok⟩
    rw [Tail.floor, ← bound, ← selected]
    simp only [Bool.false_and, Bool.false_eq_true, if_false]
    congr 1
    omega

/-- What a call that changes something leaves: the tail with the intent counted and the selected
branch made active. -/
theorem operatorCall_splices (holds : n.tip.Holds c.toTail) (bound : n.baseTipHeight = c.baseHeight)
    (changes : c.invalid hash ≠ invalidate) (ran : operatorCall io flush hash invalidate n = .ok () n') :
    ∃ height f branch, ∃ attached : TailTree.Attached (c.mark hash invalidate) f branch,
      n.targetHeight hash = some height ∧
      (c.mark hash invalidate).ForksAt (c.floor invalidate hash height) f ∧ (c.mark hash invalidate).Selects f branch ∧
      n'.tip.Holds ((c.mark hash invalidate).splice f branch attached).toTail := by
  rcases operatorCall_ok holds bound ran with ⟨already, -⟩ | ⟨height, sel, -, target, higher, selected, applied⟩
  · exact absurd already changes
  have low : c.baseHeight ≤ c.floor invalidate hash height := by
    unfold Tail.floor Tail.tipHeight
    split <;> omega
  obtain ⟨forks, selects, heights, lowFork, foot⟩ := Tip.Stores.selectAttached (c := c.mark hash invalidate)
    (holds.toStores.mark hash invalidate) (holds.effectivelyInvalid hash invalidate) low selected
  have runs : (c.mark hash invalidate).Runs sel.fork sel.branch := by
    rcases selects with ⟨empty, -⟩ | ⟨x, -, -, runs⟩
    · rw [empty]
      exact ⟨by simp, by simp, by simp, by simp⟩
    · exact runs
  rw [heights] at applied
  obtain ⟨p, plans, done⟩ := apply_plans holds.pend applied
  have attached : TailTree.Attached (c.mark hash invalidate) sel.fork sel.branch :=
    ⟨runs, lowFork, holds.toStores.fork_le plans, foot⟩
  exact ⟨height, sel.fork, sel.branch, attached, target, forks, selects, holds.committed attached plans done⟩

/-- A call that returns true leaves the best valid chain active exactly when there was nothing to do
and the chain was best, or the call's own floor does not hide a heavier block: where the first choice
above the floor leaves the active chain, the chain is valid so far, and what lies higher outweighs
everything eligible, or nothing eligible lies higher and the block there does. -/
theorem operatorCall_best_iff (holds : n.tip.Holds c.toTail) (bound : n.baseTipHeight = c.baseHeight)
    (ran : operatorCall io flush hash invalidate n = .ok () n') : ∃ c' : TailTree, n'.tip.Holds c'.toTail ∧
      c'.toTail = { c.toTail.mark hash invalidate with active := c'.active } ∧
      (c'.Best ↔ if c.invalid hash = invalidate then c.Best else
        ∃ height f, n.targetHeight hash = some height ∧ (c.mark hash invalidate).ForksAt
          (c.floor invalidate hash height) f ∧
          (c.mark hash invalidate).BestFrom f) := by
  by_cases already : c.invalid hash = invalidate
  · have same : n'.tip = n.tip := by
      rcases operatorCall_ok holds bound ran with ⟨-, same⟩ | ⟨-, -, changes, -⟩
      · exact same
      · exact absurd already changes
    have marked : c.toTail.mark hash invalidate = c.toTail := by
      unfold Tail.mark
      congr 1
      funext k
      split
      · next equal => rw [equal, already]
      · rfl
    exact ⟨c, same ▸ holds, by rw [marked], by rw [if_pos already]⟩
  · obtain ⟨height, f, branch, attached, target, forks, selects, holds'⟩ := operatorCall_splices holds bound already ran
    refine ⟨_, holds', rfl, ?_⟩
    rw [if_neg already, attached.best_iff selects]
    constructor
    · intro best
      exact ⟨height, f, target, forks, best⟩
    · rintro ⟨height', f', target', forks', best⟩
      obtain rfl : height = height' := Option.mem_unique target target'
      rwa [TailTree.forksAt_unique forks forks']

end Results

/-! ## A heavier sibling below the target -/

namespace Sibling

def node (trust : Nat) : Node where
  tip := tip trust
  baseTipHeight := 10
  base := fun _ => .notFound
  importing := false
  store := none
  needsRecovery := false
  view := fun t => ⟨t.tipHeight, t.tipHash, fun _ => none, fun _ => none, fun _ => none⟩
  garbage := ByteArr.zero 32

private theorem holds (trust : Nat) : (node trust).tip.Holds (tree trust).toTail where
  toStores := { indexes trust with
    pend := rfl, baseHeight := rfl, baseHash := rfl, tipHeight := rfl, count := rfl
    active := Window.serves_setCount (SlotFile.holds_whole [1, 2] []) }
  invalid := fun _ => rfl

private theorem runs {trust : Nat}
    (returns : (match @operatorCall sha256Digest quiet quiet (shortHash 3) true (node trust) with
    | .ok _ _ => true
    | .error _ _ =>
      false) = true) : ∃ n', @operatorCall sha256Digest quiet quiet (shortHash 3) true (node trust) = .ok () n' := by
  split at returns
  · next n' ran => exact ⟨n', ran⟩
  · cases returns

/-- The tree with the second block invalid. -/
def marked (trust : Nat) : TailTree := (tree trust).mark (shortHash 3) true

private theorem invalid_second (trust : Nat) : (marked trust).invalid second.record.hash = true := rfl

private theorem eligible_cases {trust : Nat} {b : Append} (eligible : (marked trust).Eligible b) :
    b = first ∨ b = sibling trust := by
  have mem : b ∈ [first, second, sibling trust] := TailTree.mem_of_eligible eligible
  simp only [List.mem_cons, List.not_mem_nil, or_false] at mem
  rcases mem with rfl | rfl | rfl
  · exact .inl rfl
  · cases eligible with
    | first _ valid => exact absurd ((invalid_second trust).symm.trans valid) (by decide)
    | next valid => exact absurd ((invalid_second trust).symm.trans valid) (by decide)
  · exact .inr rfl

private theorem eligible_first (trust : Nat) : (marked trust).Eligible first := .first List.mem_cons_self rfl rfl

private theorem eligible_sibling (trust : Nat) : (marked trust).Eligible (sibling trust) :=
  .first (List.mem_of_getElem? (i := 2) rfl) rfl rfl

/-- Nothing above the first two blocks is open. -/
theorem forksAt (trust : Nat) : (marked trust).ForksAt 11 11 := by
  refine .inl ⟨fun x isOpen => ?_, rfl⟩
  have mem : x ∈ [first, second, sibling trust] := TailTree.mem_of_open isOpen
  have higher := TailTree.height_of_open isOpen
  simp only [List.mem_cons, List.not_mem_nil, or_false] at mem
  rcases mem with rfl | rfl | rfl
  · exact absurd higher (by decide)
  · exact absurd ((invalid_second trust).symm.trans (TailTree.valid_of_open isOpen)) (by decide)
  · exact absurd higher (by simp [sibling, plainBlock])

private theorem active_low (at_ : (marked trust).activeAt rel = some b) (lower : b.record.height ≤ 11) : b = first := by
  have place := TailTree.height_activeAt at_
  have base : (marked trust).baseHeight = 10 := rfl
  obtain rfl : rel = 0 := by omega
  exact (Option.some.inj at_).symm

/-- The chain that ends in the first block is best as long as the sibling does not outweigh it. -/
theorem bestFrom_iff (trust : Nat) : (marked trust).BestFrom 11 ↔ trust ≤ 2 := by
  constructor
  · rintro ⟨-, ⟨m, maximal, higher⟩ | ⟨-, ⟨b, ⟨rel, at_⟩, height, maximal⟩ | ⟨atBase, -⟩⟩⟩
    · rcases eligible_cases maximal.1 with rfl | rfl
      · exact absurd higher (by decide)
      · exact absurd higher (by simp [sibling, plainBlock])
    · obtain rfl := active_low at_ height.le
      exact maximal.2 _ (eligible_sibling trust)
    · exact absurd atBase (by simp [marked, tree, TailTree.mark, Tail.mark])
  · intro light
    refine ⟨?_, .inr ⟨fun e eligible => ?_, .inl ⟨first, ⟨0, rfl⟩, rfl, eligible_first trust, fun e eligible => ?_⟩⟩⟩
    · rintro b ⟨rel, at_⟩ lower
      obtain rfl := active_low at_ lower
      rfl
    · rcases eligible_cases eligible with rfl | rfl
      · decide
      · simp [sibling, plainBlock]
    · rcases eligible_cases eligible with rfl | rfl
      · exact Nat.le_refl _
      · exact light

end Sibling

open Sibling in
theorem sibling_left_behind : ∃ (n n' : Node) (c c' : TailTree), n.tip.Holds c.toTail ∧ n.baseTipHeight = c.baseHeight ∧
    @operatorCall sha256Digest quiet quiet (shortHash 3) true n = .ok () n' ∧ n'.tip.Holds c'.toTail ∧ ¬ c'.Best := by
  obtain ⟨n', ran⟩ : ∃ n', @operatorCall sha256Digest quiet quiet (shortHash 3) true (node 3) = .ok () n' :=
    runs (by decide +kernel)
  obtain ⟨height, f, branch, attached, target, forks, selects, holds'⟩ :=
    @operatorCall_splices sha256Digest _ _ _ _ _ _ _ (holds 3) rfl (by decide) ran
  obtain rfl : height = 12 := Option.mem_unique target (by decide +kernel)
  obtain rfl : f = 11 := TailTree.forksAt_unique forks (forksAt 3)
  refine ⟨node 3, n', tree 3, _, holds 3, rfl, ran, holds', ?_⟩
  rw [attached.best_iff selects]
  exact fun best => absurd ((bestFrom_iff 3).mp best) (by decide)

open Sibling in
theorem operatorCall_best_sibling : ∃ (n' : Node) (c' : TailTree),
    @operatorCall sha256Digest quiet quiet (shortHash 3) true (node 1) = .ok () n' ∧
      n'.tip.Holds c'.toTail ∧ c'.Best := by
  obtain ⟨n', ran⟩ : ∃ n', @operatorCall sha256Digest quiet quiet (shortHash 3) true (node 1) = .ok () n' :=
    runs (by decide +kernel)
  obtain ⟨c', holds', -, best⟩ := @operatorCall_best_iff sha256Digest _ _ _ _ _ _ _ (holds 1) rfl ran
  refine ⟨n', c', ran, holds', best.mpr ?_⟩
  rw [if_neg (by decide)]
  exact ⟨12, 11, by decide +kernel, forksAt 1, (bestFrom_iff 1).mpr (by decide)⟩
end Innova.BlockIndex
