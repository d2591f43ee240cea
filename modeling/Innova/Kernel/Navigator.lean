import Innova.BlockIndex.ReaderMove
import Innova.Kernel.StakeModifier

/-! The navigator between a frozen generation and the live chain (`cold_hot_seam.cpp`): it resolves
blocks by value, from the generation first and then from the hot side, and steps to parents and to
active successors across the seam. -/
namespace Innova.Kernel
open Lib Chainstate BlockIndex

/-! ## The two sides -/

/-- A read of the generation, the texts aside. -/
inductive ColdRead where
  | found (s : Snapshot)
  | notFound
  | failed
deriving DecidableEq

/-- The queries the navigator puts to the reader of the generation. -/
structure ColdSide where
  lookupByHash : Hash → ColdRead
  getRecordById : Nat → ColdRead
  getParent : Nat → ColdRead
  getActiveByHeight : Int → ColdRead
  getNextActive : Nat → ColdRead
  /-- `GetTip`; `none` when the reader has no tip record. -/
  getTip : Option Snapshot
  /-- `CurrentSelectionChanged`. -/
  selectionChanged : Bool

/-- The hot oracle (`ColdHotHotResolver`): a by-value resolver, or the accessor over resident
entries. -/
structure HotSide where
  lookupByHash : Hash → Option Snapshot
  getActiveByHeight : Int → Option Snapshot
  getParent : Snapshot → Option Snapshot
  getNextActive : Snapshot → Option Snapshot

/-- An open `ColdHotSeamNavigator`. -/
structure Navigator where
  cold : ColdSide
  hot : HotSide
  /-- `HasByValueHotResolver`. -/
  byValueHot : Bool

/-- `BlockIndexNavigationRef`: where a block was resolved. -/
inductive NavRef where
  | cold (hash : Hash) (recordId : Nat)
  | hot (hash : Hash)
deriving DecidableEq

def NavRef.isCold : NavRef → Bool
  | .cold .. => true
  | .hot _ => false

/-- `ColdHotSeamSnapshot`. -/
structure SeamSnapshot where
  ref : NavRef
  snapshot : Snapshot
deriving DecidableEq

/-- `ColdHotSeamResult`. -/
inductive SeamResult (α : Type) where
  | ok (a : α)
  | notFound
  | endOfActiveChain
  | authorityFailure
deriving DecidableEq

def SeamResult.bind {α β : Type} (r : SeamResult α) (f : α → SeamResult β) : SeamResult β :=
  match r with
  | .ok a => f a
  | .notFound => .notFound
  | .endOfActiveChain => .endOfActiveChain
  | .authorityFailure => .authorityFailure

def SeamResult.Fails {α : Type} (r : SeamResult α) : Prop := ∀ a, r ≠ .ok a

theorem SeamResult.Fails.bind {α β : Type} {r : SeamResult α} {f : α → SeamResult β} (fails : r.Fails) :
    (r.bind f).Fails := by
  intro b ok
  cases r with
  | ok a => exact fails a rfl
  | notFound => cases ok
  | endOfActiveChain => cases ok
  | authorityFailure => cases ok

/-- `MakeCold`: only a snapshot with a record id. -/
def makeCold (s : Snapshot) : SeamResult SeamSnapshot :=
  if s.id = 0 ∨ s.record.hash = ByteArr.zero 32 then .authorityFailure else .ok ⟨.cold s.record.hash s.id, s⟩

def makeHot (s : Snapshot) : SeamResult SeamSnapshot :=
  if s.record.hash = ByteArr.zero 32 then .authorityFailure else .ok ⟨.hot s.record.hash, s⟩

/-- `ColdHotSeamResultFromReadStatus` with what was read. -/
def ColdRead.seam (read : ColdRead) (next : Snapshot → SeamResult SeamSnapshot) : SeamResult SeamSnapshot :=
  match read with
  | .found s => next s
  | .notFound => .notFound
  | .failed => .authorityFailure

namespace Navigator
variable (nav : Navigator)

/-! ## Resolving -/

/-- `ResolveLogicalR`: the generation first; only a genuine miss there goes to the hot side. -/
def resolveLogicalR (h : Hash) : SeamResult SeamSnapshot :=
  if h = ByteArr.zero 32 ∨ nav.cold.selectionChanged then .authorityFailure
  else
    match nav.cold.lookupByHash h with
    | .found s => if s.record.hash ≠ h then .authorityFailure else makeCold s
    | .failed => .authorityFailure
    | .notFound =>
      match nav.hot.lookupByHash h with
      | none => .notFound
      | some s => if s.record.hash ≠ h then .authorityFailure else makeHot s

/-- `ResolveColdLogicalR`: never the hot side. -/
def resolveColdLogicalR (h : Hash) : SeamResult SeamSnapshot :=
  if h = ByteArr.zero 32 ∨ nav.cold.selectionChanged then .authorityFailure
  else (nav.cold.lookupByHash h).seam fun s => if s.record.hash ≠ h then .authorityFailure else makeCold s

/-- `ResolveR`. -/
def resolveR : NavRef → SeamResult SeamSnapshot
  | .hot h =>
    match nav.hot.lookupByHash h with
    | none => .authorityFailure
    | some s => if s.record.hash ≠ h then .authorityFailure else makeHot s
  | .cold h recordId =>
    if nav.cold.selectionChanged then .authorityFailure
    else (nav.cold.getRecordById recordId).seam fun s => if s.record.hash ≠ h then .authorityFailure else makeCold s

/-! ## Steps -/

def coldTipHeight : Int :=
  match nav.cold.getTip with
  | some tip => tip.record.height
  | none => 0

/-- `GetParentR`: a hot block's parent that lies on the live chain within the generation's heights
must be found in the generation. -/
def getParentR (ref : NavRef) : SeamResult SeamSnapshot :=
  (nav.resolveR ref).bind fun current =>
    if !current.snapshot.hasParent then .notFound
    else
      match current.ref with
      | .cold .. => (nav.cold.getParent current.snapshot.id).seam makeCold
      | .hot _ =>
        match nav.hot.getParent current.snapshot with
        | none => .notFound
        | some parent =>
          if parent.fInMainChain ∧ parent.record.height ≤ nav.coldTipHeight then
            match nav.resolveColdLogicalR parent.record.hash with
            | .ok cold => makeCold cold.snapshot
            | _ => .authorityFailure
          else makeHot parent

/-- `VerifySeam`: the live chain passes through the generation's tip. -/
def verifySeam : Bool :=
  !nav.cold.selectionChanged &&
    match nav.cold.getTip with
    | none => false
    | some tip =>
      match nav.hot.getActiveByHeight tip.record.height with
      | none => false
      | some live => live.record.hash == tip.record.hash

/-- `IsAtColdTip`. -/
def isAtColdTip (s : Snapshot) : Bool :=
  match nav.cold.getTip with
  | some tip => s.record.hash == tip.record.hash && s.id == tip.id && s.record.height == tip.record.height
  | none => false

/-- The active successor of a hot block: by height when it extends the block, else by the hash
path, else by height again. -/
def nextHot (current : Snapshot) : Option Snapshot :=
  let byHeight := (nav.hot.getActiveByHeight (current.record.height + 1)).filter fun next =>
    next.record.hashPrev = current.record.hash
  let first := if current.fInMainChain then byHeight else none
  (first.or (nav.hot.getNextActive current)).or byHeight

/-- `GetNextActiveFromSnapshotR`. -/
def getNextActiveFromSnapshotR (current : SeamSnapshot) : SeamResult SeamSnapshot :=
  match current.ref with
  | .cold .. =>
    if !current.snapshot.fInMainChain then .endOfActiveChain
    else if !nav.isAtColdTip current.snapshot then
      match nav.cold.getNextActive current.snapshot.id with
      | .found next => makeCold next
      | .notFound => .endOfActiveChain
      | .failed => .authorityFailure
    else if !nav.verifySeam then .authorityFailure
    else
      match nav.hot.getActiveByHeight (current.snapshot.record.height + 1) with
      | none => .endOfActiveChain
      | some next => if next.record.hashPrev ≠ current.snapshot.record.hash then .authorityFailure else makeHot next
  | .hot _ =>
    match nav.nextHot current.snapshot with
    | none => .endOfActiveChain
    | some next =>
      if next.fInMainChain ∧ next.record.height ≤ nav.coldTipHeight then
        match nav.cold.getActiveByHeight next.record.height with
        | .found s => if s.record.hash ≠ next.record.hash then .authorityFailure else makeCold s
        | _ => .authorityFailure
      else makeHot next

/-! ## The last generated modifier -/

/-- The parent walk of `GetLastStakeModifierR`; `none` when `fuel` steps do not end it. -/
def lastModifierFrom : Nat → SeamSnapshot → Option (SeamResult (Nat × Nat))
  | 0, _ => none
  | fuel + 1, cur =>
    if cur.snapshot.record.generatedStakeModifier then
      some (.ok (cur.snapshot.record.nStakeModifier, cur.snapshot.record.nTime))
    else if !cur.snapshot.hasParent then some .notFound
    else
      match nav.getParentR cur.ref with
      | .ok parent => lastModifierFrom fuel parent
      | .notFound => some .notFound
      | .endOfActiveChain => some .endOfActiveChain
      | .authorityFailure => some .authorityFailure

/-- `GetLastStakeModifierR`. -/
def getLastStakeModifierR (fuel : Nat) (start : Hash) : Option (SeamResult (Nat × Nat)) :=
  match nav.resolveLogicalR start with
  | .ok cur => nav.lastModifierFrom fuel cur
  | .notFound => some .notFound
  | .endOfActiveChain => some .endOfActiveChain
  | .authorityFailure => some .authorityFailure

/-! ## The kernel modifier of a branch -/

/-- What `GetKernelStakeModifier` hands back: the modifier, its height and its time. -/
structure KernelModifier where
  modifier : Nat
  height : Int
  time : Nat
deriving DecidableEq

def KernelModifier.ofRecord (b : Record) : KernelModifier := ⟨b.nStakeModifier, b.height, b.nTime⟩

/-- The forward walk along the active chain. `runHeight` and `runTime` belong to the last generated
modifier met; the walk stops at the branch tip. The result is `none` when the walk ends without
reaching the target time. -/
def walkActive (tip : Snapshot) (target : Nat) : Nat → SeamSnapshot → Int → Nat →
    Option (SeamResult (Option KernelModifier))
  | 0, _, _, _ => none
  | fuel + 1, cur, runHeight, runTime =>
    if target ≤ runTime ∨ tip.record.height ≤ cur.snapshot.record.height then some (.ok none)
    else
      match nav.getNextActiveFromSnapshotR cur with
      | .authorityFailure => some .authorityFailure
      | .ok next =>
        let b := next.snapshot.record
        let run := if b.generatedStakeModifier then (b.height, b.nTime) else (runHeight, runTime)
        if target ≤ run.2 then some (.ok (some ⟨b.nStakeModifier, run.1, run.2⟩))
        else walkActive tip target fuel next run.1 run.2
      | _ => some (.ok none)

/-- The backward walk of the side-branch path: it ends at the source, with the lowest block above
it that generated a modifier at or after the target time. -/
def walkBranch (source : Snapshot) (target : Nat) : Nat → SeamSnapshot → Option Snapshot →
    Option (SeamResult (Option Snapshot))
  | 0, _, _ => none
  | fuel + 1, cur, best =>
    let b := cur.snapshot.record
    if b.hash = source.record.hash ∧ b.height = source.record.height then some (.ok best)
    else if !cur.snapshot.hasParent then some .notFound
    else
      let best := if b.generatedStakeModifier ∧ target ≤ b.nTime then some cur.snapshot else best
      match nav.getParentR cur.ref with
      | .ok parent => walkBranch source target fuel parent best
      | .notFound => some .notFound
      | .endOfActiveChain => some .endOfActiveChain
      | .authorityFailure => some .authorityFailure

/-- When no block generated a modifier in time, the tip's own one counts if the tip is late enough. -/
def tipModifier (tip : Snapshot) (target : Nat) : SeamResult KernelModifier :=
  if target ≤ tip.record.nTime then .ok (.ofRecord tip.record) else .notFound

/-- `GetKernelStakeModifierR` with a branch tip, `none` when `fuel` steps do not end its walk. -/
def getKernelStakeModifierR (fuel : Nat) (source branchTip : Hash) : Option (SeamResult KernelModifier) :=
  match nav.resolveLogicalR source, nav.resolveLogicalR branchTip with
  | .ok src, .ok tip =>
    let target := src.snapshot.record.nTime + selectionInterval
    if src.snapshot.fInMainChain ∧ tip.snapshot.fInMainChain ∧
      src.snapshot.record.height ≤ tip.snapshot.record.height then
      (nav.walkActive tip.snapshot target fuel src src.snapshot.record.height src.snapshot.record.nTime).map
        fun walked =>
        walked.bind fun hit =>
          match hit with
          | some found => .ok found
          | none => tipModifier tip.snapshot target
    else
      (nav.walkBranch src.snapshot target fuel tip none).map fun walked =>
        walked.bind fun best =>
          match best with
          | some s => .ok (.ofRecord s.record)
          | none => tipModifier tip.snapshot target
  | .ok _, .notFound => some .notFound
  | .ok _, .endOfActiveChain => some .endOfActiveChain
  | .ok _, .authorityFailure => some .authorityFailure
  | .notFound, _ => some .notFound
  | .endOfActiveChain, _ => some .endOfActiveChain
  | .authorityFailure, _ => some .authorityFailure

end Navigator
end Innova.Kernel
