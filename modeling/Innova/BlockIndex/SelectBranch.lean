import Innova.BlockIndex.ReorgFrame
import Innova.BlockIndex.TailTree

/-! The choice of a branch after an operator's intent: `SelectBestEligibleBranch`
(`blockindex_tip.cpp`) scans the records above a fork height, and `SelectAttachedBranch`
(`main.cpp`) lowers the fork to where the chosen branch leaves the active chain. -/
namespace Innova.BlockIndex
open Lib Chainstate Kernel

/-! ## The scan -/

/-- `StreamVisit` over the first entries as the file holds them. A visitor that stops is no failure. -/
def streamVisit {α σ : Type} (f : SlotFile α) (visit : σ → Nat → α → σ × Bool) : (left slot : Nat) → σ → Except String σ
  | 0, _, s => .ok s
  | left + 1, slot, s =>
    match f.read slot with
    | none => .error ("short sequential read of store slot " ++ toString slot)
    | some v =>
      match visit s slot v with
      | (s, true) => streamVisit f visit left (slot + 1) s
      | (s, false) => .ok s

/-- The window's text for a slot it cannot read. -/
def unreadable (slot : Nat) : String := "short positional read of store slot " ++ toString slot

namespace Tip
variable (t : Tip)

/-- The slot the side index gives for a hash, if it lies in the records store. -/
def sideSlot (h : Hash) : Option Nat := ((t.disk.index h).bind t.tipMeta.slotOf).filter (· < t.recordsWin.count)

/-- The pending intent overrides the committed set. -/
def effectivelyInvalid (pendingHash : Hash) (pendingInvalidate : Bool) (h : Hash) : Bool :=
  if h = pendingHash then pendingInvalidate else t.isOperatorInvalid h

/-- The ancestors of a candidate, `left` of them above the fork-adjacent height, from `cur` down. -/
def ancestryOpen (invalid : Hash → Bool) (forkHeight : Int) : (left : Nat) → (cur : Hash) → Bool
  | 0, _ => true
  | left + 1, cur =>
    if invalid cur then false
    else
      match (t.sideSlot cur).bind t.record? with
      | none => false
      | some p =>
        -- inconsistent linkage
        if p.height + 1 ≠ forkHeight + 1 + (left + 1) then false else ancestryOpen invalid forkHeight left p.hashPrev

/-- The visitor of the scan, on the best slot so far. -/
def considerRecord (invalid : Hash → Bool) (forkHeight : Int) (best : Option Nat) (slot : Nat)
    (rec : Record) : Option Nat × Bool :=
  if rec.height ≤ forkHeight then (best, true)
  else if invalid rec.hash then (best, true)
  else if !t.ancestryOpen invalid forkHeight (rec.height - (forkHeight + 1)).toNat rec.hashPrev then (best, true)
  else
    match best with
    | none => (some slot, true)
    | some bestJ =>
      match t.derived? slot, t.derived? bestJ, t.record? bestJ with
      | some curD, some bestD, some bestR =>
        if bestD.chainTrust < curD.chainTrust ∨
            (curD.chainTrust = bestD.chainTrust ∧ hashValue rec.hash < hashValue bestR.hash) then (some slot, true)
        else (some bestJ, true)
      -- a failed read stops the scan, and the selection goes on with what it has
      | _, _, _ => (some bestJ, false)

/-- The slots from a block down to the fork-adjacent one. The scan has found each parent one height
lower, so the walk takes as many turns as the block lies above it. -/
def walkBranch (forkHeight : Int) : (turns slot : Nat) → Record → Except String (List Nat)
  | 0, slot, _ => .ok [slot]
  | turns + 1, slot, cur =>
    if cur.height ≤ forkHeight + 1 then .ok [slot]
    else
      match t.sideSlot cur.hashPrev with
      | none => .error "branch walk lost parent below tip window"
      | some ancSlot =>
        match t.record? ancSlot with
        | none => .error (unreadable ancSlot)
        | some p => (walkBranch forkHeight turns ancSlot p).map (slot :: ·)

def readAppend (slot : Nat) : Except String Append :=
  match t.record? slot, t.derived? slot with
  | some r, some d => .ok ⟨r, d⟩
  | _, _ => .error (unreadable slot)

/-- `SelectBestEligibleBranch`: the branch and its heights, both empty when nothing is eligible. -/
def selectBestEligibleBranch (forkHeight : Int) (pendingHash : Hash) (pendingInvalidate : Bool) :
    Except String (List Append × List Int) :=
  match streamVisit t.disk.records (t.considerRecord (t.effectivelyInvalid pendingHash pendingInvalidate) forkHeight)
      t.recordsWin.count 0 none with
  | .error e => .error e
  | .ok none => .ok ([], [])
  | .ok (some bestJ) =>
    match t.record? bestJ with
    | none => .error (unreadable bestJ)
    | some bestR =>
      match t.walkBranch forkHeight (bestR.height - (forkHeight + 1)).toNat bestJ bestR with
      | .error e => .error e
      | .ok slots => (slots.reverse.mapM t.readAppend).map fun branch => (branch, branch.map (·.record.height))

/-! ## The fork -/

/-- Behind the loop: the branch has to hang on the base tip itself. -/
def attachToBase (base h : Int) (parent : Hash) : Except String Int :=
  if h ≠ base then .error "branch does not attach above the immutable base tip"
  else if t.baseTipHash ≠ ByteArr.zero 32 ∧ parent ≠ t.baseTipHash then
    .error "branch does not attach to the immutable base tip"
  else .ok base

/-- The loop of `LowerForkToBranchAttachment` from a parent at height `h`, which falls at every turn. -/
def attachmentFork (base : Int) : (turns : Nat) → (h : Int) → (parent : Hash) → Except String Int
  | 0, h, parent => t.attachToBase base h parent
  | turns + 1, h, parent =>
    if h ≤ base then t.attachToBase base h parent
    else if t.hashAt h = some parent then .ok h
    else
      match t.lookupByHash parent with
      | .error _ => .error "branch ancestry is not resolvable above the base tip"
      | .ok pr =>
        if h ≤ pr.height - 1 then .error "branch ancestry is not resolvable above the base tip"
        else attachmentFork base turns (pr.height - 1) pr.record.hashPrev

/-- `LowerForkToBranchAttachment`: the fork height the branch attaches at. -/
def lowerForkToBranchAttachment (base fork : Int) (branch : List Append) : Except String Int :=
  match branch with
  | [] => .ok fork
  | front :: _ =>
    t.attachmentFork base (front.record.height - 1 - base).toNat (front.record.height - 1) front.record.hashPrev

/-- What `SelectAttachedBranch` hands to the commit. -/
structure Selection where
  fork : Int
  branch : List Append
  heights : List Int

/-- `SelectAttachedBranch`. -/
def selectAttachedBranch (base fork : Int) (pendingHash : Hash) (pendingInvalidate : Bool) : Except String Selection :=
  match t.selectBestEligibleBranch fork pendingHash pendingInvalidate with
  | .error e => .error e
  | .ok ([], heights) => .ok ⟨fork, [], heights⟩
  | .ok (branch, heights) =>
    match t.lowerForkToBranchAttachment base fork branch with
    | .error e => .error e
    | .ok attach =>
      if attach = fork then .ok ⟨fork, branch, heights⟩
      else
        match t.selectBestEligibleBranch attach pendingHash pendingInvalidate with
        | .error e => .error e
        | .ok (branch, heights) =>
          if branch ≠ [] ∧ t.lowerForkToBranchAttachment base attach branch ≠ .ok attach then
            .error "re-selected branch is not attached to the lowered fork"
          else .ok ⟨attach, branch, heights⟩

end Tip

/-! ## Tips that hold a tail -/

/-- The stores, their windows and the side index are those of a tail, and nothing is buffered. An
index entry past the records is residue of an unfinished call. -/
structure Tip.Stores (t : Tip) (c : Tail) : Prop where
  pend : t.pend = []
  baseHeight : t.tipMeta.baseTipHeight = c.baseHeight
  baseHash : t.baseTipHash = c.baseHash
  tipHeight : t.tipMeta.tipHeight = c.tipHeight
  count : t.tipMeta.tipRecordCount = c.blocks.length
  records : t.recordsWin.Serves t.disk.records (c.blocks.map (·.record))
  derived : t.derivedWin.Serves t.disk.derived (c.blocks.map (·.derived))
  active : t.activeWin.Serves t.disk.active (c.active.map t.tipMeta.idOf)
  index : ∀ h, t.sideSlot h = c.find h

/-- The records and the side index are those of a tail, whose blocks have different hashes. -/
structure Tip.Indexes (t : Tip) (c : Tail) : Prop where
  named : (c.blocks.map (·.record.hash)).Nodup
  records : t.recordsWin.Serves t.disk.records (c.blocks.map (·.record))
  derived : t.derivedWin.Serves t.disk.derived (c.blocks.map (·.derived))
  index : ∀ h, t.sideSlot h = c.find h

structure Tip.Holds (t : Tip) (c : Tail) : Prop extends t.Stores c where
  invalid : ∀ h, t.isOperatorInvalid h = c.invalid h

namespace Tip
variable {t : Tip} {c : Tail} {b x : Append} {f : Int}

theorem Stores.mark (stores : t.Stores c) (h : Hash) (invalidate : Bool) : t.Stores (c.mark h invalidate) :=
  { stores with }

theorem Holds.effectivelyInvalid (holds : t.Holds c) (h : Hash) (invalidate : Bool) :
    t.effectivelyInvalid h invalidate = (c.mark h invalidate).invalid := by
  funext k
  rw [Tip.effectivelyInvalid, holds.invalid]
  rfl

section Indexes
variable (indexes : t.Indexes c)
include indexes

private theorem Indexes.record? (slot : Nat) : t.record? slot = (c.blocks[slot]?).map (·.record) := by
  rw [Tip.record?, indexes.records.get, List.getElem?_map]

private theorem Indexes.derived? (slot : Nat) : t.derived? slot = (c.blocks[slot]?).map (·.derived) := by
  rw [Tip.derived?, indexes.derived.get, List.getElem?_map]

private theorem Indexes.readAppend (stored : c.blocks[place]? = some b) : t.readAppend place = .ok b := by
  rw [Tip.readAppend, indexes.record?, indexes.derived?, stored]
  rfl

/-- Looking a hash up in the side index finds its block. -/
theorem Indexes.resolve (h : Hash) :
    (t.sideSlot h).bind t.record? = ((c.find h).bind fun place => c.blocks[place]?).map (·.record) := by
  rw [indexes.index]
  cases c.find h with
  | none => rfl
  | some place => exact indexes.record? place

private theorem Indexes.resolve_some (found : (t.sideSlot h).bind t.record? = some p) :
    ∃ b ∈ c.blocks, b.record = p ∧ b.record.hash = h := by
  rw [indexes.resolve, Option.map_eq_some_iff] at found
  obtain ⟨b, found, rfl⟩ := found
  obtain ⟨place, isPlace, stored⟩ := Option.bind_eq_some_iff.mp found
  obtain ⟨b', stored', same⟩ := Tail.find_some isPlace
  obtain rfl : b' = b := Option.mem_unique stored' stored
  exact ⟨b', List.mem_of_getElem? stored, rfl, same⟩

private theorem Indexes.resolve_mem (mem : b ∈ c.blocks) :
    (t.sideSlot b.record.hash).bind t.record? = some b.record := by
  obtain ⟨place, found, stored⟩ := Tail.find_mem indexes.named mem
  rw [indexes.resolve, found, Option.bind_some, stored, Option.map_some]

/-! ## What the scan accepts -/

/-- The ancestry check accepts a block exactly when it is open above the fork. -/
theorem Indexes.ancestryOpen_iff {left : Nat} (mem : b ∈ c.blocks) (height : b.record.height = f + 1 + left) :
    (c.invalid b.record.hash = false ∧ t.ancestryOpen c.invalid f left b.record.hashPrev = true) ↔ c.Unbroken f b := by
  induction left generalizing b with
  | zero =>
    constructor
    · rintro ⟨valid, -⟩
      exact .first mem valid (by omega)
    · intro isOpen
      exact ⟨TailTree.valid_of_open isOpen.isOpen, rfl⟩
  | succ left ih =>
    constructor
    · rintro ⟨valid, ancestry⟩
      rw [Tip.ancestryOpen] at ancestry
      split at ancestry
      · cases ancestry
      next parentValid =>
      split at ancestry
      · cases ancestry
      next p found =>
      obtain ⟨parent, memP, rfl, named⟩ := indexes.resolve_some found
      split at ancestry
      · cases ancestry
      refine .next valid ⟨mem, memP, named.symm⟩ (by omega) ((ih memP (by omega)).mp ⟨?_, ancestry⟩)
      rw [named]
      simpa using parentValid
    · intro isOpen
      refine ⟨TailTree.valid_of_open isOpen.isOpen, ?_⟩
      cases isOpen with
      | first _ _ lowest => omega
      | @next _ p _ names above parent =>
        obtain ⟨parentValid, ancestry⟩ := (ih names.2.1 (by omega)).mpr parent
        have consistent : p.record.height + 1 = f + 1 + (left + 1) := by omega
        rw [Tip.ancestryOpen, names.2.2, parentValid, indexes.resolve_mem names.2.1]
        simp [consistent, ancestry]

end Indexes

/-- The best slot after the first `k` records. -/
def Leads (c : Tail) (f : Int) (k : Nat) : Option Nat → Prop
  | none => ∀ place b, place < k → c.blocks[place]? = some b → ¬ c.Unbroken f b
  | some j =>
    ∃ x, c.blocks[j]? = some x ∧ c.Unbroken f x ∧ ∀ place b, place < k → c.blocks[place]? = some b →
      c.Unbroken f b → ¬ Beats b x

/-- What holds for the first `k` records and for the next one. -/
theorem forall_succ {Q : Append → Prop} (stored : c.blocks[k]? = some b)
    (before : ∀ place y, place < k → c.blocks[place]? = some y → Q y) (here : Q b) :
    ∀ place y, place < k + 1 → c.blocks[place]? = some y → Q y := by
  intro place y inside at_
  by_cases old : place < k
  · exact before place y old at_
  · obtain rfl : place = k := by omega
    obtain rfl : y = b := Option.mem_unique at_ stored
    exact here

/-- A record that is not open changes nothing. -/
theorem Leads.skip (leads : Leads c f k best) (stored : c.blocks[k]? = some b) (closed : ¬ c.Unbroken f b) :
    Leads c f (k + 1) best := by
  cases best with
  | none => exact forall_succ stored leads closed
  | some j =>
    obtain ⟨x, atX, openX, unbeaten⟩ := leads
    exact ⟨x, atX, openX, forall_succ stored unbeaten fun isOpen => absurd isOpen closed⟩

/-- An open record that the leader does not beat takes its place. -/
theorem Leads.replace {best : Option Nat} (leads : Leads c f k best) (stored : c.blocks[k]? = some b)
    (isOpen : c.Unbroken f b) (ahead : ∀ j x, best = some j → c.blocks[j]? = some x → Beats b x) :
    Leads c f (k + 1) (some k) := by
  refine ⟨b, stored, isOpen, forall_succ stored (fun place y old at_ openY beats => ?_) fun _ beats => ?_⟩
  · cases best with
    | none => exact leads place y old at_ openY
    | some j =>
      obtain ⟨x, atX, -, unbeaten⟩ := leads
      have lead := ahead j x rfl atX
      have behind := unbeaten place y old at_ openY
      unfold Beats at lead behind beats
      omega
  · unfold Beats at beats
    omega

private theorem Leads.stay (leads : Leads c f k (some j)) (stored : c.blocks[k]? = some b)
    (behind : ∀ x, c.blocks[j]? = some x → ¬ Beats b x) : Leads c f (k + 1) (some j) := by
  obtain ⟨x, atX, openX, unbeaten⟩ := leads
  exact ⟨x, atX, openX, forall_succ stored unbeaten fun _ => behind x atX⟩

section Indexes
variable (indexes : t.Indexes c)
include indexes

private theorem Indexes.considerRecord (leads : Leads c f k best) (stored : c.blocks[k]? = some b) :
    ∃ best', t.considerRecord c.invalid f best k b.record = (best', true) ∧ Leads c f (k + 1) best' := by
  have mem := List.mem_of_getElem? stored
  unfold Tip.considerRecord
  by_cases low : b.record.height ≤ f
  · rw [if_pos low]
    exact ⟨best, rfl, leads.skip stored fun isOpen => absurd (isOpen.height) (by omega)⟩
  rw [if_neg low]
  have height : b.record.height = f + 1 + (b.record.height - (f + 1)).toNat := by omega
  have accepts := indexes.ancestryOpen_iff mem height
  cases invalid : c.invalid b.record.hash with
  | true =>
    refine ⟨best, rfl, leads.skip stored fun isOpen => ?_⟩
    rw [TailTree.valid_of_open isOpen.isOpen] at invalid
    cases invalid
  | false =>
    cases ancestry : t.ancestryOpen c.invalid f (b.record.height - (f + 1)).toNat b.record.hashPrev with
    | false =>
      refine ⟨best, rfl, leads.skip stored fun isOpen => ?_⟩
      rw [(accepts.mpr isOpen).2] at ancestry
      cases ancestry
    | true =>
      have isOpen := accepts.mp ⟨invalid, ancestry⟩
      cases best with
      | none => exact ⟨some k, rfl, leads.replace stored isOpen (by simp)⟩
      | some j =>
        have ⟨x, atX, _⟩ := leads
        have reads : t.derived? k = some b.derived ∧ t.derived? j = some x.derived ∧ t.record? j = some x.record := by
          rw [indexes.derived?, indexes.derived?, indexes.record?, stored, atX]
          exact ⟨rfl, rfl, rfl⟩
        simp only [reads.1, reads.2.1, reads.2.2, Bool.false_eq_true, if_false, Bool.not_true]
        by_cases beats : Beats b x
        · refine ⟨some k, if_pos beats, leads.replace stored isOpen fun j' x' same at_ => ?_⟩
          cases same
          obtain rfl : x' = x := Option.mem_unique at_ atX
          exact beats
        · refine ⟨some j, if_neg beats, leads.stay stored fun x' at_ => ?_⟩
          obtain rfl : x' = x := Option.mem_unique at_ atX
          exact beats

/-- The scan ends with the first choice. -/
theorem Indexes.streamVisit (leads : Leads c f k best) (total : k + left = c.blocks.length) :
    ∃ best', BlockIndex.streamVisit t.disk.records (t.considerRecord c.invalid f) left k best = .ok best' ∧
      Leads c f c.blocks.length best' := by
  induction left generalizing k best with
  | zero =>
    obtain rfl : k = c.blocks.length := by omega
    exact ⟨best, rfl, leads⟩
  | succ left ih =>
    have stored : c.blocks[k]? = some c.blocks[k] := List.getElem?_eq_getElem (by omega)
    have read : t.disk.records.read k = some c.blocks[k].record :=
      indexes.records.file k _ (by rw [List.getElem?_map, stored, Option.map_some])
    obtain ⟨next, considered, leads'⟩ := indexes.considerRecord leads stored
    obtain ⟨best', visited, found⟩ := ih leads' (by omega)
    refine ⟨best', ?_, found⟩
    rw [BlockIndex.streamVisit, read]
    simp only [considered]
    exact visited

/-! ## The branch of the first choice -/

/-- The walk down from an open block, and the branch it reads. -/
theorem Indexes.walkBranch {turns place : Nat} (isOpen : c.Unbroken f b) (stored : c.blocks[place]? = some b)
    (height : b.record.height = f + 1 + turns) : ∃ slots branch, t.walkBranch f turns place b.record = .ok slots ∧
      slots.reverse.mapM t.readAppend = .ok branch ∧ c.Runs f branch ∧ branch.getLast? = some b ∧
        branch.length = turns + 1 := by
  induction turns generalizing b place with
  | zero =>
    refine ⟨[place], [b], rfl, ?_,
      ⟨by simpa using TailTree.mem_of_open isOpen.isOpen, by simpa using TailTree.valid_of_open isOpen.isOpen, ?_, ?_⟩,
      rfl, rfl⟩
    · simp [indexes.readAppend stored]
    · intro i b' at_
      rw [List.getElem?_singleton] at at_
      split at at_
      · cases at_
        omega
      · cases at_
    · intro i a' b' _ at_
      simp at at_
  | succ turns ih =>
    cases isOpen with
    | first _ _ lowest => omega
    | @next _ p valid names above parent =>
      obtain ⟨placeP, foundP, storedP⟩ := Tail.find_mem indexes.named names.2.1
      obtain ⟨slots, branch, walked, read, runs, last, length⟩ := ih parent storedP (by omega)
      refine ⟨place :: slots, branch ++ [b], ?_, ?_, ?_, by simp, by simp [length]⟩
      · have recordP : t.record? placeP = some p.record := by rw [indexes.record?, storedP, Option.map_some]
        rw [Tip.walkBranch, if_neg (by omega), names.2.2, indexes.index, foundP]
        simp only [recordP, walked]
        rfl
      · rw [List.reverse_cons, List.mapM_append, read]
        simp [indexes.readAppend stored, bind, Except.bind, pure, Except.pure]
      · exact TailTree.runs_snoc runs names valid last (by omega)

/-- The selection returns the branch of the first choice above the fork. -/
theorem Indexes.select (effective : t.effectivelyInvalid h invalidate = c.invalid) :
    ∃ branch, t.selectBestEligibleBranch f h invalidate = .ok (branch, branch.map (·.record.height)) ∧
      c.Chooses f branch := by
  have start : Leads c f 0 none := fun place b inside => absurd inside (Nat.not_lt_zero place)
  have count : t.recordsWin.count = c.blocks.length := by rw [indexes.records.count, List.length_map]
  obtain ⟨best, visited, leads⟩ := indexes.streamVisit start (Nat.zero_add _)
  unfold Tip.selectBestEligibleBranch
  rw [effective, count, visited]
  cases best with
  | none =>
    refine ⟨[], rfl, .inl ⟨rfl, fun x isOpen => ?_⟩⟩
    obtain ⟨place, stored⟩ := List.getElem?_of_mem (TailTree.mem_of_open isOpen.isOpen)
    exact leads place x (List.getElem?_eq_some_iff.mp stored).1 stored isOpen
  | some j =>
    obtain ⟨x, stored, isOpen, unbeaten⟩ := leads
    have above := isOpen.height
    obtain ⟨slots, branch, walked, read, runs, last, -⟩ := indexes.walkBranch isOpen stored
      (show x.record.height = f + 1 + (x.record.height - (f + 1)).toNat by omega)
    refine ⟨branch, ?_, .inr ⟨x, ⟨isOpen, fun y openY => ?_⟩, last, runs⟩⟩
    · have record : t.record? j = some x.record := by rw [indexes.record?, stored, Option.map_some]
      simp only [record, walked, read]
      rfl
    · obtain ⟨place, storedY⟩ := List.getElem?_of_mem (TailTree.mem_of_open openY.isOpen)
      exact unbeaten place y (List.getElem?_eq_some_iff.mp storedY).1 storedY openY

/-- The records may be any, as long as the side index finds them: the branch returned is the one up to
the first choice, with the pending intent in place of what the operator said before. -/
theorem selectBestEligibleBranch_chooses (f : Int) (h : Hash) (invalidate : Bool) :
    ∃ branch, t.selectBestEligibleBranch f h invalidate = .ok (branch, branch.map (·.record.height)) ∧
      { c with invalid := t.effectivelyInvalid h invalidate : Tail }.Chooses f branch :=
  Indexes.select (c := { c with invalid := t.effectivelyInvalid h invalidate }) { indexes with } rfl

end Indexes

end Tip

namespace Sibling

/-- An active chain of two blocks over the base of height 10 and a sibling of the first one. -/
def first : Append := { plainBlock 2 1 11 with derived := { chainTrust := 2 } }

def second : Append := { plainBlock 3 2 12 with derived := { chainTrust := 4 } }

def sibling (trust : Nat) : Append := { plainBlock 4 1 11 with derived := { chainTrust := trust } }

def tree (trust : Nat) : TailTree where
  baseHeight := 10
  baseHash := shortHash 1
  blocks := [first, second, sibling trust]
  active := [0, 1]
  invalid := fun _ => false
  named := show [shortHash 2, shortHash 3, shortHash 4].Nodup by decide
  known := by decide
  above := by simp [first, second, sibling, plainBlock]
  rooted := by simp [first, second, sibling, plainBlock, shortHash]
  grown := by
    rintro b p ⟨memB, memP, named⟩
    simp only [List.mem_cons, List.not_mem_nil, or_false] at memB memP
    rcases memB with rfl | rfl | rfl <;> rcases memP with rfl | rfl | rfl <;>
      simp_all [first, second, sibling, plainBlock, shortHash]
  chained := by
    intro rel inside
    rcases rel with _ | _ | rel
    · exact ⟨first, rfl, rfl, rfl⟩
    · exact ⟨second, rfl, rfl, rfl⟩
    · exact absurd inside (by simp)

def tip (trust : Nat) : Tip :=
  { freshTip with
    disk :=
      { freshTip.disk with
        records := .whole ((tree trust).blocks.map (some ·.record))
        derived := .whole ((tree trust).blocks.map (some ·.derived))
        active := .whole [some 1, some 2]
        index := fun h => ((tree trust).find h).map freshTip.tipMeta.idOf }
    tipMeta := { freshTip.tipMeta with tipHeight := 12, tipHash := shortHash 3, tipRecordCount := 3 }
    recordsWin := .setCount 3
    derivedWin := .setCount 3
    activeWin := .setCount 2 }

theorem indexes (trust : Nat) : (tip trust).Indexes (tree trust).toTail where
  named := (tree trust).named
  records := Window.serves_setCount (SlotFile.holds_whole ((tree trust).blocks.map Append.record) [])
  derived := Window.serves_setCount (SlotFile.holds_whole ((tree trust).blocks.map Append.derived) [])
  index := by
    intro h
    change (((((tree trust).find h).map freshTip.tipMeta.idOf).bind freshTip.tipMeta.slotOf).filter (· < 3)) =
      (tree trust).find h
    cases found : (tree trust).find h with
    | none => rfl
    | some place =>
      obtain ⟨b, stored, -⟩ := Tail.find_some found
      have inside : place < 3 := (List.getElem?_eq_some_iff.mp stored).1
      rw [Option.map_some, Option.bind_some, slotOf_idOf]
      simp [inside]

end Sibling

open Sibling in
/-- With the second block about to become invalid the sibling is chosen, which has more trust than the
first block. -/
theorem selectBestEligibleBranch_chooses_sibling :
    ∃ branch, (tip 3).selectBestEligibleBranch 10 (shortHash 3) true = .ok (branch, branch.map (·.record.height)) ∧
      branch.map (·.record.hash) = [shortHash 4] ∧
      { (tree 3).toTail with invalid := (tip 3).effectivelyInvalid (shortHash 3) true : Tail }.Chooses 10 branch := by
  obtain ⟨branch, ran, chooses⟩ := Tip.selectBestEligibleBranch_chooses (indexes 3) 10 (shortHash 3) true
  have hashes : ((tip 3).selectBestEligibleBranch 10 (shortHash 3) true).toOption.map
      (fun x => x.1.map (·.record.hash)) = some [shortHash 4] := by decide +kernel
  rw [ran] at hashes
  exact ⟨branch, ran, Option.some.inj hashes, chooses⟩

namespace Tip
variable {t : Tip} {b x : Append} {f : Int}

/-! ## Where a branch attaches -/

section Stores
variable {c : TailTree} (stores : t.Stores c.toTail)
include stores

private theorem Stores.indexes : t.Indexes c.toTail := { stores with named := c.named }

private theorem Stores.record? (slot : Nat) : t.record? slot = (c.blocks[slot]?).map (·.record) :=
  stores.indexes.record? slot

private theorem Stores.derived? (slot : Nat) : t.derived? slot = (c.blocks[slot]?).map (·.derived) :=
  stores.indexes.derived? slot

private theorem Stores.select (effective : t.effectivelyInvalid h invalidate = c.invalid) :
    ∃ branch, t.selectBestEligibleBranch f h invalidate = .ok (branch, branch.map (·.record.height)) ∧
      c.Selects f branch := by
  obtain ⟨branch, selected, chooses⟩ := stores.indexes.select effective
  refine ⟨branch, selected, ?_⟩
  rcases chooses with ⟨empty, none⟩ | ⟨x, ⟨isOpen, unbeaten⟩, ends⟩
  · exact .inl ⟨empty, fun x isOpen => none x (TailTree.unbroken isOpen)⟩
  · exact .inr ⟨x, ⟨isOpen.isOpen, fun y openY => unbeaten y (TailTree.unbroken openY)⟩, ends⟩

private theorem Stores.active? (rel : Nat) : t.active? rel = (c.active[rel]?).map t.tipMeta.idOf := by
  rw [Tip.active?, stores.active.get, List.getElem?_map]

/-- The active heights resolve to the active blocks. -/
theorem Stores.hashAt_iff : t.hashAt h = some k ↔
    ∃ (rel : Nat) (b : Append), h = c.baseHeight + 1 + rel ∧ c.activeAt rel = some b ∧ b.record.hash = k := by
  rw [Tip.hashAt_some]
  constructor
  · rintro ⟨rel, id, slot, r, d, place, inside, active, slotted, stored, record, derived, same⟩
    rw [stores.active?] at active
    obtain ⟨place', isPlace, rfl⟩ := Option.map_eq_some_iff.mp active
    rw [slotOf_idOf] at slotted
    cases slotted
    rw [stores.record?, Option.map_eq_some_iff] at record
    obtain ⟨b, storedB, rfl⟩ := record
    exact ⟨rel, b, by rw [place, stores.baseHeight], by rw [Tail.activeAt, isPlace, Option.bind_some, storedB], same⟩
  · rintro ⟨rel, b, rfl, at_, rfl⟩
    obtain ⟨place, isPlace, stored⟩ := Option.bind_eq_some_iff.mp at_
    have active : t.active? rel = some (t.tipMeta.idOf place) := by rw [stores.active?, isPlace, Option.map_some]
    have inside := (List.getElem?_eq_some_iff.mp stored).1
    refine ⟨rel, _, place, b.record,
      b.derived, by rw [stores.baseHeight], Window.lt_of_get active, active, slotOf_idOf _ _, ?_, ?_, ?_, rfl⟩
    · rw [stores.records.count, List.length_map]
      exact inside
    · rw [stores.record?, stored, Option.map_some]
    · rw [stores.derived?, stored, Option.map_some]

/-- A hash the stores answer for is that of a block. -/
theorem Stores.lookup_some {read : Read} (found : t.lookupByHash k = .ok read) :
    ∃ b ∈ c.blocks, b.record = read.record ∧ b.record.hash = k ∧ read.height = b.record.height := by
  have durable : t.lookupDurable k = .ok read := by
    rw [← found, Tip.lookupByHash, Tip.pending?, stores.pend]
    rfl
  obtain ⟨id, slot, -, -, -, -, record, -, same, -, height⟩ := Tip.lookupDurable_ok.mp durable
  rw [stores.record?, Option.map_eq_some_iff] at record
  obtain ⟨b, stored, isRecord⟩ := record
  exact ⟨b, List.mem_of_getElem? stored, isRecord, by rw [isRecord]; exact same, by rw [isRecord]; exact height⟩

private theorem Stores.attachToBase (within : h ≤ floor) (descends : c.Descends x a)
    (clear : ∀ b, c.Active b → c.Descends x b → b.record.height ≤ floor → b.record.height ≤ h)
    (ok : t.attachToBase c.baseHeight h a.record.hashPrev = .ok g) : c.MeetsAt floor x g := by
  rw [Tip.attachToBase, stores.baseHash] at ok
  split at ok
  · cases ok
  next atBase =>
  split at ok
  · cases ok
  next hangs =>
  cases ok
  have parent : a.record.hashPrev = c.baseHash := by
    by_contra other
    exact hangs ⟨c.known, other⟩
  obtain rfl : h = c.baseHeight := by simpa using atBase
  exact ⟨within, .inl ⟨rfl, a, descends, parent⟩, clear⟩

private theorem Stores.activeCount : t.activeWin.count = c.active.length := by rw [stores.active.count, List.length_map]

private theorem Stores.activeFlag (stored : c.blocks[place]? = some b) :
    t.activeFlag (t.tipMeta.idOf place) b.record = .ok (decide (place ∈ c.active)) := by
  have above := c.above b (List.mem_of_getElem? stored)
  have member : place ∈ c.active ↔ c.active[(b.record.height - c.baseHeight - 1).toNat]? = some place := by
    refine ⟨fun member => ?_, List.mem_of_getElem?⟩
    obtain ⟨rel, active⟩ := List.getElem?_of_mem member
    have := TailTree.height_active active stored
    rwa [show (b.record.height - c.baseHeight - 1).toNat = rel by omega]
  rw [Tip.activeFlag, stores.baseHeight, stores.activeCount, stores.active?]
  generalize (b.record.height - c.baseHeight - 1).toNat = rel at member
  split
  · next covered => simp [member, List.getElem?_eq_getElem covered.2, idOf_beq]
  · next outside => simp [member, List.getElem?_eq_none (Nat.le_of_not_lt fun inside => outside ⟨above, inside⟩)]

/-- The stores answer for every block. -/
theorem Stores.lookup_at (stored : c.blocks[place]? = some b) :
    t.lookupByHash b.record.hash = .ok ⟨b.record, b.derived, decide (place ∈ c.active), b.record.height⟩ := by
  have inside := (List.getElem?_eq_some_iff.mp stored).1
  obtain ⟨place', found, stored'⟩ := TailTree.find_mem (List.mem_of_getElem? stored)
  obtain rfl : place = place' := (List.getElem?_inj inside (c.named.of_map _)).mp (stored.trans stored'.symm)
  have side := stores.index b.record.hash
  rw [found, Tip.sideSlot, Option.filter_eq_some_iff, Option.bind_eq_some_iff] at side
  obtain ⟨⟨id, indexed, slotted⟩, -⟩ := side
  have flagged := stores.activeFlag stored
  rw [idOf_slotOf slotted] at flagged
  rw [Tip.lookupByHash, Tip.pending?, stores.pend]
  exact Tip.lookupDurable_ok.mpr
    ⟨id, place, indexed, slotted, by rw [stores.records.count, List.length_map]; exact inside,
    by rw [stores.derived.count, List.length_map]; exact inside, by rw [stores.record?, stored, Option.map_some],
    by rw [stores.derived?, stored, Option.map_some], rfl, flagged, rfl⟩

/-- From an ancestor of `x` on, the loop finds the last active one below it. -/
theorem Stores.attachmentFork {h g : Int} (low : c.baseHeight ≤ h) (within : h ≤ floor) (descends : c.Descends x a)
    (mem : a ∈ c.blocks) (height : a.record.height = h + 1)
    (clear : ∀ b, c.Active b → c.Descends x b → b.record.height ≤ floor → b.record.height ≤ h)
    (ok : t.attachmentFork c.baseHeight turns h a.record.hashPrev = .ok g) : c.MeetsAt floor x g := by
  induction turns generalizing h a with
  | zero => exact stores.attachToBase within descends clear ok
  | succ turns ih =>
    rw [Tip.attachmentFork] at ok
    split at ok
    · exact stores.attachToBase within descends clear ok
    split at ok
    · next active =>
      cases ok
      obtain ⟨rel, b, rfl, at_, same⟩ := stores.hashAt_iff.mp active
      have names : c.Names a b := ⟨mem, TailTree.mem_of_activeAt at_, same.symm⟩
      exact ⟨within, .inr ⟨b, ⟨rel, at_⟩, descends.tail names, TailTree.height_activeAt at_⟩, clear⟩
    next inactive =>
    split at ok
    · cases ok
    next pr found =>
    split at ok
    · cases ok
    obtain ⟨p, memP, isRecord, same, heightP⟩ := stores.lookup_some found
    have names : c.Names a p := ⟨mem, memP, same.symm⟩
    have above := c.grown a p names
    have descendsP : c.Descends x p := descends.tail names
    rw [← isRecord] at ok
    refine ih (by omega) (by omega) descendsP memP (by omega) (fun b active descendsB lower => ?_) ok
    have bound := clear b active descendsB lower
    by_contra same_height
    obtain rfl : b = p := TailTree.descends_unique descendsB descendsP (by omega)
    obtain ⟨rel, at_⟩ := active
    exact inactive (stores.hashAt_iff.mpr ⟨rel, b, by rw [← TailTree.height_activeAt at_]; omega, at_, same⟩)

private theorem Stores.lowerFork (low : c.baseHeight ≤ f) (runs : c.Runs f branch) (last : branch.getLast? = some x)
    (ok : t.lowerForkToBranchAttachment c.baseHeight fork branch = .ok g) : c.MeetsAt f x g := by
  cases branch with
  | nil => cases last
  | cons front rest =>
    have height : front.record.height = f + 1 := by simpa using runs.height 0 front rfl
    have member : front ∈ c.blocks := runs.mem front List.mem_cons_self
    refine stores.attachmentFork (a := front) (by omega) (by omega)
      (TailTree.descends_of_runs runs last (i := 0) rfl) member (by omega)
      (fun b _ _ lower => by omega) ok

/-- What is handed to the commit: the branch of the first choice above a fork that lies where the
first choice above the requested height leaves the active chain, hanging on the block at the fork. -/
theorem Stores.selectAttached (effective : t.effectivelyInvalid h invalidate = c.invalid) (low : c.baseHeight ≤ f)
    (ok : t.selectAttachedBranch c.baseHeight f h invalidate = .ok sel) :
    c.ForksAt f sel.fork ∧ c.Selects sel.fork sel.branch ∧ sel.heights = sel.branch.map (·.record.height) ∧
      c.baseHeight ≤ sel.fork ∧ ∀ b ∈ sel.branch.head?, c.below (sel.fork - c.baseHeight).toNat =
        some b.record.hashPrev := by
  obtain ⟨branch, selected, selects⟩ := stores.select (f := f) effective
  rw [Tip.selectAttachedBranch, selected] at ok
  cases branch with
  | nil =>
    cases ok
    rcases selects with ⟨-, nothing⟩ | ⟨x, -, last, -⟩
    · exact ⟨.inl ⟨nothing, rfl⟩, .inl ⟨rfl, nothing⟩, rfl, low, by simp⟩
    · cases last
  | cons front rest =>
    rcases selects with ⟨empty, -⟩ | ⟨x, heaviest, last, runs⟩
    · cases empty
    dsimp only at ok
    split at ok
    · cases ok
    next attach lowered =>
    have meets : c.MeetsAt f x attach := stores.lowerFork low runs last lowered
    have lowAttach : c.baseHeight ≤ attach := TailTree.base_le_of_meetsAt meets
    split at ok
    · next same =>
      cases ok
      subst same
      refine ⟨.inr ⟨x, heaviest, meets⟩, .inr ⟨x, heaviest, last, runs⟩, rfl, lowAttach, fun b isFirst => ?_⟩
      exact TailTree.foot_of_meetsAt runs last meets (by rwa [← List.head?_eq_getElem?])
    obtain ⟨branch', selected', selects'⟩ := stores.select (f := attach) effective
    rw [selected'] at ok
    dsimp only at ok
    split at ok
    · cases ok
    next attached =>
    cases ok
    refine ⟨.inr ⟨x, heaviest, meets⟩, selects', rfl, lowAttach, fun b isFirst => ?_⟩
    rcases selects' with ⟨rfl, -⟩ | ⟨x', heaviest', last', runs'⟩
    · cases isFirst
    have lowered' : t.lowerForkToBranchAttachment c.baseHeight attach branch' = .ok attach := by
      by_contra other
      refine attached ⟨?_, other⟩
      rintro rfl
      cases last'
    have meets' : c.MeetsAt attach x' attach := stores.lowerFork lowAttach runs' last' lowered'
    exact TailTree.foot_of_meetsAt runs' last' meets' (by rwa [← List.head?_eq_getElem?])

end Stores

end Tip
end Innova.BlockIndex
