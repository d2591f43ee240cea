import Innova.BlockIndex.TipCalls
import Innova.Lib.Steps

/-! The calls as lists of steps. A call reads what it needs from the state it starts in and from
the states its own steps lead to, so its steps are known once that state is. Where a call stops,
and what it leaves there, is read off its list. -/
namespace Innova.BlockIndex
open Lib Chainstate

abbrev TipStep := Step Point Fault Tip Stop

def Tip.onDisk (effect : Disk → Disk) (t : Tip) : Tip := { t with disk := effect t.disk }

/-- How a fault ends a call. -/
def stopOf (error : String) : Fault → Stop
  | .fails .. => .failed .ioError error
  | .crash => .crashed

/-! ## Steps and their sequences -/

/-- A step that changes the directory. -/
def diskStep (p : Point) (error : String) (effect : Disk → Disk)
    (part : Nat → Bool → Disk → Disk := fun _ _ => id) : TipStep :=
  .perform p (Tip.onDisk effect) (stopOf error) fun
    | .fails entries torn => Tip.onDisk (part entries torn)
    | .crash => id

/-- A test that stops the call. -/
def check (ok : Bool) (e : Stop) : List TipStep := if ok then [] else [.refuse e]

/-- A file replaced by renaming a copy. -/
def cowSteps (f : File) (error : String) (effect : Disk → Disk) : List TipStep :=
  [diskStep (.write f) error id, diskStep (.rename f) error effect, diskStep (.sync f) error id]

/-- `TruncateStoreToCommitted`. -/
def trimSteps {α : Type} (t : Tip) (s : StoreAt α) (n : Nat) (error : String) : List TipStep :=
  check (!(s.file t.disk).short n) (.failed .ioError error) ++
    [diskStep (.trim s.store) error fun d => s.put ((s.file d).cut n) d]

/-- Appending to a store. -/
def growSteps {α : Type} (s : StoreAt α) (new : List α) (error : String) : List TipStep :=
  if new.isEmpty then [] else
    [diskStep (.append s.store) error (fun d => s.put ((s.file d).grown new) d) fun entries torn d =>
      s.put { (s.file d).grown (new.take entries) with torn := torn && entries < new.length } d]

/-- The index after one new record. -/
def enterRecord (id : Nat) (r : Record) (index : Hash → Option Nat) : Hash → Option Nat :=
  if (index r.hash).isSome then index else Function.update index r.hash (some id)

/-- The index after new records, the first of them at `slot`. -/
def enterRecords (m : TipMeta) : Nat → List Record → (Hash → Option Nat) → Hash → Option Nat
  | _, [], index => index
  | slot, r :: rest, index => enterRecords m (slot + 1) rest (enterRecord (m.idOf slot) r index)

def putSteps (m : TipMeta) (error : String) (first k : Nat) (index : Hash → Option Nat) : List Record → List TipStep
  | [] => []
  | r :: rest =>
    (match index r.hash with
      | some known => check (known == m.idOf (first + k)) (.failed .ioError error)
      | none => [diskStep (.put k) error fun d =>
        { d with index := Function.update d.index r.hash (some (m.idOf (first + k))) }]) ++
    putSteps m error first (k + 1) (enterRecord (m.idOf (first + k)) r index) rest

/-- The publication of `tip.meta`, with what a failure undoes. -/
def headSteps (undo : Tip → Tip) : List TipStep :=
  [.perform (.write .head) id (stopOf "write tip.meta tmp failed") fun _ => undo,
    .perform (.rename .head) (fun t => t.onDisk fun d => { d with head := some (some (encodeTipMeta t.tipMeta)) })
      (stopOf "rename failed") fun _ => undo,
    .perform (.sync .head) id (stopOf "directory fsync failed") fun _ => undo]

/-- A computation without effect on the directory, started in `t`. -/
def inner (x : TipM Unit) (t : Tip) : List TipStep :=
  match x t with
  | .ok _ t => [.change fun _ => t]
  | .error e t => [.change fun _ => t, .refuse e]

/-! ### What steps keep -/

section Keeps
variable {xs : List TipStep} {t : Tip}

theorem keeps_check : Step.Keeps I (check ok e) := by
  cases ok with
  | true => exact Step.keeps_nil
  | false => exact .refuse Step.keeps_nil

theorem Keeps.disk (changed : ∀ s, I s → I (s.onDisk effect))
    (parted : ∀ entries torn s, I s → I (s.onDisk (part entries torn))) (rest : Step.Keeps I xs) :
    Step.Keeps I (diskStep p text effect part :: xs) := by
  refine .perform changed (fun fault s held => ?_) rest
  cases fault with
  | fails entries torn => exact parted entries torn s held
  | crash => exact held

theorem keeps_cow (changed : ∀ s, I s → I (s.onDisk effect)) : Step.Keeps I (cowSteps file text effect) :=
  Keeps.disk (fun _ held => held) (fun _ _ _ held => held)
    (Keeps.disk changed (fun _ _ _ held => held)
      (Keeps.disk (fun _ held => held) (fun _ _ _ held => held) Step.keeps_nil))

theorem keeps_puts (changed : ∀ s i, I s → I (s.onDisk fun d => { d with index := i })) :
    Step.Keeps I (putSteps m text first k index rs) := by
  induction rs generalizing k index with
  | nil => exact Step.keeps_nil
  | cons r rs ih =>
    refine Step.Keeps.append ?_ ih
    split
    · exact keeps_check
    · exact Keeps.disk (fun s held => changed s _ held) (fun _ _ _ held => held) Step.keeps_nil

theorem keeps_head
    (published : ∀ s, I s → I (s.onDisk fun d => { d with head := some (some (encodeTipMeta s.tipMeta)) }))
    (undone : ∀ s, I s → I (undo s)) : Step.Keeps I (headSteps undo) :=
  .perform (fun _ held => held) (fun _ s held => undone s held)
    (.perform published (fun _ s held => undone s held)
      (.perform (fun _ held => held) (fun _ s held => undone s held) Step.keeps_nil))

theorem keeps_trim {α : Type} {s : StoreAt α} {n : Nat}
    (changed : ∀ v, I v → I (v.onDisk (s.put ((s.file v.disk).cut n)))) :
    Step.Keeps I (trimSteps t s n text) :=
  keeps_check.append (Keeps.disk changed (fun _ _ _ held => held) Step.keeps_nil)

theorem keeps_grow {α : Type} {s : StoreAt α} {new : List α}
    (changed : ∀ v entries torn, I v → I (v.onDisk (s.put { (s.file v.disk).grown entries with torn }))) :
    Step.Keeps I (growSteps s new text) := by
  unfold growSteps
  split
  · exact Step.keeps_nil
  · exact Keeps.disk (fun v held => changed v new _ held) (fun entries torn v held => changed v
      (new.take entries) _ held)
      Step.keeps_nil

/-- Steps that change nothing but the directory. -/
def DiskOnly (xs : List TipStep) : Prop := ∀ t : Tip, Step.Keeps (fun u => u = { t with disk := u.disk }) xs

private theorem DiskOnly.after (only : DiskOnly xs) : Step.after xs t = { t with disk := (Step.after xs t).disk } :=
  (only t).after rfl

/-- A change of the directory is no change of anything else. -/
theorem onDisk_only {s : Tip} (effect : Disk → Disk) (same : s = { t with disk := s.disk }) :
    s.onDisk effect = { t with disk := (s.onDisk effect).disk } := by
  rw [same]
  rfl

private theorem DiskOnly.append (left : DiskOnly xs) (right : DiskOnly ys) : DiskOnly (xs ++ ys) :=
  fun t => (left t).append (right t)

private theorem diskOnly_nil : DiskOnly [] := fun _ => Step.keeps_nil

private theorem diskOnly_check : DiskOnly (check ok e) := fun _ => keeps_check

private theorem diskOnly_refuse : DiskOnly [.refuse e] := fun _ => .refuse Step.keeps_nil

private theorem DiskOnly.cons (rest : DiskOnly xs) : DiskOnly (diskStep p text effect part :: xs) := fun t =>
  Keeps.disk (I := fun u => u = { t with disk := u.disk }) (fun _ held => onDisk_only _ held)
    (fun _ _ _ held => onDisk_only _ held) (rest t)

private theorem diskOnly_cow : DiskOnly (cowSteps file text effect) := diskOnly_nil.cons.cons.cons

end Keeps

section Components
variable {f : Unit → TipM Unit} {α : Type}

/-- One part of a call after another. -/
theorem bind_run (first : x t = Step.run io xs t) (rest : f () (Step.after xs t) = Step.run io ys (Step.after xs t)) :
    (x >>= f) t = Step.run io (xs ++ ys) t := by
  rw [Step.run_append, bind_apply, bind_apply, first]
  cases ran : Step.run io xs t with
  | ok _ s =>
    obtain ⟨-, rfl⟩ := Step.run_ok.mp ran
    exact rest
  | error e s => rfl

@[simp] theorem after_check : Step.after (check ok e) t = t := by
  cases ok <;> rfl

theorem passes_check : (∀ x ∈ check ok e, x.Passes io) ↔ ok = true := by
  cases ok <;> simp [check, Step.Passes]

/-- A call that goes on only if `ok`. -/
theorem guard_run {c : Prop} [Decidable c] (means : c ↔ ok = false) (rest : f () t = Step.run io ys t) :
    ((if c then (do let r ← fail status error; f r) else f ()) : TipM Unit) t =
      Step.run io (check ok (.failed status error) ++ ys) t := by
  cases ok with
  | true => rw [if_neg (by simp [means]), rest]; rfl
  | false => rw [if_pos (means.mpr rfl)]; rfl

theorem after_trim : Step.after (trimSteps u s n error) t = t.onDisk fun d => s.put ((s.file d).cut n) d := by
  rw [trimSteps, Step.after_append, after_check]
  rfl

private theorem after_grow {new : List α} (lawful : ∀ d, s.put (s.file d) d = d) :
    Step.after (growSteps s new error) t = t.onDisk fun d => s.put ((s.file d).grown new) d := by
  unfold growSteps
  split
  · next none =>
    rw [List.isEmpty_iff] at none
    simp [none, Tip.onDisk, SlotFile.grown, lawful]
  · rfl

theorem after_cow : Step.after (cowSteps file error effect) t = t.onDisk effect := rfl

theorem after_puts (indexed : t.disk.index = index) : Step.after (putSteps m error first k index rs) t =
      t.onDisk fun d => { d with index := enterRecords m (first + k) rs index } := by
  subst indexed
  induction rs generalizing t k with
  | nil => rfl
  | cons r rs ih =>
    unfold putSteps enterRecords
    rw [Step.after_append]
    cases known : t.disk.index r.hash with
    | some id =>
      simp only [enterRecord, known, Option.isSome_some, if_true, after_check]
      exact ih
    | none =>
      simp only [enterRecord, known, Option.isSome_none, if_false, Bool.false_eq_true]
      exact ih

private theorem perform_run : perform io p error effect part t = Step.run io [diskStep p error effect part] t := by
  unfold perform diskStep
  simp only [Step.run]
  cases io p with
  | none => rfl
  | some fault => cases fault <;> rfl

private theorem writeFileCoW_run : writeFileCoW io file error effect t = Step.run io (cowSteps file error effect) t :=
  bind_run perform_run (bind_run perform_run perform_run)

/-- A part of a call that starts by looking at the state. -/
theorem get_bind {g : Tip → TipM Unit} : ((do let t ← get; g t) : TipM Unit) t = g t t := rfl

private theorem truncateStore_run (same : s.file u.disk = s.file t.disk) :
    truncateStoreToCommitted io s n error t = Step.run io (trimSteps u s n error) t := by
  unfold truncateStoreToCommitted trimSteps
  rw [get_bind, same]
  cases short : (s.file t.disk).short n with
  | true => rfl
  | false =>
    simp only [Bool.false_eq_true, if_false, Bool.not_false, check, if_true, List.nil_append]
    rw [perform_run]
    unfold diskStep Tip.onDisk
    simp only [Step.run]

private theorem growStore_run : appendAndUpdateCountDurable io s new error t = Step.run io
    (growSteps s new error) t := by
  unfold appendAndUpdateCountDurable growSteps
  split
  · rfl
  · rw [get_bind, perform_run]
    unfold diskStep Tip.onDisk
    simp only [Step.run]
    cases io (.append s.store) with
    | none => rfl
    | some fault => cases fault <;> rfl

private theorem putRecords_run (metas : t.tipMeta = m) (indexed : t.disk.index = index) :
    putRecords io error first k rs t = Step.run io (putSteps m error first k index rs) t := by
  subst metas indexed
  induction rs generalizing t k with
  | nil => rfl
  | cons r rs ih =>
    unfold putRecords putSteps enterRecord
    rw [get_bind]
    cases known : t.disk.index r.hash with
    | none => exact bind_run perform_run ih
    | some id =>
      by_cases same : id = t.tipMeta.idOf (first + k)
      · simpa [same, check] using ih
      · simp only [ne_eq, same, not_false_iff, if_true, beq_iff_eq, check, if_false]
        rfl

private theorem writeMeta_run : recovering (writeMeta io) undo t = Step.run io (headSteps undo) t := by
  unfold recovering writeMeta headSteps
  simp only [bind_apply, perform_run, diskStep, Step.run]
  cases io (.write .head) with
  | some fault => cases fault <;> rfl
  | none =>
    cases io (.rename .head) with
    | some fault => cases fault <;> rfl
    | none =>
      cases io (.sync .head) with
      | some fault => cases fault <;> rfl
      | none => rfl

/-- A failed publication undoes what it is told to; the new `tip.meta` may be in place. -/
theorem head_error (stopped : Step.run io (headSteps undo) t = .error e u) :
    u = undo t ∨ u = undo (t.onDisk fun d => { d with head := some (some (encodeTipMeta t.tipMeta)) }) := by
  simp only [headSteps, Step.run] at stopped
  split at stopped
  · split at stopped
    · split at stopped
      · cases stopped
      · cases stopped; exact .inr rfl
    · cases stopped; exact .inl rfl
  · cases stopped; exact .inl rfl

/-- A part of a call that leaves the directory alone is one step, taken where its outcome is known. -/
theorem inner_run : x t = Step.run io (inner x t) t := by
  unfold inner
  cases x t <;> rfl

theorem inner_passes (passed : ∀ y ∈ inner x t, y.Passes io) : ∃ v, x t = .ok () v ∧ Step.after (inner x t) u = v := by
  unfold inner at passed ⊢
  cases ran : x t with
  | ok _ v => exact ⟨v, rfl, rfl⟩
  | error e v =>
    rw [ran] at passed
    exact (passed (.refuse e) (by simp)).elim

end Components

/-! ## The calls -/

section Calls
variable [Digest]

/-- What a failed publication of a batch undoes; `saved` is the authority before it adopted the batch. -/
def undoAppend (saved t : Tip) : Tip :=
  { t with
    recordsWin := t.recordsWin.popTo saved.recordsWin.count
    derivedWin := t.derivedWin.popTo saved.derivedWin.count
    activeWin := t.activeWin.popTo saved.activeWin.count
    tipMeta := saved.tipMeta
    chains := saved.chains }

/-- The authority once its chains are valid. -/
def Tip.withChains (t : Tip) : Tip := { t with chains := some (t.chains.getD (chainsOf t.scanned)) }

/-- The operator-invalid log is to be written again. -/
def Tip.logDue (t : Tip) : Bool := decide (t.invalidDisk ≠ some (computeInvalidDigest t.invalidEntries))

/-- The log of operator intents. -/
def logSteps (entries : List InvalidEntry) (error : String) : List TipStep :=
  cowSteps .invalid error (fun d => { d with invalid := some (some entries) }) ++
    [.change fun t => { t with invalidDisk := some (computeInvalidDigest entries) }]

/-- The new entries behind the committed ones of each store. -/
def growthSteps (t : Tip) (g : Gathered) : List TipStep :=
  trimSteps t recordsAt t.tipMeta.tipRecordCount "append tip truncate failed" ++
  (trimSteps t derivedAt t.tipMeta.tipRecordCount "append tip truncate failed" ++
  (trimSteps t activeAt t.tipMeta.activeCount "append tip truncate failed" ++
  (growSteps recordsAt g.content.records "append tip records/derived/active + count failed" ++
  (growSteps derivedAt g.content.derived "append tip records/derived/active + count failed" ++
  growSteps activeAt g.content.active "append tip records/derived/active + count failed"))))

/-- An append up to the first entry of the side index. -/
def storeSteps (t : Tip) (g : Gathered) : List TipStep :=
  growthSteps t g ++ if t.logDue then logSteps t.invalidEntries "append tip-invalid failed" else []

/-- Filing a batch keeps what depends neither on the store files nor on the log. -/
theorem keeps_storeSteps (blind : ∀ v d, d.index = v.disk.index → I v → I { v with disk := d })
    (logged : ∀ v x, I v → I { v with invalidDisk := x }) : Step.Keeps I (storeSteps t g) := by
  have log : Step.Keeps I (if t.logDue then logSteps t.invalidEntries "append tip-invalid failed" else []) := by
    split
    · exact (keeps_cow fun v => blind v _ rfl).append (.change (fun v => logged v _) Step.keeps_nil)
    · exact Step.keeps_nil
  exact ((keeps_trim fun v => blind v _ rfl).append ((keeps_trim fun v => blind v _ rfl).append
    ((keeps_trim fun v => blind v _ rfl).append ((keeps_grow fun v _ _ => blind v _ rfl).append
      ((keeps_grow fun v _ _ => blind v _ rfl).append (keeps_grow fun v _ _ => blind v _ rfl)))))).append log

/-- An append from its first entry of the side index to the publication of its meta. -/
def enterSteps (t : Tip) (g : Gathered) : List TipStep :=
  putSteps t.tipMeta "append tip-hashindex put failed" t.tipMeta.tipRecordCount 0 t.disk.index g.content.records ++
  (cowSteps .marker "append tip-hashindex marker failed"
    (fun d => { d with marker := some (t.tipMeta.tipRecordCount + g.blocks.length) }) ++
  [.change Tip.withChains])

/-- The steps of an append that has something new. -/
def filing (t : Tip) (g : Gathered) : List TipStep := storeSteps t g ++ enterSteps t g

/-- The authority when an append has written its entries. -/
def Tip.stored (t : Tip) (g : Gathered) : Tip :=
  { t with
    disk :=
      { t.disk with
        records := (t.disk.records.cut t.tipMeta.tipRecordCount).grown g.content.records
        derived := (t.disk.derived.cut t.tipMeta.tipRecordCount).grown g.content.derived
        active := (t.disk.active.cut t.tipMeta.activeCount).grown g.content.active
        invalid := if t.logDue then some (some t.invalidEntries) else t.disk.invalid }
    invalidDisk := some (computeInvalidDigest t.invalidEntries) }

/-- The authority when an append is about to adopt its blocks. -/
def Tip.filed (t : Tip) (g : Gathered) : Tip :=
  ((t.stored g).onDisk fun d =>
    { d with
      index := enterRecords t.tipMeta t.tipMeta.tipRecordCount g.content.records t.disk.index
      marker := some (t.tipMeta.tipRecordCount + g.blocks.length) }).withChains

/-- The steps of a batch from its first write to the commit. -/
def commitSteps (t : Tip) (g : Gathered) : List TipStep :=
  filing t g ++ ([.change (adoptAppend g)] ++ headSteps (undoAppend (t.filed g)))

/-- The steps of `AppendBatch`. -/
def appendSteps (t : Tip) (blocks : List Append) (activeHeights : List Int) : List TipStep :=
  check (blocks.length == activeHeights.length) (.failed .corrupt "append batch size mismatch") ++
  match gather t (blocks.zip activeHeights) with
  | .error e => [.refuse e]
  | .ok g => if g.blocks.isEmpty then [] else
    check (g.blocks.all fun blk => validateRecord blk.record) (.failed .ioError "encode tip-records entry failed") ++
    commitSteps t g

/-- The replacement of a store file. -/
def swapSteps (s : Store) (error : String) (effect : Disk → Disk) : List TipStep :=
  cowSteps (.store s) error effect ++ [diskStep (.count s) error id]

/-- The corrected slots are committed ones, and no two corrections meet. -/
def Plan.fitting (p : Plan) (m : TipMeta) : Bool :=
  (p.fixes.map (·.1)).all (· < m.tipRecordCount) && decide (p.fixes.map (·.1)).Nodup

def Plan.encodable (p : Plan) : Bool :=
  p.append.all (validateRecord ·.record) && p.fixes.all (validateRecord ·.2.record)

/-- The slots a reorganisation writes. -/
def rewriteSteps (t : Tip) (p : Plan) (error : String) : List TipStep :=
  check (p.fitting t.tipMeta) (.failed .ioError error) ++
  match streamCopy (fun slot => (p.fixAt slot).map (·.record)) t.tipMeta.tipRecordCount 0 t.disk.records.body with
  | none => [.refuse (.failed .ioError error)]
  | some records =>
    check p.encodable (.failed .ioError error) ++
    (swapSteps .records error
      (fun d => { d with records := .whole (records ++ p.append.map fun blk => some blk.record) }) ++
    match streamCopy (fun slot => (p.fixAt slot).map (·.derived)) t.tipMeta.tipRecordCount 0 t.disk.derived.body with
    | none => [.refuse (.failed .ioError error)]
    | some derived =>
      swapSteps .derived error
        (fun d => { d with derived := .whole (derived ++ p.append.map fun blk => some blk.derived) }) ++
      (check (decide (p.keep ≤ t.disk.active.body.length)) (.failed .ioError error) ++
      swapSteps .active error fun d =>
        { d with active := .whole (t.disk.active.body.take p.keep ++ (p.active.drop p.keep).map some) }))

def undoReorg (saved t : Tip) : Tip :=
  { setCounts saved.tipMeta.tipRecordCount saved.tipMeta.activeCount t with
    tipMeta := saved.tipMeta, invalidEntries := saved.invalidEntries, chains := none }

/-- A reorganisation's new records enter the side index. -/
def entrySteps (t : Tip) (kind : ReorgKind) (p : Plan) : List TipStep :=
  putSteps t.tipMeta (kind.word ++ " tip-hashindex put failed") t.tipMeta.tipRecordCount 0 t.disk.index
    (p.append.map (·.record)) ++
  cowSteps .marker (kind.word ++ " tip-hashindex marker failed")
    fun d => { d with marker := some (t.tipMeta.tipRecordCount + p.append.length) }

/-- The commit of a reorganisation. -/
def publishSteps (t : Tip) (kind : ReorgKind) (p : Plan) (entries : Option (List InvalidEntry)) : List TipStep :=
  entrySteps t kind p ++
    (inner (adoptReorg kind t.tipMeta p entries) (Step.after (entrySteps t kind p) t) ++ headSteps (undoReorg t))

/-- What `ReorgActiveTo` writes before it publishes. -/
def reorgFiling (u : Tip) (p : Plan) : List TipStep :=
  cowSteps .backup "reorg active undo backup failed" (fun d => { d with backup := some d.active }) ++
    rewriteSteps u p "reorg store stream failed"

/-- What `ApplyOperatorInvalidAndReorg` writes before it publishes. -/
def applyFiling (hash : Hash) (invalidate : Bool) (u : Tip) (p : Plan) : List TipStep :=
  rewriteSteps u p "fused store stream failed" ++ logSteps (u.withIntent hash invalidate) "fused tip-invalid failed"

/-- A reorganisation: its plan, its files, its publication. -/
def planSteps (kind : ReorgKind) (filing : Tip → Plan → List TipStep)
    (entries : Tip → Option (List InvalidEntry)) (t : Tip)
    (fork : Int) (branch : List Append) (heights : List Int) : List TipStep :=
  match planReorg kind fork branch heights t with
  | .error e u => [.change fun _ => u, .refuse e]
  | .ok p u => .change (fun _ => u) :: (filing u p ++ publishSteps (Step.after (filing u p) u) kind p (entries u))

/-- The steps of `ReorgActiveTo`. -/
def reorgSteps (t : Tip) (fork : Int) (branch : List Append) (heights : List Int) : List TipStep :=
  planSteps .reorg reorgFiling (fun _ => none) t fork branch heights

def applySteps (t : Tip) (hash : Hash) (invalidate : Bool) (fork : Int) (branch : List Append) (heights : List Int) :
    List TipStep :=
  planSteps .fused (applyFiling hash invalidate) (fun u => some (u.withIntent hash invalidate)) t fork branch heights

section Runs
omit [Digest] in
private theorem appendStores_run : appendStores io g t = Step.run io (growthSteps t g) t := by
  unfold appendStores
  rw [get_bind]
  refine bind_run (truncateStore_run rfl) (bind_run (truncateStore_run ?_) (bind_run (truncateStore_run ?_)
    (bind_run growStore_run (bind_run growStore_run growStore_run))))
  · rw [after_trim]; rfl
  · rw [after_trim, after_trim]; rfl

omit [Digest] in
private theorem after_growth : Step.after (growthSteps t g) t = t.onDisk fun d =>
    { d with
      records := (d.records.cut t.tipMeta.tipRecordCount).grown g.content.records
      derived := (d.derived.cut t.tipMeta.tipRecordCount).grown g.content.derived
      active := (d.active.cut t.tipMeta.activeCount).grown g.content.active } := by
  unfold growthSteps
  simp only [Step.after_append, after_trim]
  rw [after_grow (fun _ => rfl), after_grow (fun _ => rfl), after_grow (fun _ => rfl)]
  rfl

theorem after_stores : Step.after (storeSteps t g) t = t.stored g := by
  unfold storeSteps Tip.stored
  rw [Step.after_append, after_growth]
  cases due : t.logDue with
  | true => rfl
  | false =>
    have written : t.invalidDisk = some (computeInvalidDigest t.invalidEntries) := by simpa [Tip.logDue] using due
    simp only [Bool.false_eq_true, if_false, ← written]
    rfl

theorem after_filing : Step.after (filing t g) t = t.filed g := by
  unfold filing enterSteps
  rw [Step.after_append, after_stores, Step.after_append, Step.after_append,
    after_puts (show (t.stored g).disk.index = t.disk.index from rfl), after_cow]
  rfl

private theorem completeInvalidFile_run {u : Tip} (log : u.invalidEntries = t.invalidEntries)
    (written : u.invalidDisk = t.invalidDisk) :
    completeInvalidFile io t =
      Step.run io (if u.logDue then logSteps u.invalidEntries "append tip-invalid failed" else []) t := by
  rw [Tip.logDue, log, written]
  unfold completeInvalidFile
  rw [get_bind]
  by_cases due : t.invalidDisk ≠ some (computeInvalidDigest t.invalidEntries)
  · rw [if_pos due, if_pos (decide_eq_true due)]
    exact bind_run writeFileCoW_run rfl
  · rw [if_neg due, if_neg (by simpa using due)]
    rfl

private theorem ensureChains_run : ensureChains t = Step.run io [.change Tip.withChains] t := by
  obtain ⟨disk, m, records, derived, active, entries, written, chains, base, pend⟩ := t
  cases chains <;> rfl

private theorem commitBatch_run : commitBatch io g t = Step.run io (commitSteps t g) t := by
  have stored := after_stores (t := t) (g := g)
  unfold storeSteps at stored
  rw [Step.after_append] at stored
  have filed := after_filing (t := t) (g := g)
  unfold filing enterSteps at filed
  rw [Step.after_append, after_stores, Step.after_append, Step.after_append] at filed
  unfold commitBatch commitSteps filing storeSteps enterSteps
  simp only [List.append_assoc]
  refine bind_run appendStores_run (bind_run ?_ ?_)
  · rw [after_growth]
    exact completeInvalidFile_run rfl rfl
  · rw [stored]
    refine bind_run (putRecords_run rfl rfl) (bind_run writeFileCoW_run (bind_run ensureChains_run ?_))
    rw [filed]
    exact writeMeta_run

theorem appendBatch_run :
    appendBatch io blocks activeHeights t = Step.run io (appendSteps t blocks activeHeights) t := by
  unfold appendBatch appendSteps
  refine guard_run (by simp) ?_
  rw [get_bind]
  cases gathered : gather t (blocks.zip activeHeights) with
  | error e => rfl
  | ok g =>
    change ((if g.blocks.isEmpty then pure () else _ : TipM Unit)) t = Step.run io
      (if g.blocks.isEmpty then [] else _) t
    split
    · rfl
    · exact guard_run (by simp) commitBatch_run

section
omit [Digest]

private theorem swapStore_run : swapStore io s error effect t = Step.run io (swapSteps s error effect) t :=
  bind_run writeFileCoW_run perform_run

private theorem rewriteStores_run : rewriteStoresForReorg io p error t = Step.run io (rewriteSteps t p error) t := by
  unfold rewriteStoresForReorg rewriteSteps
  rw [get_bind]
  refine guard_run (by rw [Plan.fitting, ← Bool.not_and, Bool.not_eq_true']) ?_
  rw [get_bind]
  cases streamCopy (fun slot => (p.fixAt slot).map (·.record)) t.tipMeta.tipRecordCount 0 t.disk.records.body with
  | none => rfl
  | some records =>
    refine guard_run (by rw [Plan.encodable, ← Bool.not_and, Bool.not_eq_true']) (bind_run swapStore_run ?_)
    have kept {new} : (Step.after (swapSteps .records error fun d => { d with records := new }) t).disk.derived =
      t.disk.derived := rfl
    rw [get_bind, kept]
    cases streamCopy (fun slot => (p.fixAt slot).map (·.derived)) t.tipMeta.tipRecordCount 0 t.disk.derived.body with
    | none => rfl
    | some derived =>
      refine bind_run swapStore_run ?_
      rw [get_bind]
      exact guard_run (by simp; rfl) swapStore_run

theorem keeps_swap (changed : ∀ s, I s → I (s.onDisk effect)) : Step.Keeps I (swapSteps s error effect) :=
  (keeps_cow changed).append (Keeps.disk (fun _ held => held) (fun _ _ _ held => held) Step.keeps_nil)

private theorem diskOnly_rewrite : DiskOnly (rewriteSteps t p error) := by
  have swap {s : Store} {effect : Disk → Disk} : DiskOnly (swapSteps s error effect) :=
    diskOnly_cow.append diskOnly_nil.cons
  refine diskOnly_check.append ?_
  split
  · exact diskOnly_refuse
  · refine diskOnly_check.append (swap.append ?_)
    split
    · exact diskOnly_refuse
    · exact swap.append (diskOnly_check.append swap)

end

private theorem publishReorg_run :
    publishReorg io kind p entries t = Step.run io (publishSteps t kind p entries) t := by
  unfold publishReorg publishSteps
  rw [entrySteps, List.append_assoc]
  refine bind_run (putRecords_run rfl rfl) (bind_run writeFileCoW_run ?_)
  rw [← Step.after_append]
  exact bind_run inner_run writeMeta_run

theorem reorgActive_run : reorgActive io fork branch heights t = Step.run io (reorgSteps t fork branch heights) t := by
  unfold reorgActive reorgSteps planSteps
  rw [bind_apply]
  cases planReorg .reorg fork branch heights t with
  | error e u => rfl
  | ok p u =>
    simp only [Step.run, reorgFiling]
    rw [List.append_assoc]
    refine bind_run writeFileCoW_run (bind_run rewriteStores_run ?_)
    exact publishReorg_run

theorem applyOperatorInvalid_run {hash : Hash} : applyOperatorInvalid io hash invalidate fork branch heights t =
      Step.run io (applySteps t hash invalidate fork branch heights) t := by
  unfold applyOperatorInvalid applySteps planSteps
  rw [bind_apply]
  cases planReorg .fused fork branch heights t with
  | error e u => rfl
  | ok p u =>
    simp only [Step.run, applyFiling]
    rw [List.append_assoc]
    refine bind_run rewriteStores_run ?_
    have intent : (Step.after (rewriteSteps u p "fused store stream failed") u).withIntent hash invalidate =
        u.withIntent hash invalidate := by
      rw [diskOnly_rewrite.after]
      rfl
    rw [get_bind, intent]
    refine bind_run (bind_run writeFileCoW_run rfl) ?_
    rw [Step.after_append]
    exact publishReorg_run

end Runs
end Calls
end Innova.BlockIndex
