import Innova.Chainstate.Coin
import Innova.Lib.Together
import Mathlib.Data.List.AList

/-! Blocks and their ordered deltas (`chainstate.cpp`, `incdelta.cpp`). Two builders make a
delta from a block: one works on a copy of the whole UTXO set, the other on an overlay of
created and spent keys over a reader. Both are one walk of the block over what it asks of
its coins, and they give the same answer. -/
namespace Innova.Chainstate
open Lib

/-! ## Blocks -/

def maxMoney : Int64 := 21000000 * 100000000

def moneyRange (v : Int64) : Bool := 0 ≤ v && v ≤ maxMoney

/-- An input. -/
structure TxIn where
  prev : OutPoint

/-- An output. -/
structure TxOut where
  value : Int64
  script : Bytes

/-- A transaction as `BuildDelta` takes it. -/
structure Tx where
  txid : Hash
  coinbase : Bool
  coinstake : Bool
  vin : List TxIn
  vout : List TxOut

/-- A block with its height. -/
structure Block where
  height : Int32
  txs : List Tx

/-! ## The UTXO set -/

/-- The coins by the 36 bytes of their outpoint. -/
abbrev UtxoState := AList fun _ : ByteArr 36 => Coin

/-- Whether a key belongs to an output of `txid`. -/
def ofTxid (txid : Hash) (k : ByteArr 36) : Bool := k.val.take 32 == txid.val

namespace UtxoState

def get (s : UtxoState) (k : OutPoint) : Option Coin := s.lookup k.keyBytes

/-- Whether a transaction still has a coin. -/
def existsUnspentTxid (s : UtxoState) (txid : Hash) : Bool := s.keys.any (ofTxid txid)

def put (s : UtxoState) (k : OutPoint) (c : Coin) : UtxoState := s.insert k.keyBytes c

def erase (s : UtxoState) (k : OutPoint) : UtxoState := AList.erase k.keyBytes s

end UtxoState

/-- Sets one outpoint to a coin, or to nothing. -/
def UtxoState.set (s : UtxoState) (k : OutPoint) : Option Coin → UtxoState
  | some c => s.put k c
  | none => s.erase k

/-- `ApplyDelta`. -/
def applyDelta (s : UtxoState) (d : Delta) : UtxoState := d.foldl (fun s o => s.set o.op o.after) s

/-- The before states, last operation first. -/
def revertDelta (s : UtxoState) (d : Delta) : UtxoState := d.reverse.foldl (fun s o => s.set o.op o.before) s

/-! ## Sets of coins and deltas -/

/-- The coins as a function of the outpoint. -/
abbrev CoinSet := OutPoint → Option Coin

namespace CoinSet

def apply (m : CoinSet) (d : Delta) : CoinSet := d.foldl (fun m o => Function.update m o.op o.after) m

def revert (m : CoinSet) (d : Delta) : CoinSet := d.reverse.foldl (fun m o => Function.update m o.op o.before) m

/-- Every operation, in its turn, finds the before state it records. -/
def Sequential : CoinSet → Delta → Prop
  | _, [] => True
  | m, o :: d => m o.op = o.before ∧ Sequential (Function.update m o.op o.after) d

@[simp] theorem apply_nil (m : CoinSet) : m.apply [] = m := rfl
@[simp] theorem apply_cons (m : CoinSet) (o : Op) (d : Delta) :
    m.apply (o :: d) = apply (Function.update m o.op o.after) d := rfl

theorem sequential_append : Sequential m (d ++ more) ↔ Sequential m d ∧ Sequential (m.apply d) more := by
  induction d generalizing m with
  | nil => simp [Sequential]
  | cons o d ih => rw [List.cons_append, Sequential, Sequential, ih, apply_cons, and_assoc]

/-- Reverting a sequentially valid delta after applying it gives the set back. -/
theorem Sequential.revert_apply (valid : Sequential m d) : (m.apply d).revert d = m := by
  induction d generalizing m with
  | nil => rfl
  | cons o d ih =>
    have before : revert (apply (Function.update m o.op o.after) d) d = Function.update m o.op o.after := ih valid.2
    rw [revert, List.reverse_cons, List.foldl_append]
    show Function.update (revert (apply (Function.update m o.op o.after) d) d) o.op o.before = m
    rw [before, Function.update_idem, ← valid.1, Function.update_eq_self]

end CoinSet

private theorem UtxoState.get_set (s : UtxoState) (k : OutPoint) (c : Option Coin) :
    (s.set k c).get = Function.update s.get k c := by
  funext j
  have key : j.keyBytes = k.keyBytes ↔ j = k := OutPoint.keyBytes_injective.eq_iff
  by_cases same : j = k
  · subst same
    cases c <;> simp [UtxoState.set, UtxoState.get, UtxoState.put, UtxoState.erase]
  · have apart := fun keys => same (key.mp keys)
    cases c <;> simp [UtxoState.set, UtxoState.get, UtxoState.put, UtxoState.erase, same, AList.lookup_insert_ne apart,
      AList.lookup_erase_ne apart]

theorem get_applyDelta (s : UtxoState) (d : Delta) : (applyDelta s d).get = CoinSet.apply s.get d := by
  induction d generalizing s with
  | nil => rfl
  | cons o d ih => exact (ih (s.set o.op o.after)).trans (by rw [s.get_set, CoinSet.apply_cons])

theorem get_revertDelta (s : UtxoState) (d : Delta) : (revertDelta s d).get = CoinSet.revert s.get d := by
  unfold revertDelta CoinSet.revert
  induction d.reverse generalizing s with
  | nil => rfl
  | cons o d ih => exact (ih (s.set o.op o.before)).trans (by rw [s.get_set]; rfl)

/-! ## The walk of a block -/

/-- What the walk asks of its coins and tells them. -/
structure CoinView (W : Type) where
  /-- Whether any unspent output of a transaction is there. -/
  hasTxid : W → Hash → Except ChainError Bool
  get : W → OutPoint → Option Coin
  spend : W → OutPoint → W
  create : W → OutPoint → Coin → W

/-- The coins as changed so far, and the operations recorded. -/
structure Work (W : Type) where
  view : W
  ops : Delta

section Walk
variable {W : Type} (V : CoinView W) (height maturity : Int32)

/-- An input: its coin has to exist, to be mature and to keep the sum in range. -/
def spendInput (acc : Work W × Int64) (i : TxIn) : Except ChainError (Work W × Int64) :=
  match V.get acc.1.view i.prev with
  | none => .error ⟨.missingInput, "prevout not found (incl. intra-block)"⟩
  | some prev =>
    if (prev.fCoinBase || prev.fCoinStake) && height.toInt - prev.height.toInt < maturity.toInt then
      .error ⟨.immature, "coinbase/coinstake spend below maturity"⟩
    else if !moneyRange prev.value then .error ⟨.valueRange, "input out of range"⟩
    else if !moneyRange (acc.2 + prev.value) then .error ⟨.valueOverflow, "valueIn overflow"⟩
    else .ok (⟨V.spend acc.1.view i.prev, acc.1.ops ++ [⟨i.prev, some prev, none⟩]⟩, acc.2 + prev.value)

/-- The coin an output of a block becomes. -/
def Tx.coin (tx : Tx) (t : TxOut) : Coin := ⟨t.value, t.script, height, 0, tx.coinbase, tx.coinstake⟩

/-- An output: its value has to be in range and its key new. -/
def createOutput (tx : Tx) (acc : Work W × Int64) (t : TxOut × Nat) : Except ChainError (Work W × Int64) :=
  let key : OutPoint := ⟨tx.txid, UInt32.ofNat t.2⟩
  if !moneyRange t.1.value then .error ⟨.valueRange, "output out of range"⟩
  else if !moneyRange (acc.2 + t.1.value) then .error ⟨.valueOverflow, "valueOut overflow"⟩
  else if (V.get acc.1.view key).isSome then .error ⟨.dupOutpoint, "BIP30: exact outpoint exists"⟩
  else
    .ok (⟨V.create acc.1.view key (tx.coin height t.1), acc.1.ops ++ [⟨key, none, some (tx.coin height t.1)⟩]⟩,
      acc.2 + t.1.value)

/-- A transaction: the inputs, then the outputs. -/
def walkTx (w : Work W) (tx : Tx) : Except ChainError (Work W) := do
  if ← V.hasTxid w.view tx.txid then .error ⟨.dupOutpoint, "BIP30: unspent output of same txid exists"⟩
  else do
    let (w, valueIn) ← (if tx.coinbase then [] else tx.vin).foldlM (spendInput V height maturity) (w, 0)
    let (w, valueOut) ← tx.vout.zipIdx.foldlM (createOutput V height tx) (w, 0)
    if !tx.coinbase && !tx.coinstake && valueIn < valueOut then
      .error ⟨.valueRange, "non-coinbase spends more than inputs"⟩
    else .ok w

/-- All transactions of a block, in order. -/
def walkBlock (w : W) (txs : List Tx) : Except ChainError (Work W) := txs.foldlM (walkTx V height maturity) ⟨w, []⟩

variable {V height maturity}

/-- The input that is spent: found, mature, recorded, and its value added to the sum. -/
theorem spendInput_ok (ran : spendInput V height maturity acc i = .ok acc') : ∃ c, V.get acc.1.view i.prev = some c ∧
      ((c.fCoinBase || c.fCoinStake) = true → maturity.toInt ≤ height.toInt - c.height.toInt) ∧
      moneyRange c.value = true ∧ moneyRange (acc.2 + c.value) = true ∧
      acc' = (⟨V.spend acc.1.view i.prev, acc.1.ops ++ [⟨i.prev, some c, none⟩]⟩, acc.2 + c.value) := by
  unfold spendInput at ran
  split at ran
  · cases ran
  · next c found =>
    split_ifs at ran with young value sum
    cases ran
    refine ⟨c, found, fun reward => ?_, by simpa using value, by simpa using sum, rfl⟩
    by_contra under
    exact young (by simp only [reward, Bool.true_and, decide_eq_true_eq]; omega)

theorem createOutput_ok (ran : createOutput V height tx acc t = .ok acc') :
    V.get acc.1.view ⟨tx.txid, UInt32.ofNat t.2⟩ = none ∧ moneyRange t.1.value = true ∧
      moneyRange (acc.2 + t.1.value) = true ∧
      acc' = (⟨V.create acc.1.view ⟨tx.txid, UInt32.ofNat t.2⟩ (tx.coin height t.1),
        acc.1.ops ++ [⟨⟨tx.txid, UInt32.ofNat t.2⟩, none, some (tx.coin height t.1)⟩]⟩, acc.2 + t.1.value) := by
  unfold createOutput at ran
  dsimp only at ran
  split_ifs at ran with value sum taken
  cases ran
  exact ⟨by simpa using taken, by simpa using value, by simpa using sum, rfl⟩

/-- A transaction passes: no output of its id is there, both of its loops go through, and it pays for
its outputs unless it is a reward. -/
theorem walkTx_ok (ran : walkTx V height maturity w tx = .ok w') : V.hasTxid w.view tx.txid = .ok false ∧ ∃ x y,
      (if tx.coinbase then [] else tx.vin).foldlM (spendInput V height maturity) (w, 0) = .ok x ∧
      tx.vout.zipIdx.foldlM (createOutput V height tx) (x.1, 0) = .ok y ∧ y.1 = w' ∧
      ¬(!tx.coinbase && !tx.coinstake && x.2 < y.2) = true := by
  obtain ⟨seen, asked, ran⟩ := except_bind_ok ran
  split at ran
  · cases ran
  · next fresh =>
    obtain ⟨⟨x, valueIn⟩, spent, ran⟩ := except_bind_ok ran
    obtain ⟨⟨y, valueOut⟩, created, ran⟩ := except_bind_ok ran
    dsimp only at ran
    split at ran
    · cases ran
    · next fair =>
      cases ran
      exact ⟨by rw [asked, Bool.eq_false_iff.mpr fresh], (x, valueIn), (w', valueOut), spent, created, rfl, fair⟩

end Walk

/-! ## The builders -/

/-- A working copy of the whole set. -/
def stateView : CoinView UtxoState where
  hasTxid s txid := .ok (s.existsUnspentTxid txid)
  get := UtxoState.get
  spend := UtxoState.erase
  create := UtxoState.put

/-- The delta of a block and the set after it. -/
def buildDelta (base : UtxoState) (b : Block) (maturity : Int32) : Except ChainError (Delta × UtxoState) :=
  (walkBlock stateView b.height maturity base b.txs).map fun w => (w.ops, w.view)

/-- A read-only set of coins; a scan answers whether it worked and the keys it found. -/
structure UtxoReader where
  get : ByteArr 36 → Option Coin
  keysWithTxid : Hash → Bool × List (ByteArr 36)

/-- Created outputs shadow the base; spent keys hide base entries. -/
structure BlockView where
  base : UtxoReader
  present : AList fun _ : ByteArr 36 => Bool
  coin : AList fun _ : ByteArr 36 => Coin

namespace BlockView

def get (w : BlockView) (k : ByteArr 36) : Option Coin :=
  match w.present.lookup k with
  | some true => w.coin.lookup k
  | some false => none
  | none => w.base.get k

/-- The base's own answer, whether it worked or not, and the keys created here. -/
def keysWithTxid (w : BlockView) (txid : Hash) : Bool × List (ByteArr 36) :=
  (true, w.present.keys.filter (fun k => w.present.lookup k = some true && ofTxid txid k) ++
    (w.base.keysWithTxid txid).2.filter fun k => (w.present.lookup k).isNone)

def spend (w : BlockView) (k : ByteArr 36) : BlockView :=
  { w with present := w.present.insert k false, coin := w.coin.erase k }

def create (w : BlockView) (k : ByteArr 36) (c : Coin) : BlockView :=
  { w with present := w.present.insert k true, coin := w.coin.insert k c }

end BlockView

def overlayView : CoinView BlockView where
  hasTxid w txid :=
    match w.keysWithTxid txid with
    | (false, _) => .error ⟨.internal, "txid scan failed"⟩
    | (true, keys) => .ok !keys.isEmpty
  get w k := w.get k.keyBytes
  spend w k := w.spend k.keyBytes
  create w k c := w.create k.keyBytes c

/-- `BuildDeltaI`. -/
def buildDeltaI (base : UtxoReader) (b : Block) (maturity : Int32) : Except ChainError Delta :=
  (walkBlock overlayView b.height maturity ⟨base, ∅, ∅⟩ b.txs).map Work.ops

/-! ## Agreement -/

/-- The reader answers as the map does. -/
structure UtxoReader.Answers (r : UtxoReader) (base : UtxoState) : Prop where
  get : ∀ k, r.get k = base.lookup k
  keys : ∀ txid, (r.keysWithTxid txid).1 = true ∧
    ∀ k, k ∈ (r.keysWithTxid txid).2 ↔ k ∈ base ∧ ofTxid txid k = true

/-- The overlay over `base` holds the coins of the working copy. -/
structure Shadows (base s : UtxoState) (w : BlockView) : Prop where
  reader : w.base.Answers base
  get : ∀ k, w.get k = s.lookup k
  created : ∀ k, w.present.lookup k = some true → k ∈ s

private theorem Shadows.start (answers : r.Answers base) : Shadows base base ⟨r, ∅, ∅⟩ :=
  ⟨answers, answers.get, fun k found => by simp at found⟩

variable {base s : UtxoState}

section
variable (shadows : Shadows base s w)
include shadows

private theorem Shadows.spend (k : ByteArr 36) : Shadows base (AList.erase k s) (w.spend k) := by
  refine ⟨shadows.reader, fun j => ?_, fun j found => ?_⟩
  · by_cases same : j = k
    · subst same
      simp [BlockView.get, BlockView.spend]
    · rw [AList.lookup_erase_ne same, ← shadows.get j]
      simp [BlockView.get, BlockView.spend, AList.lookup_insert_ne same, AList.lookup_erase_ne same]
  · by_cases same : j = k
    · subst same
      simp [BlockView.spend] at found
    · rw [BlockView.spend, AList.lookup_insert_ne same] at found
      exact AList.mem_erase.mpr ⟨same, shadows.created j found⟩

private theorem Shadows.create (k : ByteArr 36) (c : Coin) :
    Shadows base (AList.insert k c s) (w.create k c) := by
  refine ⟨shadows.reader, fun j => ?_, fun j found => ?_⟩
  · by_cases same : j = k
    · subst same
      simp [BlockView.get, BlockView.create]
    · rw [AList.lookup_insert_ne same, ← shadows.get j]
      simp [BlockView.get, BlockView.create, AList.lookup_insert_ne same]
  · by_cases same : j = k
    · exact (AList.mem_insert s).mpr (.inl same)
    · rw [BlockView.create, AList.lookup_insert_ne same] at found
      exact (AList.mem_insert s).mpr (.inr (shadows.created j found))

private theorem Shadows.mem_keysWithTxid (txid : Hash) (k : ByteArr 36) :
    k ∈ (w.keysWithTxid txid).2 ↔ k ∈ s ∧ ofTxid txid k = true := by
  have here : k ∈ s ↔ (w.get k).isSome := by rw [shadows.get, AList.lookup_isSome]
  have there := (shadows.reader.keys txid).2 k
  rw [BlockView.keysWithTxid]
  simp only [List.mem_append, List.mem_filter, Bool.and_eq_true, decide_eq_true_eq, there]
  cases found : w.present.lookup k with
  | none =>
    rw [here, BlockView.get, found]
    simp [shadows.reader.get, AList.lookup_isSome]
  | some created =>
    cases created with
    | true =>
      have member : k ∈ w.present.keys := AList.mem_keys.mp (AList.lookup_isSome.mp (by rw [found]; rfl))
      simp [member, shadows.created k found]
    | false => simp [here, BlockView.get, found]

private theorem Shadows.hasTxid (txid : Hash) : overlayView.hasTxid w txid = stateView.hasTxid s txid := by
  show Except.ok (!(w.keysWithTxid txid).2.isEmpty) = Except.ok (s.existsUnspentTxid txid)
  congr 1
  rw [Bool.eq_iff_iff, Bool.not_eq_true', List.isEmpty_eq_false_iff_exists_mem, UtxoState.existsUnspentTxid,
    List.any_eq_true]
  exact exists_congr fun k => shadows.mem_keysWithTxid txid k

end

/-! ## The two walks -/

/-- Two walks at one point: the same operations, over coins that agree. -/
def SameWork (base : UtxoState) (x : Work UtxoState) (y : Work BlockView) : Prop :=
  Shadows base x.view y.view ∧ x.ops = y.ops

/-- In the middle of a transaction the summed values agree too. -/
def SameSum (base : UtxoState) (x : Work UtxoState × Int64) (y : Work BlockView × Int64) : Prop :=
  SameWork base x.1 y.1 ∧ x.2 = y.2

variable {height maturity : Int32}

private theorem spendInput_together (x : Work UtxoState × Int64) (y : Work BlockView × Int64)
    (i : TxIn) (same : SameSum base x y) :
    Together (SameSum base) (spendInput stateView height maturity x i)
      (spendInput overlayView height maturity y i) := by
  obtain ⟨⟨shadows, ops⟩, sum⟩ := same
  have found : overlayView.get y.1.view i.prev = stateView.get x.1.view i.prev := shadows.get i.prev.keyBytes
  unfold spendInput
  rw [found, ops, sum]
  split
  · exact together_error _
  · split_ifs
    · exact together_error _
    · exact together_error _
    · exact together_error _
    · exact together_ok ⟨⟨shadows.spend i.prev.keyBytes, rfl⟩, rfl⟩

private theorem createOutput_together (tx : Tx) (x : Work UtxoState × Int64) (y : Work BlockView × Int64)
    (t : TxOut × Nat) (same : SameSum base x y) :
    Together (SameSum base) (createOutput stateView height tx x t) (createOutput overlayView height tx y t) := by
  obtain ⟨⟨shadows, ops⟩, sum⟩ := same
  have found (k : OutPoint) : overlayView.get y.1.view k = stateView.get x.1.view k := shadows.get k.keyBytes
  unfold createOutput
  dsimp only
  rw [found, ops, sum]
  split_ifs
  · exact together_error _
  · exact together_error _
  · exact together_error _
  · exact together_ok ⟨⟨shadows.create _ _, rfl⟩, rfl⟩

private theorem walkTx_together (x : Work UtxoState) (y : Work BlockView) (tx : Tx) (same : SameWork base x y) :
    Together (SameWork base) (walkTx stateView height maturity x tx) (walkTx overlayView height maturity y tx) := by
  unfold walkTx
  rw [same.1.hasTxid]
  show Together _ (if x.view.existsUnspentTxid tx.txid then _ else _)
    (if x.view.existsUnspentTxid tx.txid then _ else _)
  split
  · exact together_error _
  · refine Together.bind (Together.foldlM spendInput_together _ (show SameSum base (x, 0) (y, 0) from ⟨same, rfl⟩)) ?_
    rintro ⟨x, valueIn⟩ ⟨y, _⟩ ⟨same, rfl⟩
    refine Together.bind
      (Together.foldlM (createOutput_together tx) _ (show SameSum base (x, 0) (y, 0) from ⟨same, rfl⟩)) ?_
    rintro ⟨x, valueOut⟩ ⟨y, _⟩ ⟨same, rfl⟩
    dsimp only
    split
    · exact together_error _
    · exact together_ok same

/-- The two builders agree: over a reader that answers as the map does, both fail with the
same error, or both succeed with the same operations in the same order. -/
theorem builders_agree (base : UtxoState) (r : UtxoReader) (answers : r.Answers base) (b : Block) (maturity : Int32) :
    buildDeltaI r b maturity = (buildDelta base b maturity).map Prod.fst := by
  have walked : Together (SameWork base) (walkBlock stateView b.height maturity base b.txs)
      (walkBlock overlayView b.height maturity ⟨r, ∅, ∅⟩ b.txs) :=
    Together.foldlM walkTx_together b.txs ⟨Shadows.start answers, rfl⟩
  have ops := walked.map_eq (p := Work.ops) (q := Work.ops) fun _ _ same => same.2
  rw [buildDeltaI, ← ops, buildDelta]
  cases walkBlock stateView b.height maturity base b.txs <;> rfl

/-- The map read as a reader. -/
def UtxoState.reader (s : UtxoState) : UtxoReader := ⟨s.lookup, fun txid => (true, s.keys.filter (ofTxid txid))⟩

private theorem UtxoState.reader_answers (s : UtxoState) : s.reader.Answers s :=
  ⟨fun _ => rfl, fun txid => ⟨rfl, fun k => by simp [UtxoState.reader, AList.mem_keys]⟩⟩

/-- A coin of 5 and the block that splits it and spends one of the halves again. -/
def splitBase : UtxoState := UtxoState.put ∅ ⟨ByteArr.zero 32, 0⟩ ⟨5, [], 1, 0, false, false⟩

def splitBlock : Block :=
  ⟨2, [⟨ByteArr.filled 32 1, false, false, [⟨⟨ByteArr.zero 32, 0⟩⟩], [⟨3, []⟩, ⟨2, []⟩]⟩,
    ⟨ByteArr.filled 32 2, false, false, [⟨⟨ByteArr.filled 32 1, 1⟩⟩], [⟨2, []⟩]⟩]⟩

theorem builders_agree_split : (buildDelta splitBase splitBlock 10).toOption.map (fun r => r.1.length) = some 5 ∧
    buildDeltaI splitBase.reader splitBlock 10 = (buildDelta splitBase splitBlock 10).map Prod.fst :=
  ⟨by decide +kernel, builders_agree splitBase splitBase.reader splitBase.reader_answers splitBlock 10⟩

end Innova.Chainstate
