import Innova.Chainstate.Delta
import Mathlib.Algebra.BigOperators.Group.List.Basic

/-! The value in a UTXO set across a block (`chainstate.cpp`). The sums of the walk are 64-bit,
the totals here are exact: the money range keeps every partial sum far from the edge. -/
namespace Innova.Chainstate
open Lib

/-- Every key of the set is the key of an outpoint. -/
theorem OutPoint.keyBytes_ofKey (k : ByteArr 36) : (OutPoint.ofKey k).keyBytes = k := by
  obtain ⟨b, size⟩ := k
  have index : (Bytes.slice b 32 4).length = 4 := Bytes.slice_length (by omega)
  have small : Bytes.toNat (Bytes.slice b 32 4) < 2 ^ 32 := by
    rw [← Bytes.le_toNat (Bytes.slice b 32 4), Bytes.toNat_le, index]
    exact Nat.mod_lt _ (by decide)
  have number := Bytes.le_toNat (Bytes.slice b 32 4)
  rw [index] at number
  have txid : (ByteArr.read 32 b 0).val = b.take 32 := by
    simp [ByteArr.read, Bytes.slice, size]
  refine Subtype.ext ?_
  show (ByteArr.read 32 b 0).val ++ Bytes.le 4 (UInt32.ofNat _).toNat = b
  rw [txid, UInt32.toNat_ofNat_of_lt' small, number, Bytes.slice,
    List.take_of_length_le (l := b.drop 32) (by simp [size]), List.take_append_drop]

namespace UtxoState

/-- The exact sum of the values of all coins. -/
def total (s : UtxoState) : Int := (s.entries.map fun e => e.2.value.toInt).sum

variable {s : UtxoState}

private theorem total_put (absent : s.get k = none) : (s.put k c).total = s.total + c.value.toInt := by
  have fresh : k.keyBytes ∉ s := AList.lookup_eq_none.mp absent
  rw [total, put, AList.entries_insert_of_notMem fresh, Int.add_comm]
  rfl

private theorem total_erase (found : s.get k = some c) : (s.erase k).total + c.value.toInt = s.total := by
  have member : k.keyBytes ∈ s.keys :=
    AList.mem_keys.mp (AList.lookup_isSome.mp (by rw [get] at found; rw [found]; rfl))
  obtain ⟨c', before, after, -, whole, rest⟩ := List.exists_of_kerase member
  have held : (⟨k.keyBytes, c'⟩ : Sigma fun _ : ByteArr 36 => Coin) ∈ s.entries := by rw [whole]; simp
  have same : c' = c := Option.mem_unique (AList.mem_lookup_iff.mpr held) found
  show ((List.kerase k.keyBytes s.entries).map _).sum + _ = (s.entries.map _).sum
  rw [rest, whole, same]
  simp only [List.map_append, List.sum_append, List.map_cons, List.sum_cons]
  omega

end UtxoState

/-! ## Partial sums -/

private theorem moneyRange_iff : moneyRange v = true ↔ 0 ≤ v.toInt ∧ v.toInt ≤ 2100000000000000 := by
  simp only [moneyRange, Bool.and_eq_true, decide_eq_true_eq, Int64.le_iff_toInt_le]
  rfl

/-- In the money range a 64-bit sum is the sum. -/
theorem toInt_add_of_range (sum : moneyRange a = true) (value : moneyRange v = true) :
    (a + v).toInt = a.toInt + v.toInt := by
  rw [moneyRange_iff] at sum value
  rw [Int64.toInt_add]
  exact Int.bmod_eq_of_le (by norm_num; omega) (by norm_num; omega)

/-! ## The walk -/

section Walk
variable {height maturity : Int32}

/-- What the operations recorded so far say of the working copy, and of the coins they spend. -/
structure Kept (base : UtxoState) (height maturity : Int32) (w : Work UtxoState) : Prop where
  applied : applyDelta base w.ops = w.view
  sequential : CoinSet.Sequential base.get w.ops
  mature : ∀ o ∈ w.ops, ∀ c, o.before = some c → (c.fCoinBase || c.fCoinStake) = true →
    maturity.toInt ≤ height.toInt - c.height.toInt

private theorem Kept.record (kept : Kept base height maturity w) (found : w.view.get o.op = o.before)
    (mature : ∀ c, o.before = some c → (c.fCoinBase || c.fCoinStake) = true →
    maturity.toInt ≤ height.toInt - c.height.toInt) :
    Kept base height maturity ⟨w.view.set o.op o.after, w.ops ++ [o]⟩ := by
  have here : CoinSet.apply base.get w.ops o.op = o.before := by rw [← get_applyDelta, kept.applied, found]
  refine ⟨?_, CoinSet.sequential_append.mpr ⟨kept.sequential, here, trivial⟩, fun p member => ?_⟩
  · rw [applyDelta, List.foldl_append]
    show (applyDelta base w.ops).set o.op o.after = _
    rw [kept.applied]
  · rcases List.mem_append.mp member with earlier | last
    · exact kept.mature p earlier
    · rw [List.mem_singleton.mp last]
      exact mature

/-- Within a transaction: the books kept so far, a sum in range, and the total against it. -/
def Summing (base : UtxoState) (height maturity : Int32) (balance : Int → Int → Prop)
    (acc : Work UtxoState × Int64) : Prop :=
  Kept base height maturity acc.1 ∧ moneyRange acc.2 = true ∧ balance acc.1.view.total acc.2.toInt

private theorem spendInput_sums (acc : Work UtxoState × Int64) (i : TxIn) (acc' : Work UtxoState × Int64)
    (sums : Summing base height maturity (fun total sum => total + sum = start) acc)
    (ran : spendInput stateView height maturity acc i = .ok acc') :
    Summing base height maturity (fun total sum => total + sum = start) acc' := by
  obtain ⟨kept, range, balance⟩ := sums
  obtain ⟨c, found, mature, value, sum, rfl⟩ := spendInput_ok ran
  refine ⟨kept.record (o := ⟨i.prev, some c, none⟩) found fun c' same => Option.some.inj same ▸ mature, sum, ?_⟩
  have erased := UtxoState.total_erase found
  have exact_sum := toInt_add_of_range range value
  show (acc.1.view.erase i.prev).total + _ = start
  dsimp only
  omega

private theorem createOutput_sums (acc : Work UtxoState × Int64) (t : TxOut × Nat) (acc' : Work UtxoState × Int64)
    (sums : Summing base height maturity (fun total sum => total = start + sum) acc)
    (ran : createOutput stateView height tx acc t = .ok acc') :
    Summing base height maturity (fun total sum => total = start + sum) acc' ∧
      acc'.2.toInt ≤ acc.2.toInt + t.1.value.toInt := by
  obtain ⟨kept, range, balance⟩ := sums
  obtain ⟨absent, value, sum, rfl⟩ := createOutput_ok ran
  have exact_sum := toInt_add_of_range range value
  have added := UtxoState.total_put (c := tx.coin height t.1) absent
  refine ⟨⟨kept.record (o := ⟨_, none, some (tx.coin height t.1)⟩) absent nofun, sum, ?_⟩, exact_sum.le⟩
  have stands : acc.1.view.total + t.1.value.toInt = start + (acc.2 + t.1.value).toInt := by omega
  exact added.trans stands

/-- The new money a transaction may bring into the set. -/
def Tx.minted (tx : Tx) : Int := if tx.coinbase || tx.coinstake then (tx.vout.map fun t => t.value.toInt).sum else 0

private theorem walkTx_total (w : Work UtxoState) (tx : Tx) (w' : Work UtxoState) (kept : Kept base height maturity w)
    (ran : walkTx stateView height maturity w tx = .ok w') :
    Kept base height maturity w' ∧ w'.view.total ≤ w.view.total + tx.minted := by
  obtain ⟨-, ⟨x, valueIn⟩, ⟨_, valueOut⟩, spent, created, rfl, fair⟩ := walkTx_ok ran
  obtain ⟨keptX, rangeX, balanceX⟩ := foldlM_keeps spendInput_sums _
    (show Summing base height maturity (fun total sum => total + sum = w.view.total)
      (w, 0) from ⟨kept, rfl, Int.add_zero _⟩) spent
  obtain ⟨⟨keptY, rangeY, balanceY⟩, outputs⟩ :=
    foldlM_bounded (m := fun acc => acc.2.toInt) (g := fun t => t.1.value.toInt)
    createOutput_sums _
    (show Summing base height maturity (fun total sum => total = x.view.total + sum)
      (x, 0) from ⟨keptX, rfl, (Int.add_zero _).symm⟩)
    created
  have unindexed : tx.vout.zipIdx.map (fun t => t.1.value.toInt) = tx.vout.map fun t => t.value.toInt := by
    conv_rhs => rw [← List.zipIdx_map_fst 0 tx.vout, List.map_map]
    rfl
  rw [unindexed] at outputs
  rw [moneyRange_iff] at rangeX
  dsimp only at fair balanceX balanceY outputs rangeX
  refine ⟨keptY, ?_⟩
  dsimp only
  -- A reward may add its outputs; any other transaction pays for them with its inputs.
  unfold Tx.minted
  split
  · have none : (0 : Int64).toInt = 0 := rfl
    omega
  · next plain =>
    have paid : valueOut.toInt ≤ valueIn.toInt := by
      by_contra less
      simp_all [Int64.lt_iff_toInt_lt]
    omega

/-- What building the delta of a block does to the set: applying the delta gives the new set,
reverting it gives the old one back, it spends no reward below maturity, and it adds no more
value than the outputs of the block's rewards. -/
theorem buildDelta_exact {base s : UtxoState} {b : Block} {d : Delta}
    (built : buildDelta base b maturity = .ok (d, s)) :
    applyDelta base d = s ∧ (∀ k, (revertDelta (applyDelta base d) d).lookup k = base.lookup k) ∧
      (∀ o ∈ d, ∀ c, o.before = some c → (c.fCoinBase || c.fCoinStake) = true →
        maturity.toInt ≤ b.height.toInt - c.height.toInt) ∧ s.total ≤ base.total + (b.txs.map Tx.minted).sum := by
  unfold buildDelta at built
  cases walked : walkBlock stateView b.height maturity base b.txs with
  | error e => rw [walked] at built; cases built
  | ok w =>
    rw [walked] at built
    cases built
    obtain ⟨kept, total⟩ := foldlM_bounded (m := fun w => w.view.total) (g := Tx.minted) walkTx_total b.txs
      (show Kept base b.height maturity ⟨base, []⟩ from ⟨rfl, trivial, nofun⟩) walked
    refine ⟨kept.applied, fun k => ?_, kept.mature, total⟩
    rw [← OutPoint.keyBytes_ofKey k]
    have reverted : (revertDelta (applyDelta base w.ops) w.ops).get = base.get := by
      rw [get_revertDelta, get_applyDelta, kept.sequential.revert_apply]
    exact congrFun reverted (OutPoint.ofKey k)

theorem buildDelta_exact_split : ∃ d s, buildDelta splitBase splitBlock 10 = .ok (d, s) ∧
    applyDelta splitBase d = s ∧ s.total ≤ splitBase.total + (splitBlock.txs.map Tx.minted).sum := by
  cases built : buildDelta splitBase splitBlock 10 with
  | error e =>
    have works : (buildDelta splitBase splitBlock 10).toOption.isSome = true := by decide +kernel
    rw [built] at works
    cases works
  | ok r => exact ⟨r.1, r.2, rfl, (buildDelta_exact built).1, (buildDelta_exact built).2.2.2⟩

end Walk
end Innova.Chainstate
