import Innova.Mempool.Consistency

/-! The presence gates of the pool. TX-LOC keeps the location of a transaction whose block was disconnected,
and the gates read it as presence on the active chain. -/
namespace Innova.Mempool
open Lib Chainstate

/-- The gates answer for the active chain and the pool. -/
structure Node.Gated (t : Txs) (n : Node) : Prop where
  known : ∀ (rules : Rules t) (h : Hash), accept t rules n h = .known → h ∈ n.pool.mapTx ∨ h ∈ confirmed n.chain
  spent : ∀ o : OutPoint, classify t n o = .spent → o.txid ∈ confirmed n.chain

/-- What meets the rules that are not about presence. -/
def Rules.Pass {t : Txs} (rules : Rules t) (h : Hash) : Prop :=
  t.Checked h ∧ rules.admits h = true ∧ rules.standard h = true ∧ rules.relay h = true

/-- A queued transaction of the disconnected blocks is in the pool again when the new chain does not confirm
it, its inputs are available and it meets the rules. -/
def Event.Readmits {t : Txs} (estimate : Nat) (n : Node) : Event t → Prop
  | .reorganize k connected rules =>
    let after := n.step estimate (.reorganize k connected rules)
    ∀ h ∈ resurrect t estimate k n.chain, h ∉ confirmed after.chain →
      (∀ o ∈ t.vin h, o ∈ coinsOf t after.chain ∨ ∃ q ∈ after.pool.mapTx, o ∈ t.outs q) → rules.Pass h →
        h ∈ after.pool.mapTx
  | _ => True

/-- The new chain confirms again what the disconnected blocks confirmed. -/
def Event.Reconfirms {t : Txs} (n : Node) : Event t → Prop
  | .reorganize k connected _ => confirmed (n.chain.take k) ⊆ confirmed (connected.reverse ++ n.chain.drop k)
  | _ => True

/-- The nodes that such steps reach. -/
inductive Reconfirming (t : Txs) (estimate : Nat) (start : Node) : Node → Prop
  | start : Reconfirming t estimate start start
  | step {n : Node} {e : Event t} (run : Reconfirming t estimate start n) (ok : e.Succeeds n) (again : e.Reconfirms n) :
    Reconfirming t estimate start (n.step estimate e)

section
variable {t : Txs} {n : Node} {estimate : Nat}

/-- The gates answer for the active chain exactly when TX-LOC holds nothing else. -/
theorem Node.Sound.gated_iff (sound : n.Sound t) : n.Gated t ↔ n.located ⊆ confirmed n.chain := by
  constructor
  · intro gated h located
    by_contra unconfirmed
    have unpooled : h ∉ n.pool.mapTx := fun held => sound.apart h held located
    have spent : (⟨h, 0⟩ : OutPoint) ∉ coinsOf t n.chain := fun coin => unconfirmed (confirmed_of_coin coin)
    have class_ : classify t n ⟨h, 0⟩ = .spent := by simp only [classify, if_neg unpooled, if_neg spent, if_pos located]
    exact unconfirmed (gated.spent ⟨h, 0⟩ class_)
  · intro only
    refine ⟨fun rules h known => ?_, fun o spent => ?_⟩
    · have meets := accept_meets rules n h
      rw [known] at meets
      cases meets with
      | known present =>
        rcases present with pooled | located | unspent
        · exact .inl pooled
        · exact .inr (only located)
        · obtain ⟨o, coin, rfl⟩ := of_decide_eq_true unspent
          exact .inr (confirmed_of_coin coin)
      | other apart => exact absurd rfl apart.1
    · unfold classify at spent
      split_ifs at spent with overlay coin located
      exact only located

private theorem located_step_iff (sound : n.Sound t) (only : n.located ⊆ confirmed n.chain) (e : Event t) :
    (n.step estimate e).located ⊆ confirmed (n.step estimate e).chain ↔ e.Reconfirms n := by
  cases e with
  | offer rules h =>
    refine iff_of_true ?_ trivial
    simp only [Node.step, offer]
    split <;> exact only
  | remove h fRecursive => exact iff_of_true only trivial
  | extend block =>
    refine iff_of_true ?_ trivial
    simp only [Node.step, extend, confirmed, List.flatten_cons, List.toFinset_append]
    rw [Finset.union_comm]
    exact Finset.union_subset_union_right only
  | reorganize k connected rules =>
    simp only [Node.step, Event.Reconfirms]
    rw [reorganize_eq sound.located]
    have parts : confirmed n.chain = confirmed (n.chain.take k) ∪ confirmed (n.chain.drop k) := by
      rw [confirmed, confirmed, confirmed, ← List.toFinset_append, ← List.flatten_append, List.take_append_drop]
    have same : n.located = confirmed n.chain := only.antisymm sound.located
    rw [confirmed_append, same, parts]
    constructor
    · exact fun all => (Finset.subset_union_left.trans Finset.subset_union_left).trans all
    · intro again
      refine Finset.union_subset (Finset.union_subset again ?_) Finset.subset_union_left
      exact Finset.subset_union_right

private theorem Event.Reconfirms.readmits {e : Event t} (again : e.Reconfirms n) (sound : n.Sound t) :
    e.Readmits estimate n := by
  cases e with
  | reorganize k connected rules =>
    intro h queued unconfirmed
    refine absurd (again (mem_resurrect queued)) ?_
    simpa only [Node.step, reorganize_eq sound.located] using unconfirmed
  | _ => trivial

private theorem Reconfirming.sound_only {start : Node} (fresh : start.Fresh t)
    (only : start.located ⊆ confirmed start.chain)
    (run : Reconfirming t estimate start n) : n.Sound t ∧ n.located ⊆ confirmed n.chain := by
  induction run with
  | start => exact ⟨fresh.sound, only⟩
  | step run ok again ih => exact ⟨sound_step ih.1 ok, (located_step_iff ih.1 ih.2 _).mpr again⟩

/-- In every history whose reorganisations confirm again what they disconnect, the gates answer for the active
chain and the pool; the first reorganisation that does not is where they stop to. -/
theorem presence_gates_iff {start : Node} (fresh : start.Fresh t) (only : start.located ⊆ confirmed start.chain)
    (run : Reconfirming t estimate start n) : n.Gated t ∧ ∀ e : Event t, e.Succeeds n →
      ((n.step estimate e).Gated t ∧ e.Readmits estimate n ↔ e.Reconfirms n) := by
  obtain ⟨sound, held⟩ := run.sound_only fresh only
  refine ⟨sound.gated_iff.mpr held, fun e ok => ?_⟩
  rw [(sound_step sound ok).gated_iff, located_step_iff sound held]
  exact ⟨And.left, fun again => ⟨again, again.readmits sound⟩⟩

end

namespace DoubleSpend

def mined : Node := start.step 0 (.extend [reward, first] : Event txs)

private theorem mined_run : Reconfirming txs 0 start mined := by
  have valid : Valid txs [[reward, first], [coinBase]] := by decide
  exact .step .start valid trivial

/-- The block is replaced by one with nothing but its coinbase. -/
def replaced : Event txs := .reorganize 1 [[later]] rules

/-- The transaction of the replaced block is unconfirmed and its input is a coin again, but the gate refuses
it as known, so it does not come back, and its own outputs count as spent. -/
theorem disconnected_stays_known :
    start.Fresh txs ∧ start.located ⊆ confirmed start.chain ∧ Reconfirming txs 0 start mined ∧ replaced.Succeeds mined ∧
      accept txs rules (mined.step 0 replaced) first = .known ∧ first ∉ confirmed (mined.step 0 replaced).chain ∧
      ¬ (mined.step 0 replaced).Gated txs ∧ ¬ replaced.Readmits 0 mined := by
  have valid : Valid txs [[later], [coinBase]] := by decide
  refine ⟨start_fresh, by decide, mined_run, valid, by decide, by decide, fun gated => ?_, fun back => ?_⟩
  · have spent : classify txs (mined.step 0 replaced) ⟨first, 0⟩ = .spent := by decide
    exact absurd (gated.spent ⟨first, 0⟩ spent) (by decide)
  · have pooled := back first (by decide) (by decide) (by decide) ⟨by decide, rfl, rfl, rfl⟩
    exact absurd pooled (by decide)

theorem presence_gates_mined : first ∈ confirmed mined.chain ∧ mined.Gated txs ∧ ∀ e : Event txs, e.Succeeds mined →
      ((mined.step 0 e).Gated txs ∧ e.Readmits 0 mined ↔ e.Reconfirms mined) :=
  ⟨by decide, presence_gates_iff start_fresh (by decide) mined_run⟩

end DoubleSpend

end Innova.Mempool
