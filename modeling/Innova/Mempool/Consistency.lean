import Innova.Mempool.Node

/-! The pool against the active chain. `mapNextTx` is always the index of what the pool spends; that every
input is still a coin or an output of the pool depends on what each step removes. -/
namespace Innova.Mempool
open Lib Chainstate

/-- Every input of a pool transaction is a coin of the active chain or an output of the pool. -/
def Supported (t : Txs) (n : Node) : Prop :=
  ∀ h ∈ n.pool.mapTx, ∀ o ∈ t.vin h, o ∈ coinsOf t n.chain ∨ ∃ q ∈ n.pool.mapTx, o ∈ t.outs q

structure Node.Consistent (t : Txs) (n : Node) : Prop where
  supported : Supported t n
  single : ∀ a ∈ n.pool.mapTx, ∀ b ∈ n.pool.mapTx, ∀ o ∈ t.vin a, o ∈ t.vin b → a = b
  indexed : n.pool.Indexed t

/-- What connecting `txs` takes from the pool beyond them: what is in conflict with them, and its heirs. -/
inductive Evicted (t : Txs) (p : Pool) (txs : List Hash) : Hash → Prop
  | conflict {h c : Hash} {o : OutPoint} (held : h ∈ p.mapTx) (connected : c ∈ txs) (other : h ≠ c)
    (spent : o ∈ t.vin h)
      (also : o ∈ t.vin c) : Evicted t p txs h
  | heir {q h : Hash} {o : OutPoint} (parent : Evicted t p txs q) (held : h ∈ p.mapTx) (spent : o ∈ t.vin h)
      (out : o ∈ t.outs q) : Evicted t p txs h

/-- The steps that keep the pool supported. -/
def Event.Clear {t : Txs} (n : Node) : Event t → Prop
  | .offer .. | .remove _ true => True
  -- no spender of the removed transaction is left behind
  | .remove h false => h ∈ n.pool.mapTx → ∀ y ∈ n.pool.mapTx, ∀ o ∈ t.vin y, o ∉ t.outs h
  -- the block takes no input of a pool transaction that it does not confirm
  | .extend block => ∀ y ∈ n.pool.mapTx, y ∉ block → ∀ o ∈ t.vin y, ∀ b ∈ block, o ∉ t.vin b
  -- what is left in the pool spends nothing that only the disconnected blocks created
  | .reorganize k connected _ =>
    ∀ y ∈ n.pool.mapTx, y ∉ connected.flatten → ¬ Evicted t n.pool connected.flatten y → ∀ o ∈ t.vin y,
      o ∈ coinsOf t (n.chain.drop k) ∨ (∃ c ∈ connected.flatten, o ∈ t.outs c) ∨ ∃ q ∈ n.pool.mapTx, o ∈ t.outs q

/-- An empty pool over a chain whose transactions TX-LOC all holds. -/
structure Node.Fresh (t : Txs) (n : Node) : Prop where
  empty : n.pool = .empty
  valid : Valid t n.chain
  located : confirmed n.chain ⊆ n.located

/-- The nodes that clear steps reach. -/
inductive Run (t : Txs) (estimate : Nat) (start : Node) : Node → Prop
  | start : Run t estimate start start
  | step {n : Node} {e : Event t} (run : Run t estimate start n) (ok : e.Succeeds n) (clear : e.Clear n) :
    Run t estimate start (n.step estimate e)

section
variable {t : Txs} {n : Node} {estimate : Nat} {connected : List Block}

theorem Node.Fresh.sound (fresh : n.Fresh t) : n.Sound t where
  valid := fresh.valid
  indexed o s := by simp [fresh.empty, Pool.empty]
  located := fresh.located
  apart h held := by simp [fresh.empty, Pool.empty] at held
  loose h held := by simp [fresh.empty, Pool.empty] at held

private theorem Node.Sound.consistent_iff (sound : n.Sound t) : n.Consistent t ↔ Supported t n :=
  ⟨Consistent.supported, fun supported =>
    ⟨supported, fun _ heldA _ heldB _ spentA spentB => sound.indexed.unique heldA heldB spentA spentB, sound.indexed⟩⟩

/-- What shares an input with a pool transaction is no coinbase. -/
theorem Loose.not_coinBase (loose : Loose t y) (spent : o ∈ t.vin y) (also : o ∈ t.vin b) : t.isCoinBase b = false := by
  by_contra minted
  rw [Bool.not_eq_false] at minted
  rw [t.coinBase b minted, List.mem_singleton] at also
  exact loose.nonnull (also ▸ spent)

/-- An output of a pool transaction is not a coin. -/
theorem Node.Sound.not_coin (sound : n.Sound t) (held : q ∈ n.pool.mapTx) (out : o ∈ t.outs q) :
    o ∉ coinsOf t n.chain := by
  intro coin
  have confirmed := confirmed_of_coin coin
  rw [(mem_outs.mp out).1] at confirmed
  exact sound.apart q held (sound.located confirmed)

private theorem supported_offer (supported : Supported t n) (h : Hash) : Supported t (offer t rules n h) := by
  unfold offer
  split
  case isFalse => exact supported
  case isTrue accepted =>
    have passed := accepted_of_accept accepted
    intro y held o spent
    rcases Finset.mem_insert.mp held with rfl | old
    · exact (passed.inputs o spent).imp_right fun ⟨parent, out⟩ => ⟨_, Finset.mem_insert_of_mem parent, out⟩
    · exact (supported y old o spent).imp_right fun ⟨q, parent, out⟩ => ⟨q, Finset.mem_insert_of_mem parent, out⟩

section
variable (sound : n.Sound t) (supported : Supported t n)
include sound supported

private theorem supported_remove_recursive (h : Hash) :
    Supported t { n with pool := n.pool.remove t h true } := by
  obtain ⟨pruned, -⟩ := remove_pruned (E := fun _ => True) (h := h) sound.indexed (fun _ _ _ _ _ _ _ => trivial) trivial
  intro y held o spent
  rcases supported y (pruned.subset held) o spent with coin | ⟨q, parent, out⟩
  · exact .inl coin
  · exact .inr ⟨q, pruned.closed y held o spent q parent out, out⟩

private theorem supported_remove_plain_iff (h : Hash) :
    Supported t { n with pool := n.pool.remove t h false } ↔ (Event.remove h false : Event t).Clear n := by
  constructor
  · intro after held y inside o spent out
    have creator := (mem_outs.mp out).1
    have other : y ≠ h := by
      rintro rfl
      have lower := t.covers y o spent
      rw [creator] at lower
      exact lt_irrefl _ lower
    have stays : y ∈ (n.pool.remove t h false).mapTx := by simp [other, inside]
    rcases after y stays o spent with coin | ⟨q, parent, same⟩
    · exact sound.not_coin held out coin
    · have gone : q = h := (mem_outs.mp same).1.symm.trans creator
      simp [gone] at parent
  · intro clear y inside o spent
    have old : y ∈ n.pool.mapTx := by simp at inside; exact inside.2
    rcases supported y old o spent with coin | ⟨q, parent, out⟩
    · exact .inl coin
    · have other : q ≠ h := by
        rintro rfl
        exact clear parent y old o spent out
      exact .inr ⟨q, by simp [other, parent], out⟩

private theorem supported_extend_iff (valid : Valid t (block :: n.chain)) :
    Supported t (extend t n block) ↔ (Event.extend block : Event t).Clear n := by
  obtain ⟨-, members⟩ := remove_plain_all block sound.indexed
  have sound' := sound_extend sound valid
  constructor
  · intro after y held outside o spent b inside also
    have spends := (mem_spends ((sound.loose y held).not_coinBase spent also)).mpr also
    have connected : b ∈ history (block :: n.chain) := by simp [history_cons, inside]
    rcases after y ((members y).mpr ⟨held, outside⟩) o spent with coin | ⟨q, parent, out⟩
    · exact valid.available.spent valid.once connected spends (coinsOf_eq t (block :: n.chain) ▸ coin)
    · have creator := mem_history.mp (valid.available.source_txid connected spends)
      rw [(mem_outs.mp out).1] at creator
      exact sound'.apart q parent (sound'.located creator)
  · intro clear y inside o spent
    obtain ⟨held, outside⟩ := (members y).mp inside
    have coin_or_pool (source : o ∈ coinsOf t n.chain ∨ ∃ c ∈ block, o ∈ t.outs c) :
        o ∈ coinsOf t (extend t n block).chain := by
      rcases mem_connect_or_spent source with coin | ⟨b, member, spends⟩
      · exact coin
      · exact absurd (mem_vin_of_spends spends) (clear y held outside o spent b member)
    rcases supported y held o spent with coin | ⟨q, parent, out⟩
    · exact .inl (coin_or_pool (.inl coin))
    · by_cases here : q ∈ block
      · exact .inl (coin_or_pool (.inr ⟨q, here, out⟩))
      · exact .inr ⟨q, (members q).mpr ⟨parent, here⟩, out⟩

end

/-! ## Reorganisations -/

private theorem coinsOf_reorganized (t : Txs) (connected rest : List Block) :
    coinsOf t (connected.reverse ++ rest) = connect t (coinsOf t rest) connected.flatten := by
  rw [coinsOf_eq, history_append, connect_append, ← coinsOf_eq]

private theorem Evicted.pooled (evicted : Evicted t n.pool txs h) : h ∈ n.pool.mapTx := by
  cases evicted <;> assumption

/-- What is evicted is not confirmed by the same branch: no coin is spent twice, and a confirmed transaction
has confirmed parents. -/
theorem evicted_unconnected (sound : n.Sound t) (valid : Valid t (connected.reverse ++ n.chain.drop k))
    (evicted : Evicted t n.pool connected.flatten h) : h ∉ connected.flatten := by
  have listed {x : Hash} (inside : x ∈ connected.flatten) : x ∈ history (connected.reverse ++ n.chain.drop k) := by
    rw [history_append]
    exact List.mem_append_right _ inside
  induction evicted with
  | @conflict h c o held inside other spent also =>
    intro here
    have loose := sound.loose h held
    have mine := (mem_spends loose.loose).mpr spent
    have theirs := (mem_spends (loose.not_coinBase spent also)).mpr also
    exact other (valid.available.spent_once valid.once (listed here) (listed inside) mine theirs)
  | @heir q h o parent held spent out ih =>
    intro here
    have creator := valid.available.source_txid (listed here) ((mem_spends (sound.loose h held).loose).mpr spent)
    rw [(mem_outs.mp out).1, history_append] at creator
    rcases List.mem_append.mp creator with older | inside
    · exact sound.apart q parent.pooled (sound.located (confirmed_drop n.chain k (mem_history.mp older)))
    · exact ih inside

/-- The last loop of `Reorganize` leaves what is neither connected nor evicted. -/
theorem stays_iff (sound : n.Sound t) (valid : Valid t (connected.reverse ++ n.chain.drop k)) :
    h ∈ (connected.flatten.foldl (sweep t) n.pool).mapTx ↔
      h ∈ n.pool.mapTx ∧ h ∉ connected.flatten ∧ ¬ Evicted t n.pool connected.flatten h := by
  have swept : Pool.Swept t (Evicted t n.pool connected.flatten) connected.flatten n.pool _ :=
    foldl_sweep_swept sound.indexed (fun _ parent _ held _ spent out => .heir parent held spent out)
      fun _ held _ inside other _ spent also => .conflict held inside other spent also
  constructor
  · intro stays
    refine ⟨swept.subset stays, fun inside => swept.gone h inside stays, fun evicted => ?_⟩
    induction evicted with
    | conflict held inside other spent also =>
      exact swept.indexed.unspent (swept.free _ inside _ also) stays spent
    | heir parent held spent out ih =>
      rcases swept.closed _ stays _ spent _ parent.pooled out with kept | inside
      · exact ih kept
      · exact evicted_unconnected sound valid parent inside
  · rintro ⟨held, outside, untouched⟩
    by_contra lost
    rcases swept.only h held lost with inside | evicted
    · exact outside inside
    · exact untouched evicted

private theorem supported_reorganize_iff (sound : n.Sound t) (valid : Valid t (connected.reverse ++ n.chain.drop k)) :
    Supported t (reorganize t rules estimate n k connected) ↔ (Event.reorganize k connected rules).Clear n := by
  rw [reorganize_eq sound.located]
  constructor
  · intro after y held outside untouched o spent
    rcases after y ((stays_iff sound valid).mpr ⟨held, outside, untouched⟩) o spent with coin | ⟨q, parent, out⟩
    · rw [coinsOf_reorganized] at coin
      rcases of_mem_connect coin with old | ⟨c, inside, created⟩
      · exact .inl old
      · exact .inr (.inl ⟨c, inside, created⟩)
    · exact .inr (.inr ⟨q, ((stays_iff sound valid).mp parent).1, out⟩)
  · intro clear y stays o spent
    obtain ⟨held, outside, untouched⟩ := (stays_iff sound valid).mp stays
    -- a connected transaction that spends the coin would have evicted this one
    have coin (source : o ∈ coinsOf t (n.chain.drop k) ∨ ∃ c ∈ connected.flatten, o ∈ t.outs c) :
        o ∈ coinsOf t (connected.reverse ++ n.chain.drop k) := by
      rw [coinsOf_reorganized]
      rcases mem_connect_or_spent source with coin | ⟨c, inside, spends⟩
      · exact coin
      · refine absurd (Evicted.conflict held inside ?_ spent (mem_vin_of_spends spends)) untouched
        rintro rfl
        exact outside inside
    rcases clear y held outside untouched o spent with old | created | ⟨q, parent, out⟩
    · exact .inl (coin (.inl old))
    · exact .inl (coin (.inr created))
    · by_cases inside : q ∈ connected.flatten
      · exact .inl (coin (.inr ⟨q, inside, out⟩))
      · refine .inr ⟨q, (stays_iff sound valid).mpr ⟨parent, inside, fun evicted => ?_⟩, out⟩
        exact untouched (.heir evicted held spent out)

private theorem supported_step_iff (sound : n.Sound t) (supported : Supported t n) {e : Event t} (ok : e.Succeeds n) :
    Supported t (n.step estimate e) ↔ e.Clear n := by
  cases e with
  | offer rules h => exact iff_of_true (supported_offer supported h) trivial
  | remove h fRecursive =>
    cases fRecursive with
    | true => exact iff_of_true (supported_remove_recursive sound supported h) trivial
    | false => exact supported_remove_plain_iff sound supported h
  | extend block => exact supported_extend_iff sound supported ok
  | reorganize k connected rules => exact supported_reorganize_iff sound ok

private theorem Run.sound_supported {start : Node} (fresh : start.Fresh t) (run : Run t estimate start n) :
    n.Sound t ∧ Supported t n := by
  induction run with
  | start => exact ⟨fresh.sound, fun h held => by simp [fresh.empty, Pool.empty] at held⟩
  | step run ok clear ih => exact ⟨sound_step ih.1 ok, (supported_step_iff ih.1 ih.2 ok).mpr clear⟩

/-- In every run of clear steps the pool is consistent with the active chain, and a step breaks it exactly
when it is not clear. -/
theorem pool_consistent_iff {start : Node} (fresh : start.Fresh t) (run : Run t estimate start n) :
    n.Consistent t ∧ ∀ e : Event t, e.Succeeds n → ((n.step estimate e).Consistent t ↔ e.Clear n) := by
  obtain ⟨sound, supported⟩ := run.sound_supported fresh
  refine ⟨sound.consistent_iff.mpr supported, fun e ok => ?_⟩
  rw [(sound_step sound ok).consistent_iff]
  exact supported_step_iff sound supported ok

end

namespace DoubleSpend

def coinBase : Hash := ByteArr.filled 32 1

def first : Hash := ByteArr.filled 32 2

def second : Hash := ByteArr.filled 32 3

/-- The coinbases of two blocks at height 1. -/
def reward : Hash := ByteArr.filled 32 4
def later : Hash := ByteArr.filled 32 5

def coin : OutPoint := ⟨coinBase, 0⟩

/-- Two transactions that spend the output of one coinbase. -/
def txs : Txs where
  vin h := if h ∈ [coinBase, reward, later] then [nullOutPoint] else if h ∈ [first, second] then [coin] else []
  nOut _ := 1
  isCoinBase h := decide (h ∈ [coinBase, reward, later])
  isCoinStake _ := false
  pushedHeight h := if h = coinBase then 0 else 1
  rank h := if h ∈ [first, second] then 2 else if h ∈ [coinBase, reward, later] then 1 else 0
  covers h o spent := by
    split at spent
    · next minted =>
      obtain rfl := List.mem_singleton.mp spent
      revert h
      decide
    · split at spent
      · next spender =>
        obtain rfl := List.mem_singleton.mp spent
        rw [if_pos spender]
        decide
      · cases spent
  coinBase h minted := if_pos (of_decide_eq_true minted)

def rules : Rules txs := ⟨fun _ => true, fun _ => true, fun _ => true⟩

def start : Node := ⟨.empty, [[coinBase]], {coinBase}⟩

theorem start_fresh : start.Fresh txs where
  empty := rfl
  valid := by decide
  located := by decide

def pooled : Node := start.step 0 (.offer rules first)

private theorem pooled_run : Run txs 0 start pooled := .step .start trivial trivial

/-- A block with the other spender. -/
def conflicting : Event txs := .extend [reward, second]

/-- It leaves the first spender in the pool without its input. -/
theorem conflicting_block_strands_spender : start.Fresh txs ∧ Run txs 0 start pooled ∧ conflicting.Succeeds pooled ∧
    ¬ (pooled.step 0 conflicting).Consistent txs := by
  have valid : Valid txs [[reward, second], [coinBase]] := by decide
  refine ⟨start_fresh, pooled_run, valid, fun consistent => ?_⟩
  have stays : first ∈ (pooled.step 0 conflicting).pool.mapTx := by decide
  have spent : coin ∈ txs.vin first := by decide
  rcases consistent.supported first stays coin spent with unspent | created
  · exact absurd unspent (by decide)
  · exact absurd created (by decide)

/-- The pool that holds the first spender is consistent. -/
theorem pool_consistent_pooled : start.Fresh txs ∧ first ∈ pooled.pool.mapTx ∧ pooled.Consistent txs ∧
      ∀ e : Event txs, e.Succeeds pooled → ((pooled.step 0 e).Consistent txs ↔ e.Clear pooled) :=
  ⟨start_fresh, by decide, pool_consistent_iff start_fresh pooled_run⟩

end DoubleSpend

/-- An event that succeeds leads from `n` to `n'`. -/
def Node.Moves (t : Txs) (estimate : Nat) (n n' : Node) : Prop := ∃ e : Event t, e.Succeeds n ∧ n' = n.step estimate e

/-- Even in a history that is not clear the pool spends no outpoint twice, `mapNextTx` is its index, and it holds
no coinbase and nothing the active chain confirms. -/
theorem pool_exclusive {t : Txs} {estimate : Nat} {start n : Node} (fresh : start.Fresh t)
    (run : Relation.ReflTransGen (Node.Moves t estimate) start n) : n.pool.Indexed t ∧
      (∀ a ∈ n.pool.mapTx, ∀ b ∈ n.pool.mapTx, ∀ o ∈ t.vin a, o ∈ t.vin b → a = b) ∧
        ∀ h ∈ n.pool.mapTx, t.isCoinBase h = false ∧ h ∉ confirmed n.chain := by
  have sound : n.Sound t := by
    induction run with
    | refl => exact fresh.sound
    | tail _ moved ih =>
      obtain ⟨e, ok, rfl⟩ := moved
      exact sound_step ih ok
  refine ⟨sound.indexed, fun a heldA b heldB o spentA spentB => ?_, fun h held => ?_⟩
  · exact sound.indexed.unique heldA heldB spentA spentB
  · exact ⟨(sound.loose h held).loose, fun inside => sound.apart h held (sound.located inside)⟩

namespace DoubleSpend

/-- After the conflicting block as well. -/
theorem pool_exclusive_conflicting : second ∈ confirmed (pooled.step 0 conflicting).chain ∧
    first ∈ (pooled.step 0 conflicting).pool.mapTx ∧ first ∉ confirmed (pooled.step 0 conflicting).chain := by
  have held : first ∈ (pooled.step 0 conflicting).pool.mapTx := by decide
  have valid : Valid txs [[reward, second], [coinBase]] := by decide
  have offered : Node.Moves txs 0 start pooled := ⟨.offer rules first, trivial, rfl⟩
  have extended : Node.Moves txs 0 pooled (pooled.step 0 conflicting) := ⟨conflicting, valid, rfl⟩
  exact ⟨by decide, held,
    ((pool_exclusive start_fresh ((Relation.ReflTransGen.single offered).tail extended)).2.2 first held).2⟩

end DoubleSpend

end Innova.Mempool
