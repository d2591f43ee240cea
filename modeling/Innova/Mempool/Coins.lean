import Innova.Mempool.Pool
import Mathlib.Data.Finset.SDiff
import Mathlib.Data.Finset.Lattice.Basic

/-! The coins of a chain: what `ConnectBlock` takes from and adds to the coin store, transaction by
transaction, and that no transaction is confirmed twice. -/
namespace Innova.Mempool
open Lib Chainstate

/-- `CheckTransaction`, as far as it is about the inputs. -/
structure Txs.Checked (t : Txs) (h : Hash) : Prop where
  nonempty : t.vin h ≠ []
  distinct : (t.vin h).Nodup
  nonnull : t.isCoinBase h = false → nullOutPoint ∉ t.vin h

instance (t : Txs) (h : Hash) : Decidable (t.Checked h) :=
  decidable_of_iff (t.vin h ≠ [] ∧ (t.vin h).Nodup ∧ (t.isCoinBase h = false → nullOutPoint ∉ t.vin h))
    ⟨fun ⟨a, b, c⟩ => ⟨a, b, c⟩, fun ⟨a, b, c⟩ => ⟨a, b, c⟩⟩

/-- The coins a transaction takes. -/
def Txs.spends (t : Txs) (h : Hash) : Finset OutPoint := if t.isCoinBase h then ∅ else (t.vin h).toFinset

abbrev Block := List Hash

section
variable (t : Txs)

/-- Every output becomes a coin, unspendable ones as well. -/
def connectTx (coins : Finset OutPoint) (h : Hash) : Finset OutPoint := (coins \ t.spends h) ∪ t.outs h

/-- The coins after a list of transactions. -/
def connect (coins : Finset OutPoint) (txs : List Hash) : Finset OutPoint := txs.foldl (connectTx t) coins

/-- Every input is a coin when its transaction is connected (`s16_StoreAuthoritativeInputGate`). -/
def Available : Finset OutPoint → List Hash → Prop
  | _, [] => True
  | coins, h :: rest => t.spends h ⊆ coins ∧ Available (connectTx t coins h) rest

instance : (coins : Finset OutPoint) → (txs : List Hash) → Decidable (Available t coins txs)
  | _, [] => .isTrue trivial
  | coins, h :: rest =>
    have := instDecidableAvailable (connectTx t coins h) rest
    inferInstanceAs (Decidable (t.spends h ⊆ coins ∧ Available t (connectTx t coins h) rest))

/-- `existsUnspentTxid`. -/
def existsUnspentTxid (coins : Finset OutPoint) (h : Hash) : Bool := decide (∃ o ∈ coins, o.txid = h)

/-- The checks of `CheckBlock`, `AcceptBlock` and `ConnectBlock` that decide which coins a block may move:
distinct transactions, the height in the coinbase, no txid with an unspent output, every input a coin. -/
structure Connects (coins : Finset OutPoint) (height : Nat) (block : Block) : Prop where
  checked : ∀ h ∈ block, t.Checked h
  uniqueTx : block.Nodup
  height : ∀ h ∈ block, t.isCoinBase h = true → t.pushedHeight h = height
  bip30 : ∀ h ∈ block, existsUnspentTxid coins h = false
  available : Available t coins block

instance (coins : Finset OutPoint) (height : Nat) (block : Block) : Decidable (Connects t coins height block) :=
  decidable_of_iff ((∀ h ∈ block, t.Checked h) ∧ block.Nodup ∧
    (∀ h ∈ block, t.isCoinBase h = true → t.pushedHeight h = height) ∧
      (∀ h ∈ block, existsUnspentTxid coins h = false) ∧ Available t coins block)
    ⟨fun ⟨a, b, c, d, e⟩ => ⟨a, b, c, d, e⟩, fun ⟨a, b, c, d, e⟩ => ⟨a, b, c, d, e⟩⟩

/-- The coins of a chain, given from its tip. -/
def coinsOf : List Block → Finset OutPoint
  | [] => ∅
  | block :: rest => connect t (coinsOf rest) block

def Valid : List Block → Prop
  | [] => True
  | block :: rest => Connects t (coinsOf t rest) rest.length block ∧ Valid rest

instance : (chain : List Block) → Decidable (Valid t chain)
  | [] => .isTrue trivial
  | block :: rest =>
    have := instDecidableValid rest
    inferInstanceAs (Decidable (Connects t (coinsOf t rest) rest.length block ∧ Valid t rest))

end

/-- The transactions of a chain in the order they were connected. -/
def history (chain : List Block) : List Hash := chain.reverse.flatten

def confirmed (chain : List Block) : Finset Hash := chain.flatten.toFinset

section
variable {t : Txs}

theorem mem_outs : o ∈ t.outs h ↔ o.txid = h ∧ o.n.toNat < t.nOut h := by
  constructor
  · intro out
    obtain ⟨i, below, rfl⟩ := Finset.mem_image.mp out
    refine ⟨rfl, lt_of_le_of_lt ?_ (Finset.mem_range.mp below)⟩
    exact Nat.mod_le _ _
  · rintro ⟨rfl, below⟩
    exact Finset.mem_image.mpr ⟨o.n.toNat, Finset.mem_range.mpr below, by simp [Txs.outpoint]⟩

private theorem txid_of_created (created : o ∈ t.outs h) : o.txid = h := (mem_outs.mp created).1

theorem mem_spends (loose : t.isCoinBase h = false) : o ∈ t.spends h ↔ o ∈ t.vin h := by
  simp [Txs.spends, loose]

theorem mem_vin_of_spends (spent : o ∈ t.spends h) : o ∈ t.vin h := by
  unfold Txs.spends at spent
  split at spent
  · simp at spent
  · exact List.mem_toFinset.mp spent

private theorem mem_connectTx : o ∈ connectTx t coins h ↔ (o ∈ coins ∧ o ∉ t.spends h) ∨ o ∈ t.outs h := by
  rw [connectTx, Finset.mem_union, Finset.mem_sdiff]

theorem connect_append (first second : List Hash) :
    connect t coins (first ++ second) = connect t (connect t coins first) second := List.foldl_append

private theorem available_append :
    Available t coins (first ++ second) ↔ Available t coins first ∧ Available t (connect t coins first) second := by
  induction first generalizing coins with
  | nil => simp [Available, connect]
  | cons h rest ih => rw [List.cons_append, Available, Available, ih, and_assoc]; rfl

/-- A coin was there before or was created since. -/
theorem of_mem_connect (coin : o ∈ connect t coins txs) : o ∈ coins ∨ ∃ h ∈ txs, o ∈ t.outs h := by
  induction txs generalizing coins with
  | nil => exact .inl coin
  | cons h rest ih =>
    rcases ih coin with before | ⟨h', later, created⟩
    · rcases mem_connectTx.mp before with ⟨old, -⟩ | created
      · exact .inl old
      · exact .inr ⟨h, List.mem_cons_self .., created⟩
    · exact .inr ⟨h', List.mem_cons_of_mem _ later, created⟩

/-- A coin that was there or has been created is still there or has been spent. -/
theorem mem_connect_or_spent (source : o ∈ coins ∨ ∃ h ∈ txs, o ∈ t.outs h) :
    o ∈ connect t coins txs ∨ ∃ h ∈ txs, o ∈ t.spends h := by
  induction txs generalizing coins with
  | nil => simpa [connect] using source
  | cons h rest ih =>
    by_cases now : o ∈ connectTx t coins h ∨ ∃ h' ∈ rest, o ∈ t.outs h'
    · rcases ih now with coin | ⟨h', later, spent⟩
      · exact .inl coin
      · exact .inr ⟨h', List.mem_cons_of_mem _ later, spent⟩
    · rw [not_or] at now
      refine .inr ⟨h, List.mem_cons_self .., ?_⟩
      rcases source with old | ⟨h', member, created⟩
      · by_contra kept
        exact now.1 (mem_connectTx.mpr (.inl ⟨old, kept⟩))
      · rcases List.mem_cons.mp member with rfl | later
        · exact absurd (mem_connectTx.mpr (.inr created)) now.1
        · exact absurd ⟨h', later, created⟩ now.2

/-- What a connected transaction spends was a coin, or was created on the way. -/
theorem Available.source (available : Available t coins txs) (member : h ∈ txs) (spent : o ∈ t.spends h) :
    o ∈ coins ∨ ∃ h' ∈ txs, o ∈ t.outs h' := by
  obtain ⟨before, after, rfl⟩ := List.append_of_mem member
  obtain ⟨-, here, -⟩ := available_append.mp available
  rcases of_mem_connect (here spent) with old | ⟨h', earlier, created⟩
  · exact .inl old
  · exact .inr ⟨h', List.mem_append_left _ earlier, created⟩

/-! ## Transactions connected once, from no coins -/

theorem Available.source_txid (available : Available t ∅ txs) (member : h ∈ txs) (spent : o ∈ t.spends h) :
    o.txid ∈ txs := by
  rcases available.source member spent with none | ⟨h', inside, created⟩
  · exact absurd none (Finset.notMem_empty _)
  · exact txid_of_created created ▸ inside

/-- A spent coin never comes back. -/
theorem Available.spent (available : Available t ∅ txs) (once : txs.Nodup) (member : h ∈ txs) (spent : o ∈ t.spends h) :
    o ∉ connect t ∅ txs := by
  obtain ⟨before, after, rfl⟩ := List.append_of_mem member
  obtain ⟨-, here, -⟩ := available_append.mp available
  have creator : o.txid ∈ before := by
    rcases of_mem_connect (here spent) with none | ⟨h', earlier, created⟩
    · exact absurd none (Finset.notMem_empty _)
    · exact txid_of_created created ▸ earlier
  have apart := (List.nodup_append'.mp once).2.2 creator
  rw [connect_append]
  intro coin
  have coin : o ∈ connect t (connectTx t (connect t ∅ before) h) after := coin
  rcases of_mem_connect coin with now | ⟨h', later, created⟩
  · rcases mem_connectTx.mp now with ⟨-, kept⟩ | created
    · exact kept spent
    · exact apart (txid_of_created created ▸ List.mem_cons_self ..)
  · exact apart (txid_of_created created ▸ List.mem_cons_of_mem _ later)

/-- No two of the transactions spend the same coin. -/
theorem Available.spent_once (available : Available t ∅ txs) (once : txs.Nodup) (first : a ∈ txs) (second : b ∈ txs)
    (spentA : o ∈ t.spends a) (spentB : o ∈ t.spends b) : a = b := by
  have apart (a b : Hash) (before after : List Hash) (split : txs = before ++ b :: after) (earlier : a ∈ before)
      (spentA : o ∈ t.spends a) (spentB : o ∈ t.spends b) : False := by
    subst split
    obtain ⟨start, here, -⟩ := available_append.mp available
    exact start.spent (List.nodup_append'.mp once).1 earlier spentA (here spentB)
  obtain ⟨before, after, split⟩ := List.append_of_mem first
  rw [split] at second
  rcases List.mem_append.mp second with earlier | here
  · exact (apart b a before after split earlier spentB spentA).elim
  · rcases List.mem_cons.mp here with same | later
    · exact same.symm
    · obtain ⟨between, rest, again⟩ := List.append_of_mem later
      exact (apart a b (before ++ a :: between) rest (by rw [split, again]; simp) (by simp) spentA spentB).elim

/-! ## Chains -/

theorem history_cons (block : Block) : history (block :: chain) = history chain ++ block := by simp [history]

theorem history_append (blocks rest : List Block) : history (blocks.reverse ++ rest) = history rest ++
    blocks.flatten := by
  simp [history]

theorem mem_history : h ∈ history chain ↔ h ∈ confirmed chain := by simp [history, confirmed]

theorem confirmed_drop (chain : List Block) (k : Nat) : confirmed (chain.drop k) ⊆ confirmed chain := by
  intro h member
  obtain ⟨block, inside, here⟩ := List.mem_flatten.mp (List.mem_toFinset.mp member)
  exact List.mem_toFinset.mpr (List.mem_flatten.mpr ⟨block, List.mem_of_mem_drop inside, here⟩)

theorem confirmed_append (blocks rest : List Block) :
    confirmed (blocks.reverse ++ rest) = confirmed blocks ∪ confirmed rest := by
  ext h
  simp [confirmed]

theorem coinsOf_eq (t : Txs) (chain : List Block) : coinsOf t chain = connect t ∅ (history chain) := by
  induction chain with
  | nil => rfl
  | cons block rest ih => rw [coinsOf, history_cons, connect_append, ih]

theorem Valid.available (valid : Valid t chain) : Available t ∅ (history chain) := by
  induction chain with
  | nil => trivial
  | cons block rest ih =>
    rw [history_cons, available_append]
    exact ⟨ih valid.2, coinsOf_eq t rest ▸ valid.1.available⟩

private theorem Valid.coinBase_height (valid : Valid t chain) (member : h ∈ history chain)
    (coinBase : t.isCoinBase h = true) :
    t.pushedHeight h < chain.length := by
  induction chain with
  | nil => simp [history] at member
  | cons block rest ih =>
    rw [history_cons, List.mem_append] at member
    rcases member with older | here
    · exact (ih valid.2 older).trans (Nat.lt_succ_self _)
    · exact (valid.1.height h here coinBase).symm ▸ Nat.lt_succ_self _

/-- No transaction is confirmed twice: a coinbase names its height, and the coins that another one spends
cannot come back without their own transaction confirmed again. -/
theorem Valid.once (valid : Valid t chain) : (history chain).Nodup := by
  induction chain with
  | nil => exact List.nodup_nil
  | cons block rest ih =>
    have older := ih valid.2
    have available := valid.2.available
    -- by induction on the rank, down the inputs
    have apart (k : Nat) : ∀ h ∈ block, t.rank h < k → h ∉ history rest := by
      induction k with
      | zero => exact fun h _ below => absurd below (Nat.not_lt_zero _)
      | succ k lower =>
        intro h here below before
        cases coinBase : t.isCoinBase h with
        | true =>
          have same := valid.1.height h here coinBase
          have earlier := valid.2.coinBase_height before coinBase
          omega
        | false =>
          obtain ⟨o, input⟩ := List.exists_mem_of_ne_nil _ (valid.1.checked h here).nonempty
          have spent := (mem_spends coinBase).mpr input
          have creator := available.source_txid before spent
          have gone : o ∉ coinsOf t rest := coinsOf_eq t rest ▸ available.spent older before spent
          rcases valid.1.available.source here spent with coin | ⟨h', again, created⟩
          · exact gone coin
          · have same := txid_of_created created
            have smaller := t.covers h o input
            exact lower h' again (by rw [← same]; omega) (same ▸ creator)
    rw [history_cons]
    exact List.nodup_append'.mpr ⟨older, valid.1.uniqueTx, fun h before here => apart _ h here
      (Nat.lt_succ_self _) before⟩

theorem confirmed_of_coin (coin : o ∈ coinsOf t chain) : o.txid ∈ confirmed chain := by
  rw [coinsOf_eq] at coin
  rcases of_mem_connect coin with none | ⟨h, member, created⟩
  · exact absurd none (Finset.notMem_empty _)
  · exact mem_history.mp (txid_of_created created ▸ member)

end
end Innova.Mempool
