import Innova.Chainstate.Delta
import Innova.ConnectBlock.CoinAge
import Innova.Lib.Together

/-! The previous transactions made up for the consumers of `mapInputs` (`main.cpp`,
`s16_V2InputView::v2MapPrevTx`): one for each hash, which grows as inputs name its outputs. Only the
first input of a hash says what kind of transaction it is, and the marker of a coinstake is a null
output where `IsCoinStake` asks for an empty one. -/
namespace Innova.ConnectBlock
open Lib Chainstate

structure DiskTxPos where
  nFile : UInt32
  nBlockPos : UInt32
  nTxPos : UInt32

def DiskTxPos.null : DiskTxPos := ⟨0xffffffff, 0, 0⟩

def DiskTxPos.isNull (p : DiskTxPos) : Bool := p.nFile == 0xffffffff

def nullPrevout : OutPoint := ⟨ByteArr.zero 32, 0xffffffff⟩

/-- `CTxOut()`. -/
def nullOut : TxOut := ⟨-1, []⟩

/-- `CTxOut::IsEmpty`. -/
def isEmpty (o : TxOut) : Bool := o.value == 0 && o.script.isEmpty

/-- An entry of `MapPrevTx`: `vSpent` of the index entry, inputs and outputs of the transaction. -/
structure PrevTx where
  vSpent : List DiskTxPos
  vin : List OutPoint
  vout : List TxOut

namespace PrevTx

/-- `CTransaction::IsCoinBase`. -/
def isCoinBase (p : PrevTx) : Bool :=
  p.vin.length == 1 && p.vin[0]?.any (· == nullPrevout) && decide (p.vout.length ≥ 1)

/-- `CTransaction::IsCoinStake`. -/
def isCoinStake (p : PrevTx) : Bool :=
  p.vin[0]?.any (· != nullPrevout) && decide (p.vout.length ≥ 2) && p.vout[0]?.any isEmpty

/-- Both vectors are resized; a new position says spent. -/
def resize (p : PrevTx) (n : Nat) : PrevTx :=
  { p with
    vSpent := p.vSpent.take n ++ List.replicate (n - p.vSpent.length) ⟨1, 1, 1⟩
    vout := p.vout.take n ++ List.replicate (n - p.vout.length) nullOut }

/-- The entry the first input of a hash makes, of output `n` and its coin. -/
def fresh (n : UInt32) (c : Coin) : PrevTx :=
  if c.fCoinBase then resize ⟨[], [nullPrevout], []⟩ (n + 1).toNat
  else if c.fCoinStake then
    let p := resize ⟨[], [⟨ByteArr.zero 32, 0⟩], []⟩ (n + 1).toNat
    { p with vout := p.vout.set 0 nullOut }
  else resize ⟨[], [], []⟩ (n + 1).toNat

/-- A later input may name a higher output. -/
def upTo (p : PrevTx) (n : UInt32) : PrevTx :=
  if n.toNat ≥ p.vSpent.length then p.resize (n + 1).toNat else p

/-- Output `n` becomes an unspent output with value and script of the coin. -/
def put (p : PrevTx) (n : Nat) (c : Coin) : PrevTx :=
  { p with vSpent := p.vSpent.set n .null, vout := p.vout.set n ⟨c.value, c.script⟩ }

end PrevTx

inductive MapError where
  /-- The coin view has no such coin. -/
  | unresolved
  /-- `prevout.n + 1` wrapped around and the write is past the end, which C++ leaves undefined. -/
  | undefined

abbrev MapPrevTx := Hash → Option PrevTx

/-- One input. -/
def mapInput (v : View) (out : MapPrevTx) (k : OutPoint) : Except MapError MapPrevTx :=
  match v.resolve k with
  | none => .error .unresolved
  | some c =>
    let p := ((out k.txid).getD (.fresh k.n c)).upTo k.n
    if k.n.toNat < p.vSpent.length then .ok (Function.update out k.txid (some (p.put k.n.toNat c)))
    else .error .undefined

/-- `v2MapPrevTx`. -/
def v2MapPrevTx (v : View) (tx : Tx) : Except MapError MapPrevTx := tx.vin.foldlM (mapInput v) fun _ => none

/-! ## What an entry holds after some inputs -/

/-- A transaction without outputs, with the inputs that stand for the creator of a coin. -/
def creator (c : Coin) : PrevTx :=
  ⟨[], if c.fCoinBase then [nullPrevout] else if c.fCoinStake then [⟨ByteArr.zero 32, 0⟩] else [], []⟩

/-- The outputs of the entry of a hash, after the inputs `done`. -/
structure Outputs (v : View) (done : List OutPoint) (h : Hash) (p : PrevTx) : Prop where
  sized : p.vout.length = p.vSpent.length
  reach : ∀ i, i < p.vSpent.length ↔ ∃ j ∈ done, j.txid = h ∧ i ≤ j.n.toNat
  named : ∀ j ∈ done, j.txid = h → ∃ c, v.resolve j = some c ∧
    p.vout[j.n.toNat]? = some ⟨c.value, c.script⟩ ∧ p.vSpent[j.n.toNat]? = some .null
  blank : 0 < p.vout.length → (∀ j ∈ done, j.txid = h → j.n.toNat ≠ 0) → p.vout[0]? = some nullOut

section Entries
variable {v : View} {done : List OutPoint} {h : Hash} {c : Coin} {p : PrevTx}

private theorem upTo_vin (p : PrevTx) (n : UInt32) : (p.upTo n).vin = p.vin := by
  unfold PrevTx.upTo
  split <;> rfl

/-- The outputs of a fresh entry are those an input adds to a transaction without outputs. -/
theorem fresh_upTo (n : UInt32) (c : Coin) : (PrevTx.fresh n c).upTo n = (creator c).upTo n := by
  have fresh : PrevTx.fresh n c = (creator c).resize (n + 1).toNat := by
    unfold PrevTx.fresh creator
    split_ifs <;> simp [PrevTx.resize]
  rw [fresh]
  simp [PrevTx.upTo, PrevTx.resize, creator]

/-- An entry no input has named yet. -/
theorem outputs_nil (c : Coin) (unnamed : ∀ j ∈ done, j.txid ≠ h) : Outputs v done h (creator c) where
  sized := rfl
  reach i := by
    simp only [creator, List.length_nil, Nat.not_lt_zero, false_iff, not_exists, not_and]
    exact fun j member same => absurd same (unnamed j member)
  named j member same := absurd same (unnamed j member)
  blank none := absurd none (Nat.lt_irrefl 0)

private theorem Outputs.other (outs : Outputs v done h p) (apart : k.txid ≠ h) : Outputs v (done ++ [k]) h p where
  sized := outs.sized
  reach i := by simp [outs.reach, apart, or_and_right, exists_or]
  named j member same := by
    refine outs.named j ?_ same
    rcases List.mem_append.mp member with old | new
    · exact old
    · exact absurd (List.mem_singleton.mp new ▸ same) apart
  blank some free := outs.blank some fun j member => free j (List.mem_append_left _ member)

/-- An input writes its output, and leaves those of other inputs. -/
theorem Outputs.put (outs : Outputs v done k.txid p) (known : v.resolve k = some c)
    (inside : k.n.toNat < (p.upTo k.n).vSpent.length) :
    Outputs v (done ++ [k]) k.txid ((p.upTo k.n).put k.n.toNat c) := by
  have sized := outs.sized
  have next : (k.n + 1).toNat ≤ k.n.toNat + 1 := by
    exact Nat.mod_le _ _
  have spent : (p.upTo k.n).vSpent.length = max p.vSpent.length (k.n.toNat + 1) := by grind [PrevTx.resize, PrevTx.upTo]
  have length : (p.upTo k.n).vout.length = (p.upTo k.n).vSpent.length := by grind [PrevTx.resize, PrevTx.upTo]
  have kept : ∀ i, i < p.vSpent.length →
      (p.upTo k.n).vout[i]? = p.vout[i]? ∧ (p.upTo k.n).vSpent[i]? = p.vSpent[i]? := by
    grind [PrevTx.resize, PrevTx.upTo]
  have added : p.vSpent.length = 0 → (p.upTo k.n).vout[0]? = some nullOut := by
    grind [PrevTx.resize, PrevTx.upTo]
  refine ⟨by simp [PrevTx.put, length], fun i => ?_, fun j member same => ?_, fun _ free => ?_⟩
  · simp only [PrevTx.put, List.length_set, spent, lt_max_iff, outs.reach, Nat.lt_add_one_iff]
    simp [or_and_right, exists_or]
  · by_cases here : j = k
    · subst here
      exact ⟨c, known, by simp [PrevTx.put, inside, length]⟩
    · have old : j ∈ done := by simpa [here] using member
      have other : k.n.toNat ≠ j.n.toNat := fun eq => here (by
        cases j; cases k; simp_all [UInt32.toNat_inj])
      obtain ⟨d, seen, out, null⟩ := outs.named j old same
      obtain ⟨keptOut, keptSpent⟩ := kept _ ((outs.reach _).mpr ⟨j, old, same, le_refl _⟩)
      refine ⟨d, seen, ?_, ?_⟩
      · rw [PrevTx.put, List.getElem?_set_ne other, keptOut, out]
      · rw [PrevTx.put, List.getElem?_set_ne other, keptSpent, null]
  · have other : k.n.toNat ≠ 0 := free k (by simp) rfl
    rw [PrevTx.put, List.getElem?_set_ne other]
    rcases Nat.eq_zero_or_pos p.vSpent.length with empty | some
    · exact added empty
    · rw [(kept 0 some).1]
      exact outs.blank (sized ▸ some) fun j member => free j (List.mem_append_left _ member)

/-- The map after the inputs `done`: an entry for each hash they name, whose kind is that of the first
coin. -/
def Follows (v : View) (done : List OutPoint) (m : MapPrevTx) : Prop :=
  ∀ h, m h = none ∧ (∀ j ∈ done, j.txid ≠ h) ∨
    ∃ p first c, m h = some p ∧ done.find? (fun j => j.txid = h) = some first ∧ v.resolve first = some c ∧
      p.vin = (creator c).vin ∧ Outputs v done h p

private theorem Follows.step (follows : Follows v done out) (ran : mapInput v out k = .ok m) :
    Follows v (done ++ [k]) m := by
  unfold mapInput at ran
  split at ran
  · cases ran
  next c known =>
  dsimp only at ran
  split at ran
  swap
  · cases ran
  next inside =>
  cases ran
  intro h
  by_cases same : h = k.txid
  · subst same
    right
    rcases follows k.txid with ⟨absent, unnamed⟩ | ⟨p, first, d, held, found, seen, kind, outs⟩
    · rw [absent, Option.getD_none, fresh_upTo] at inside
      have found : done.find? (fun j => j.txid = k.txid) = none := by simpa using unnamed
      refine ⟨_, k, c, by simp [absent, fresh_upTo], by simp [List.find?_append, found], known, ?_,
        (outputs_nil c unnamed).put known inside⟩
      simp [PrevTx.put, upTo_vin]
    · rw [held] at inside
      refine ⟨_, first, d, by simp [held], by simp [List.find?_append, found], seen, ?_, outs.put known inside⟩
      simp [PrevTx.put, upTo_vin, kind]
  · simp only [Function.update_of_ne same]
    rcases follows h with ⟨absent, unnamed⟩ | ⟨p, first, d, held, found, seen, kind, outs⟩
    · exact .inl ⟨absent, by simpa [or_imp, forall_and] using ⟨unnamed, Ne.symm same⟩⟩
    · exact .inr ⟨p, first, d, held, by simp [List.find?_append, found], seen, kind, outs.other (Ne.symm same)⟩

/-- The map of a whole transaction. -/
theorem follows (ran : v2MapPrevTx v tx = .ok m) : Follows v tx.vin m := by
  unfold v2MapPrevTx at ran
  generalize tx.vin = vin at *
  induction vin using List.reverseRecOn generalizing m with
  | nil =>
    cases ran
    exact fun h => .inl ⟨rfl, nofun⟩
  | append_singleton done k ih =>
    rw [List.foldlM_append] at ran
    obtain ⟨out, before, last⟩ := except_bind_ok ran
    exact (ih before).step (by simpa using last)

/-- Only a coinbase coin makes a coinbase. -/
theorem Outputs.isCoinBase (outs : Outputs v done h p) (kind : p.vin = (creator c).vin) (member : k ∈ done)
    (same : k.txid = h) : p.isCoinBase = c.fCoinBase := by
  have some : p.vout.length ≥ 1 := outs.sized ▸ (outs.reach 0).mpr ⟨k, member, same, Nat.zero_le _⟩
  rw [PrevTx.isCoinBase, kind, decide_eq_true some]
  unfold creator
  cases c.fCoinBase <;> cases c.fCoinStake <;> decide

/-- A transaction counts as a coinstake if its inputs name output 0 with an empty coin, and a further
output. -/
def Marked (v : View) (vin : List OutPoint) (h : Hash) : Prop :=
  (∃ j ∈ vin, j.txid = h ∧ j.n.toNat = 0 ∧ ∃ c, v.resolve j = some c ∧ isEmpty ⟨c.value, c.script⟩) ∧
    ∃ j ∈ vin, j.txid = h ∧ 1 ≤ j.n.toNat

private theorem Outputs.isCoinStake (outs : Outputs v done h p) (kind : p.vin = (creator c).vin) :
    p.isCoinStake ↔ c.fCoinBase = false ∧ c.fCoinStake ∧ Marked v done h := by
  have marker : (creator c).vin[0]?.any (· != nullPrevout) = (!c.fCoinBase && c.fCoinStake) := by
    unfold creator
    cases c.fCoinBase <;> cases c.fCoinStake <;> decide
  have length : p.vout.length ≥ 2 ↔ ∃ j ∈ done, j.txid = h ∧ 1 ≤ j.n.toNat := outs.sized ▸ outs.reach 1
  simp only [PrevTx.isCoinStake, kind, marker, Bool.and_eq_true, decide_eq_true_eq, Bool.not_eq_true', Marked, ← length]
  constructor
  · rintro ⟨⟨⟨base, stake⟩, two⟩, empty⟩
    refine ⟨base, stake, ?_, two⟩
    by_cases zero : ∃ j ∈ done, j.txid = h ∧ j.n.toNat = 0
    · obtain ⟨j, member, same, first⟩ := zero
      obtain ⟨d, seen, out, -⟩ := outs.named j member same
      rw [first] at out
      exact ⟨j, member, same, first, d, seen, by simpa [out] using empty⟩
    · -- Nothing was written over the output that `resize` put there.
      rw [outs.blank (by omega) (by simpa using zero)] at empty
      exact absurd empty (by decide)
  · rintro ⟨base, stake, ⟨j, member, same, first, d, seen, empty⟩, two⟩
    obtain ⟨d', seen', out, -⟩ := outs.named j member same
    obtain rfl : d = d' := Option.some_inj.mp (seen.symm.trans seen')
    rw [first] at out
    exact ⟨⟨⟨base, stake⟩, two⟩, by simpa [out] using empty⟩

end Entries

/-- What the consumers of the map take an input's entry for. -/
def Faithful (v : View) (m : MapPrevTx) (k : OutPoint) : Prop :=
  ∃ c p, v.resolve k = some c ∧ m k.txid = some p ∧ p.vout[k.n.toNat]? = some ⟨c.value, c.script⟩ ∧
    p.vSpent[k.n.toNat]?.map DiskTxPos.isNull = some true ∧ p.isCoinBase = c.fCoinBase ∧ p.isCoinStake = c.fCoinStake

/-- The entries are faithful exactly when the coins an input list spends of one transaction agree with
the first of them on `fCoinBase`, and on `fCoinStake` with what the entry can show. -/
theorem v2MapPrevTx_faithful_iff {v : View} {tx : Tx} {m : MapPrevTx} (ran : v2MapPrevTx v tx = .ok m) :
    (∀ k ∈ tx.vin, Faithful v m k) ↔ ∀ k ∈ tx.vin, ∀ first c d,
      tx.vin.find? (fun j => j.txid = k.txid) = some first → v.resolve first = some c → v.resolve k = some d →
        d.fCoinBase = c.fCoinBase ∧ (d.fCoinStake ↔ c.fCoinBase = false ∧ c.fCoinStake ∧ Marked v tx.vin k.txid) := by
  refine forall₂_congr fun k member => ?_
  rcases follows ran k.txid with ⟨-, unnamed⟩ | ⟨p, first, c, held, found, seen, kind, outs⟩
  · exact absurd rfl (unnamed k member)
  obtain ⟨d, known, out, null⟩ := outs.named k member rfl
  have base := outs.isCoinBase kind member rfl
  have stake := outs.isCoinStake kind
  constructor
  · rintro ⟨d', p', known', held', -, -, sameBase, sameStake⟩ _ _ _ found' seen' known''
    simp_all
  · intro agree
    obtain ⟨sameBase, sameStake⟩ := agree first c d found seen known
    refine ⟨d, p, known, held, out, by rw [null]; rfl, base.trans sameBase.symm, ?_⟩
    rw [Bool.eq_iff_iff, stake, sameStake]

/-- A view that holds `c` everywhere. -/
def everywhere (c : Coin) : View := ⟨fun _ => none, fun _ => some c⟩

def plainCoin : Coin := ⟨5, [], 1, 1, false, false⟩

/-- A transaction that spends outputs 2 and 1 of one other. -/
def spender : Tx := ⟨0, [⟨ByteArr.zero 32, 2⟩, ⟨ByteArr.zero 32, 1⟩]⟩

theorem v2MapPrevTx_plain :
    ∃ m, v2MapPrevTx (everywhere plainCoin) spender = .ok m ∧ ∀ k ∈ spender.vin, Faithful (everywhere plainCoin) m k :=
  ⟨_, rfl, (v2MapPrevTx_faithful_iff rfl).mpr (by
    rintro k - first c d - ⟨⟩ ⟨⟩
    simp [plainCoin])⟩

/-- The output of a coinstake is taken for one of an ordinary transaction. -/
theorem v2MapPrevTx_coinstake : ∃ m p, v2MapPrevTx (everywhere { plainCoin with fCoinStake := true }) spender = .ok m ∧
      m (ByteArr.zero 32) = some p ∧ p.isCoinStake = false ∧
        ¬∀ k ∈ spender.vin, Faithful (everywhere { plainCoin with fCoinStake := true }) m k := by
  refine ⟨_, _, rfl, rfl, rfl, fun faithful => ?_⟩
  obtain ⟨c, p, ⟨⟩, ⟨⟩, -, -, -, stake⟩ := faithful _ (.head _)
  exact absurd stake (by decide)

end Innova.ConnectBlock
