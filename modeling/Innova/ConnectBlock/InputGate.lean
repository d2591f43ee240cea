import Innova.Store3A.Reconcile
import Innova.Store3A.TreeReader

/-! The gate that refuses a block which spends coins the coin store does not hold (`main.cpp`,
`s16_StoreAuthoritativeInputGate`). It asks only whether the delta of the block can be observed, and
the observer looks an input up in the whole block, whatever comes first and whatever is spent twice. -/
namespace Innova.ConnectBlock
open Lib Chainstate Store3A

/-- What the gate reads and writes of the observer's state. -/
structure ObserveState where
  enabled : Bool
  hardFail : Bool
  /-- The store's tree, and whether the store is open. -/
  store : Option (BTree × Bool)
  needsRecovery : Bool
  fails : UInt64
  lastOpError : String
  lastHeight : Int32

/-- The tree of the armed authoritative store. -/
def ObserveState.armed (st : ObserveState) : Option BTree :=
  if st.enabled && st.hardFail then
    match st.store with
    | some (t, true) => some t
    | _ => none
  else none

section Gate
variable [Digest]

/-- `CommitStore3A::get` as the gate asks it: a coin that was found and read. -/
def getPrevCoin (t : BTree) (k : OutPoint) : Option Coin := t.reader.get k.keyBytes

/-- The gate; an error is its `false` with the reason. -/
def storeAuthoritativeInputGate (st : ObserveState) (b : ObservedBlock) : Except String Unit × ObserveState :=
  match st.armed with
  | none => (.ok (), st)
  | some t =>
    match b.observeDelta (getPrevCoin t) with
    | .ok _ => (.ok (), st)
    | .error e =>
      (.error (Reconcile.errText e), { st with
        needsRecovery := true, fails := st.fails + 1, lastOpError := Reconcile.errText e, lastHeight := b.height })

end Gate

/-- The outpoints the block spends; a coinbase spends none. -/
def inputs (b : ObservedBlock) : List OutPoint := b.txs.flatMap fun tx => if tx.coinbase then [] else tx.vin

section Gate
variable [Digest] {t : BTree} {b : ObservedBlock} {prev : OutPoint}

/-- The input names a transaction of the block that has no such output, or it names none and the store
does not hold its coin. -/
def Missing (t : BTree) (b : ObservedBlock) (prev : OutPoint) : Prop :=
  match b.txs.find? fun src => src.txid = prev.txid with
  | some src => src.vout.length ≤ prev.n.toNat
  | none => getPrevCoin t prev = none

private theorem spentCoin_ok_iff : (∃ c, b.spentCoin (getPrevCoin t) prev = .ok c) ↔ ¬ Missing t b prev := by
  unfold ObservedBlock.spentCoin Missing
  cases b.txs.find? fun src => src.txid = prev.txid with
  | some src =>
    cases inside : src.vout[prev.n.toNat]? with
    | none => simp [List.getElem?_eq_none_iff.mp inside]
    | some out => simp [(List.getElem?_eq_some_iff.mp inside).1]
  | none => cases getPrevCoin t prev <;> simp

private theorem inputGate_ok_iff (armed : st.armed = some t) (b : ObservedBlock) :
    (storeAuthoritativeInputGate st b).1 = .ok () ↔
      ∀ tx ∈ b.txs, tx.coinbase = false → ∀ prev ∈ tx.vin, ¬ Missing t b prev := by
  simp only [← spentCoin_ok_iff]
  rw [← ObservedBlock.observeTxs_ok_iff, storeAuthoritativeInputGate, armed]
  show _ ↔ ∃ d, b.observeDelta (getPrevCoin t) = .ok d
  cases built : b.observeDelta (getPrevCoin t) with
  | ok d => simp [built]
  | error e => simp [built]

/-- The input of the transaction at place `i` is a coin of the store or an output created before it. -/
def Backed (t : BTree) (b : ObservedBlock) (i : Nat) (prev : OutPoint) : Prop :=
  (getPrevCoin t prev).isSome ∨ ∃ src ∈ b.txs.take i, src.txid = prev.txid ∧ prev.n.toNat < src.vout.length

/-- What passing the gate is to mean: every input is backed, and no outpoint is spent twice. -/
def Spendable (t : BTree) (b : ObservedBlock) : Prop :=
  (∀ i (tx : ObservedTx), b.txs[i]? = some tx → tx.coinbase = false → ∀ prev ∈ tx.vin, Backed t b i prev) ∧
    (inputs b).Nodup

/-- The input of the transaction at place `i` names this transaction or a later one, and no earlier one
nor a coin of the store. -/
def Ahead (t : BTree) (b : ObservedBlock) (i : Nat) (prev : OutPoint) : Prop :=
  (∃ src ∈ b.txs.drop i, src.txid = prev.txid) ∧ (∀ src ∈ b.txs.take i, src.txid ≠ prev.txid) ∧
    getPrevCoin t prev = none

/-- An input that is not missing is backed unless it looks ahead: the gate has checked the range of its
index on the first transaction with the id. -/
theorem backed_iff (i : Nat) (seen : ¬ Missing t b prev) : Backed t b i prev ↔ ¬ Ahead t b i prev := by
  constructor
  · rintro (known | ⟨src, before, same, -⟩) ⟨-, fresh, unknown⟩
    · simp [unknown] at known
    · exact fresh src before same
  · intro behind
    cases known : getPrevCoin t prev with
    | some c => exact .inl (by simp [known])
    | none =>
      have halves : b.txs.find? (fun src => src.txid = prev.txid) =
          ((b.txs.take i).find? fun src => src.txid = prev.txid).or
            ((b.txs.drop i).find? fun src => src.txid = prev.txid) := by
        rw [← List.find?_append, List.take_append_drop]
      rw [Missing, halves] at seen
      cases early : (b.txs.take i).find? fun src => src.txid = prev.txid with
      | some src =>
        rw [early] at seen
        exact .inr ⟨src, List.mem_of_find?_eq_some early, by simpa using List.find?_some early, not_le.mp seen⟩
      | none =>
        rw [early, Option.none_or] at seen
        cases late : (b.txs.drop i).find? fun src => src.txid = prev.txid with
        | none => simp [late, known] at seen
        | some src =>
          refine absurd ⟨⟨src, List.mem_of_find?_eq_some late, by simpa using List.find?_some late⟩, ?_, known⟩ behind
          simpa using early

/-- On an armed store the gate keeps its word on a block exactly when some input is missing, so that the
block is refused, or when no input looks ahead and no outpoint is spent twice. -/
theorem inputGate_sound_iff (st : ObserveState) (t : BTree) (armed : st.armed = some t) (b : ObservedBlock) :
    ((storeAuthoritativeInputGate st b).1 = .ok () → Spendable t b) ↔
      (∃ tx ∈ b.txs, tx.coinbase = false ∧ ∃ prev ∈ tx.vin, Missing t b prev) ∨
        (∀ i (tx : ObservedTx), b.txs[i]? = some tx → tx.coinbase = false → ∀ prev ∈ tx.vin, ¬ Ahead t b i prev) ∧
          (inputs b).Nodup := by
  rw [inputGate_ok_iff armed, imp_iff_not_or]
  push Not
  by_cases missing : ∃ tx ∈ b.txs, tx.coinbase = false ∧ ∃ prev ∈ tx.vin, Missing t b prev
  · simp [missing]
  · rw [or_iff_right missing, or_iff_right missing, Spendable, and_congr_left_iff]
    intro _
    refine forall₂_congr fun i tx => forall₂_congr fun at_i plain => forall₂_congr fun prev input => backed_iff i ?_
    exact fun gone => missing ⟨tx, List.mem_of_getElem? at_i, plain, prev, input, gone⟩

end Gate

namespace Gated

/-- A tree with one coin, and an armed store over it. -/
def tree [Digest] : BTree := BTree.oneLeaf (Coin.encode ⟨50, [], 0, 0, false, false⟩)

def state : ObserveState := ⟨true, true, some (@Gated.tree sha256Digest, true), false, 0, "", -1⟩

def reward : ObservedTx := ⟨ByteArr.zero 32, true, false, 0, [], [⟨5, []⟩]⟩
def first : ObservedTx :=
  ⟨ByteArr.filled 32 2, false, false, 0, [⟨ByteArr.filled 32 1, 0x01010101⟩], [⟨30, []⟩, ⟨20, []⟩]⟩
def second : ObservedTx := ⟨ByteArr.filled 32 3, false, false, 0, [⟨ByteArr.filled 32 2, 0⟩], [⟨30, []⟩]⟩
def third : ObservedTx := ⟨ByteArr.filled 32 4, false, false, 0, [⟨ByteArr.filled 32 2, 0⟩], [⟨30, []⟩]⟩

end Gated

open Gated in
/-- A transaction spends the coin of the store and the next one an output of the first: the block passes
and is spendable. -/
theorem inputGate_sound_iff_ordered :
    (@storeAuthoritativeInputGate sha256Digest state ⟨1, [reward, first, second]⟩).1 = .ok () ∧
      @Spendable sha256Digest (@Gated.tree sha256Digest) ⟨1, [reward, first, second]⟩ := by
  have passed : (@storeAuthoritativeInputGate sha256Digest state ⟨1, [reward, first, second]⟩).1 =
    .ok () := by decide +kernel
  refine ⟨passed, (@inputGate_sound_iff sha256Digest state _ rfl ⟨1, [reward, first, second]⟩).mpr
    (.inr ⟨?_, by decide⟩) passed⟩
  intro i tx at_i plain prev input ahead
  rcases i with _ | _ | _ | i
  · cases at_i
    cases plain
  · cases at_i
    cases List.mem_singleton.mp input
    exact absurd ahead.1 (by decide)
  · cases at_i
    cases List.mem_singleton.mp input
    exact absurd ahead.2.1 (by decide)
  · cases at_i

open Gated in
/-- The gate lets the same transactions pass in the other order, with a third one that spends the output
again: one input is in no store and created later, and one outpoint is spent twice. -/
theorem inputGate_passes_tangled :
    (@storeAuthoritativeInputGate sha256Digest state ⟨1, [reward, second, first, third]⟩).1 = .ok () ∧
      ¬ @Backed sha256Digest (@Gated.tree sha256Digest) ⟨1, [reward, second, first, third]⟩ 1 ⟨ByteArr.filled 32 2, 0⟩ ∧
      ¬ (inputs ⟨1, [reward, second, first, third]⟩).Nodup := by
  refine ⟨by decide +kernel, ?_, by decide⟩
  rintro (known | ⟨src, before, same, -⟩)
  · exact absurd known (by decide +kernel)
  · cases List.mem_singleton.mp before
    exact absurd same (by decide)

end Innova.ConnectBlock
