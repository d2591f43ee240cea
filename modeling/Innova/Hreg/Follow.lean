import Innova.Hreg.Node
import Innova.Lib.Outcome

/-! The registry against the active chain. Connecting a block never looks at the registry, so what a chain
does to it is a list of effects; `DisconnectBlock` takes none of them back. -/
namespace Innova.Hreg
open Lib Chainstate Mempool

section
variable (u : Contents) (fork : Nat)

/-- TX-LOC and the published chain of the node that has only ever seen this chain. -/
def indexOf : List Block → Index
  | [] => ⟨fun _ => none, []⟩
  | b :: rest => ((indexOf rest).ingest b).publish (b :: rest)

/-- The effects of blocks, oldest first, on top of a chain. -/
def effectsOver (chain : List Block) : List Block → Except String (List Effect)
  | [] => .ok []
  | b :: later => do
    let here ← effectsOfBlock u fork (indexOf chain) chain b
    let rest ← effectsOver (b :: chain) later
    return here ++ rest

/-- The registry follows the chain. -/
def Node.Follows (n : Node) : Prop := ∃ m, linear u fork n.chain = .ok m ∧ m.registry = n.registry

/-- Two indexes answer alike for the inputs of the block's marked transactions that qualify as collaterals. -/
def Alike (one two : Index) (chain : List Block) (b : Block) : Prop :=
  ∀ h ∈ b.vtx, markers (u.tx h) = 1 → ∀ created inputs,
    v2MapPrevTx (resolve u (coinsOf u.txs (blocks chain)) created) (u.tx h).vin = some inputs →
      ∀ o ∈ (u.tx h).vin, qualifies inputs o ≠ none → one.height o.txid = two.height o.txid

/-- At each block of a branch the node's index answers like that of a node on the branch alone. -/
def Answered (index : Index) (chain : List Block) : List Block → Prop
  | [] => True
  | b :: later => Alike u index (indexOf chain) chain b ∧ Answered (index.ingest b) (b :: chain) later

/-- The branch registers again what the disconnected blocks registered, and spends again the registered
collaterals that they spent. -/
def Redone (chain : List Block) (k : Nat) (connected : List Block) : Prop :=
  ∀ n old new, linear u fork (chain.drop k) = .ok n → effectsOver u fork (chain.drop k)
    (chain.take k).reverse = .ok old →
    effectsOver u fork (chain.drop k) connected = .ok new →
      (∀ o, Registers old o → Registers new o) ∧
        ∀ o entry, n.registry o = some entry → entry.state ≠ .spent → Spends old o → Spends new o

inductive Event
  | extend (b : Block)
  /-- Without connected blocks this is a run of `DisconnectBlock`. -/
  | reorganize (k : Nat) (connected : List Block)

def Node.step (n : Node) : Event → Except String Node
  | .extend b => Hreg.extend u fork n b
  | .reorganize k connected => Hreg.reorganize u fork n k connected

/-- The chain after the step. -/
def Event.chain (chain : List Block) : Event → List Block
  | .extend b => b :: chain
  | .reorganize k connected => connected.reverse ++ chain.drop k

def Event.Answered (n : Node) : Event → Prop
  | .extend b => Hreg.Answered u n.index n.chain [b]
  | .reorganize k connected => Hreg.Answered u n.index (n.chain.drop k) connected

def Event.Redone (n : Node) : Event → Prop
  | .extend _ => True
  | .reorganize k connected => Hreg.Redone u fork n.chain k connected

/-- The nodes that such steps reach from genesis, with an empty registry. -/
inductive Run : Node → Prop
  | genesis : Run ⟨.empty, [], ⟨fun _ => none, []⟩⟩
  | step {n n' : Node} {e : Event} (run : Run n) (valid : Valid u.txs (blocks (e.chain n.chain)))
    (ok : n.step u fork e = .ok n')
    (answered : e.Answered u n) (redone : e.Redone u fork n) : Run n'

end

section
variable {u : Contents} {fork : Nat} {n n' : Node} {chain : List Block}

/-! ## Effects depend on few answers -/

private theorem findUniqueQualifyingInput_congr (alike : ∀ o ∈ vin, qualifies inputs o ≠ none → one o.txid = two o.txid)
    (sofar : Option (OutPoint × Script)) :
    findUniqueQualifyingInput one inputs sofar vin = findUniqueQualifyingInput two inputs sofar vin := by
  induction vin generalizing sofar with
  | nil => cases sofar <;> rfl
  | cons o rest ih =>
    have later := ih fun x member => alike x (List.mem_cons_of_mem _ member)
    cases qualified : qualifies inputs o with
    | none => cases sofar <;> simp only [findUniqueQualifyingInput, qualified, later]
    | some script =>
      have here := alike o (List.mem_cons_self ..) (by simp [qualified])
      cases sofar <;> simp only [findUniqueQualifyingInput, here, later]

private theorem mem_of_findUniqueQualifyingInput
    (found : findUniqueQualifyingInput heights inputs sofar vin = .one o payee) :
    (o ∈ vin ∧ qualifies inputs o ≠ none) ∨ sofar = some (o, payee) := by
  induction vin generalizing sofar with
  | nil =>
    cases sofar with
    | none => cases found
    | some pair => simpa [findUniqueQualifyingInput, Prod.ext_iff] using found
  | cons x rest ih =>
    have later {sofar : Option (OutPoint × Script)}
      (found : findUniqueQualifyingInput heights inputs sofar rest = .one o payee) :
        (o ∈ x :: rest ∧ qualifies inputs o ≠ none) ∨ sofar = some (o, payee) :=
      (ih found).imp_left (And.imp_left (List.mem_cons_of_mem _))
    cases qualified : qualifies inputs x with
    | none => exact later (by cases sofar <;> simpa [findUniqueQualifyingInput, qualified] using found)
    | some script =>
      cases answer : heights x.txid with
      | authorityFailure error => cases sofar <;> simp [findUniqueQualifyingInput, qualified, answer] at found
      | notFound => exact later (by cases sofar <;> simpa [findUniqueQualifyingInput, qualified, answer] using found)
      | notActive => exact later (by cases sofar <;> simpa [findUniqueQualifyingInput, qualified, answer] using found)
      | found height =>
        cases sofar with
        | some pair => simp [findUniqueQualifyingInput, qualified, answer] at found
        | none =>
          rcases later (by simpa [findUniqueQualifyingInput, qualified, answer] using found) with member | same
          · exact .inl member
          · obtain ⟨rfl, -⟩ := Prod.mk.inj (Option.some.inj same)
            exact .inl ⟨List.mem_cons_self .., by simp [qualified]⟩

private theorem evaluate_congr {hash : Hash}
    (alike : markers tx = 1 → ∀ o ∈ tx.vin, qualifies inputs o ≠ none → one o.txid = two o.txid) :
    evaluate one inputs hash tx height = evaluate two inputs hash tx height := by
  unfold evaluate
  by_cases zero : markers tx = 0
  · simp only [zero, if_true]
  · by_cases many : 1 < markers tx
    · simp only [zero, many, if_true, if_false]
    · have alike := alike (by omega)
      rw [if_neg zero, if_neg zero, if_neg many, if_neg many, findUniqueQualifyingInput_congr alike]
      cases found : findUniqueQualifyingInput two inputs none tx.vin with
      | one o payee =>
        have member := (mem_of_findUniqueQualifyingInput found).resolve_right (by simp)
        simp only [alike o member.1 member.2]
      | _ => rfl

private theorem effectsOfTxs_congr (alike : ∀ h ∈ vtx, markers (u.tx h) = 1 → ∀ created inputs,
      v2MapPrevTx (resolve u store created) (u.tx h).vin = some inputs →
        ∀ o ∈ (u.tx h).vin, qualifies inputs o ≠ none → one o.txid = two o.txid) (created : Finset OutPoint) :
    effectsOfTxs u fork one store height created vtx = effectsOfTxs u fork two store height created vtx := by
  induction vtx generalizing created with
  | nil => rfl
  | cons h rest ih =>
    have here : effectsOfTx u fork one store height created h = effectsOfTx u fork two store height created h := by
      unfold effectsOfTx
      cases mapped : v2MapPrevTx (resolve u store created) (u.tx h).vin with
      | none => rfl
      | some inputs =>
        have same : evaluate one inputs h (u.tx h) height = evaluate two inputs h (u.tx h) height :=
          evaluate_congr fun marked => alike h (List.mem_cons_self ..) marked created inputs mapped
        simp only [effectOf, same]
    simp only [effectsOfTxs, here, ih (fun x member => alike x (List.mem_cons_of_mem _ member))]

/-- A transaction registers one of its own outputs. -/
theorem txid_of_effectOf {hash : Hash} (ok : effectOf heights inputs hash tx height = .ok e)
    (registered : e.registered = some (o, script, at_)) : o.txid = hash := by
  unfold effectOf at ok
  cases parsed : evaluate heights inputs hash tx height with
  | reject reason => simp [parsed] at ok
  | nothing =>
    rw [parsed] at ok
    obtain rfl := Except.ok.inj ok
    cases registered
  | apply old new payment =>
    rw [parsed] at ok
    obtain rfl := Except.ok.inj ok
    obtain ⟨rfl, -⟩ := Prod.mk.inj (Option.some.inj registered)
    unfold evaluate at parsed
    split_ifs at parsed
    split at parsed <;> try cases parsed
    split at parsed <;> try cases parsed
    split_ifs at parsed
    split at parsed <;> cases parsed
    rfl

private theorem mem_effectsOfTx (ok : effectsOfTx u fork heights store height created h = .ok es) (member : e ∈ es) :
    ∃ inputs, effectOf heights inputs h (u.tx h) height = .ok e := by
  unfold effectsOfTx at ok
  cases minted : (u.tx h).isCoinBase with
  | true =>
    rw [minted] at ok
    obtain rfl := Except.ok.inj ok
    cases member
  | false =>
    rw [minted, if_neg Bool.false_ne_true] at ok
    cases resolved : v2MapPrevTx (resolve u store created) (u.tx h).vin with
    | none => simp [resolved] at ok
    | some inputs =>
      simp only [resolved] at ok
      split at ok
      · obtain ⟨made, effect, rfl⟩ := ok_of_map ok
        obtain rfl := List.mem_singleton.mp member
        exact ⟨inputs, effect⟩
      · obtain rfl := Except.ok.inj ok
        cases member

private theorem registers_append : Registers (es ++ fs) o ↔ Registers es o ∨ Registers fs o := by
  simp only [Registers, List.mem_append, or_and_right, exists_or]

private theorem txid_of_registers (ok : effectsOfTxs u fork heights store height created vtx = .ok es)
    (registers : Registers es o) : o.txid ∈ vtx := by
  induction vtx generalizing created es with
  | nil =>
    obtain rfl : [] = es := Except.ok.inj ok
    simp [Registers] at registers
  | cons h rest ih =>
    obtain ⟨here, first, ok⟩ := except_bind_ok ok
    obtain ⟨later, second, ok⟩ := except_bind_ok ok
    obtain rfl : here ++ later = es := Except.ok.inj ok
    rcases registers_append.mp registers with now | after
    · obtain ⟨e, member, script, at_, registered⟩ := now
      obtain ⟨inputs, effect⟩ := mem_effectsOfTx first member
      exact List.mem_cons.mpr (.inl (txid_of_effectOf effect registered))
    · exact List.mem_cons_of_mem _ (ih second after)

/-! ## Branches -/

theorem linear_cons (shape : ∀ n, linear u fork chain = .ok n → n.chain = chain ∧ n.index = indexOf chain) :
    linear u fork (b :: chain) = .ok m ↔
      ∃ n es, linear u fork chain = .ok n ∧ effectsOfBlock u fork (indexOf chain) chain b = .ok es ∧
        m = ⟨applyAll n.registry es, b :: chain, indexOf (b :: chain)⟩ := by
  constructor
  · intro ran
    obtain ⟨n, before, ran⟩ := except_bind_ok ran
    obtain ⟨same, index⟩ := shape n before
    unfold extend connectBlock at ran
    rw [same, index] at ran
    obtain ⟨n', connected, rfl⟩ := ok_of_map ran
    obtain ⟨es, effects, ⟨⟩⟩ := except_bind_ok connected
    exact ⟨n, es, before, effects, rfl⟩
  · rintro ⟨n, es, before, effects, rfl⟩
    obtain ⟨same, index⟩ := shape n before
    unfold linear extend connectBlock
    rw [before]
    simp only [bind, Except.bind, same, index, effects]
    rfl

theorem linear_shape (ran : linear u fork chain = .ok m) : m.chain = chain ∧ m.index = indexOf chain := by
  induction chain generalizing m with
  | nil =>
    obtain rfl := Except.ok.inj ran
    exact ⟨rfl, rfl⟩
  | cons b rest ih =>
    obtain ⟨n, es, -, -, rfl⟩ := (linear_cons fun n => ih).mp ran
    exact ⟨rfl, rfl⟩

/-- A chain does to the registry what its branch does on top of the rest. -/
theorem linear_over : linear u fork (connected.reverse ++ chain) = .ok m ↔
      ∃ n es, linear u fork chain = .ok n ∧ effectsOver u fork chain connected = .ok es ∧
        m = ⟨applyAll n.registry es, connected.reverse ++ chain, indexOf (connected.reverse ++ chain)⟩ := by
  induction connected generalizing chain with
  | nil =>
    constructor
    · intro ran
      obtain ⟨same, index⟩ := linear_shape ran
      refine ⟨m, [], ran, rfl, ?_⟩
      obtain ⟨registry, chain, index⟩ := m
      simp_all [applyAll]
    · rintro ⟨n, es, ran, none, rfl⟩
      obtain rfl : [] = es := Except.ok.inj none
      obtain ⟨same, index⟩ := linear_shape ran
      obtain ⟨registry, chain, index⟩ := n
      simp_all [applyAll]
  | cons b later ih =>
    rw [List.reverse_cons, List.append_assoc, List.singleton_append, ih]
    constructor
    · rintro ⟨n, rest, before, after, rfl⟩
      obtain ⟨n, here, start, effects, rfl⟩ := (linear_cons fun _ => linear_shape).mp before
      refine ⟨n, here ++ rest, start, ?_, by rw [applyAll_append]⟩
      simp only [effectsOver, effects, after, bind, Except.bind, pure, Except.pure]
    · rintro ⟨n, es, before, above, rfl⟩
      obtain ⟨here, effects, above⟩ := except_bind_ok above
      obtain ⟨rest, after, above⟩ := except_bind_ok above
      obtain rfl : here ++ rest = es := Except.ok.inj above
      refine ⟨_, rest, (linear_cons fun _ => linear_shape).mpr ⟨n, here, before, effects, rfl⟩, after, ?_⟩
      rw [applyAll_append]

/-- A node whose index answers as the branch's own does the same to its registry. -/
theorem connect_over (answered : Answered u n.index n.chain connected) :
    connected.foldlM (connectBlock u fork) n = .ok n' ↔
      ∃ es, effectsOver u fork n.chain connected = .ok es ∧
        n' = ⟨applyAll n.registry es, connected.reverse ++ n.chain, connected.foldl Index.ingest n.index⟩ := by
  induction connected generalizing n with
  | nil =>
    constructor
    · intro ran
      obtain rfl := Except.ok.inj ran
      exact ⟨[], rfl, rfl⟩
    · rintro ⟨es, none, rfl⟩
      obtain rfl : [] = es := Except.ok.inj none
      rfl
  | cons b later ih =>
    obtain ⟨alike, answered⟩ := answered
    have same : effectsOfBlock u fork n.index n.chain b = effectsOfBlock u fork (indexOf n.chain) n.chain b :=
      effectsOfTxs_congr alike ∅
    have next (es : List Effect) :=
      ih (n := ⟨applyAll n.registry es, b :: n.chain, n.index.ingest b⟩) answered
    rw [List.foldlM_cons]
    constructor
    · intro ran
      obtain ⟨n₁, first, ran⟩ := except_bind_ok ran
      obtain ⟨here, effects, first⟩ := except_bind_ok first
      obtain rfl := Except.ok.inj first
      obtain ⟨rest, after, rfl⟩ := (next here).mp ran
      refine ⟨here ++ rest, ?_, by simp [applyAll_append]⟩
      rw [same] at effects
      simp only [effectsOver, effects, after, bind, Except.bind, pure, Except.pure]
    · rintro ⟨es, above, rfl⟩
      obtain ⟨here, effects, above⟩ := except_bind_ok above
      obtain ⟨rest, after, above⟩ := except_bind_ok above
      obtain rfl : here ++ rest = es := Except.ok.inj above
      rw [connectBlock, same, effects]
      exact (next here).mpr ⟨rest, after, by simp [applyAll_append]⟩

/-! ## What a branch can register -/

private theorem txid_of_registers_over (above : effectsOver u fork chain connected = .ok es)
    (registers : Registers es o) :
    o.txid ∈ (blocks connected).flatten := by
  induction connected generalizing chain es with
  | nil =>
    obtain rfl : [] = es := Except.ok.inj above
    simp [Registers] at registers
  | cons b later ih =>
    obtain ⟨here, effects, above⟩ := except_bind_ok above
    obtain ⟨rest, after, above⟩ := except_bind_ok above
    obtain rfl : here ++ rest = es := Except.ok.inj above
    rw [blocks, List.map_cons, List.flatten_cons, List.mem_append]
    exact (registers_append.mp registers).imp (txid_of_registers effects) (ih after)

private theorem mem_history_of_registered (ran : linear u fork chain = .ok m) (held : m.registry o ≠ none) :
    o.txid ∈ history (blocks chain) := by
  have whole : linear u fork (chain.reverse.reverse ++ []) = .ok m := by simpa using ran
  obtain ⟨n, es, start, above, rfl⟩ := linear_over.mp whole
  obtain rfl := Except.ok.inj start
  have registers : Registers es o := by
    by_contra plain
    exact held ((applyAll_none_iff plain).mpr rfl)
  have member := txid_of_registers_over above registers
  rwa [blocks, List.map_reverse] at member

/-- A branch registers no collateral that the registry below it holds. -/
theorem registers_new (valid : Valid u.txs (blocks (connected.reverse ++ chain))) (ran : linear u fork chain = .ok m)
    (above : effectsOver u fork chain connected = .ok es) (registers : Registers es o) : m.registry o = none := by
  by_contra held
  have once := valid.once
  rw [blocks, List.map_append, List.map_reverse, history_append] at once
  exact (List.nodup_append'.mp once).2.2 (mem_history_of_registered ran held) (txid_of_registers_over above registers)

/-! ## Steps -/

private theorem disconnectBlock_iterate (n : Node) (k : Nat) :
    disconnectBlock^[k] n = { n with chain := n.chain.drop k } := by
  induction k generalizing n with
  | zero => rfl
  | succ k ih => rw [Function.iterate_succ_apply, ih, disconnectBlock, List.drop_tail]

private theorem extend_eq_reorganize (n : Node) (b : Block) : extend u fork n b = reorganize u fork n 0 [b] := by
  unfold extend reorganize
  rw [List.foldlM_cons, Function.iterate_zero, id]
  cases connectBlock u fork n b <;> rfl

private theorem follows_reorganize_iff (follows : n.Follows u fork) (valid : Valid u.txs (blocks n.chain))
    (valid' : Valid u.txs (blocks (connected.reverse ++ n.chain.drop k)))
    (ok : reorganize u fork n k connected = .ok n') (answered : Answered u n.index (n.chain.drop k) connected) :
    n'.chain = connected.reverse ++ n.chain.drop k ∧ (n'.Follows u fork ↔ Redone u fork n.chain k connected) := by
  -- the node before the step: the rest of the chain and then the blocks to disconnect
  have parts : n.chain = (n.chain.take k).reverse.reverse ++ n.chain.drop k := by
    rw [List.reverse_reverse, List.take_append_drop]
  obtain ⟨m, ran, same⟩ := follows
  rw [parts] at ran
  obtain ⟨base, old, start, overOld, rfl⟩ := linear_over.mp ran
  -- the step
  unfold reorganize at ok
  rw [disconnectBlock_iterate] at ok
  obtain ⟨n₁, connects, rfl⟩ := ok_of_map ok
  obtain ⟨new, overNew, rfl⟩ := (connect_over answered).mp connects
  refine ⟨rfl, ?_⟩
  have valid : Valid u.txs (blocks ((n.chain.take k).reverse.reverse ++ n.chain.drop k)) := parts ▸ valid
  have redone := applyAll_redone_iff (fun o registers => registers_new valid start overOld registers)
    fun o held registers => held (registers_new valid' start overNew registers)
  rw [show applyAll base.registry old = n.registry from same] at redone
  constructor
  · rintro ⟨m', ran', same'⟩ n₂ old' new' start' overOld' overNew'
    obtain ⟨base', es, start₃, overNew₃, rfl⟩ := linear_over.mp ran'
    obtain rfl := Except.ok.inj (start.symm.trans start')
    obtain rfl := Except.ok.inj (start.symm.trans start₃)
    obtain rfl := Except.ok.inj (overOld.symm.trans overOld')
    obtain rfl := Except.ok.inj (overNew.symm.trans overNew')
    obtain rfl := Except.ok.inj (overNew.symm.trans overNew₃)
    exact redone.mp same'.symm
  · intro again
    refine ⟨_, linear_over.mpr ⟨base, new, start, overNew, rfl⟩, ?_⟩
    exact (redone.mpr (again base old new start overOld overNew)).symm

private theorem Redone.extension (chain : List Block) (connected : List Block) : Redone u fork chain 0 connected := by
  intro n old new _ overOld _
  obtain rfl : [] = old := Except.ok.inj overOld
  simp [Registers, Spends]

private theorem follows_step_iff (follows : n.Follows u fork) (valid : Valid u.txs (blocks n.chain))
    (valid' : Valid u.txs (blocks (e.chain n.chain))) (ok : n.step u fork e = .ok n') (answered : e.Answered u n) :
    n'.chain = e.chain n.chain ∧ (n'.Follows u fork ↔ e.Redone u fork n) := by
  cases e with
  | extend b =>
    rw [Node.step, extend_eq_reorganize] at ok
    have valid' : Valid u.txs (blocks ([b].reverse ++ n.chain.drop 0)) := valid'
    obtain ⟨chain, iff_⟩ := follows_reorganize_iff follows valid valid' ok answered
    exact ⟨chain, iff_.trans (iff_of_true (Redone.extension n.chain [b]) trivial)⟩
  | reorganize k connected => exact follows_reorganize_iff follows valid valid' ok answered

private theorem Run.follows (run : Run u fork n) : n.Follows u fork ∧ Valid u.txs (blocks n.chain) := by
  induction run with
  | genesis => exact ⟨⟨_, rfl, rfl⟩, trivial⟩
  | step run valid ok answered redone ih =>
    obtain ⟨chain, iff_⟩ := follows_step_iff ih.1 ih.2 valid ok answered
    exact ⟨iff_.mpr redone, chain ▸ valid⟩

/-- In every run whose steps meet the two conditions the registry is that of the active chain; where the
index answers for the new chain, a step breaks this exactly when the new branch does not redo what the
disconnected blocks did. -/
theorem registry_follows_iff (run : Run u fork n) :
    n.Follows u fork ∧ ∀ e n', Valid u.txs (blocks (e.chain n.chain)) → n.step u fork e = .ok n' → e.Answered u n →
      (n'.Follows u fork ↔ e.Redone u fork n) :=
  ⟨run.follows.1, fun _ _ valid ok answered => (follows_step_iff run.follows.1 run.follows.2 valid ok answered).2⟩

/-- A node that has only extended its chain. -/
theorem run_linear (valid : Valid u.txs (blocks chain)) (ran : linear u fork chain = .ok n) : Run u fork n := by
  induction chain generalizing n with
  | nil =>
    obtain rfl := Except.ok.inj ran
    exact .genesis
  | cons b rest ih =>
    obtain ⟨before, start, ran⟩ := except_bind_ok ran
    obtain ⟨same, index⟩ := linear_shape start
    have answered : (Event.extend b).Answered u before := by
      refine ⟨?_, trivial⟩
      rw [index, same]
      exact fun _ _ _ _ _ _ _ _ _ => rfl
    refine .step (e := .extend b) (ih valid.2 start) ?_ ran answered trivial
    rw [same]
    exact valid

end

namespace Registration

def coinBase (height : Nat) (tag : UInt8) : Hash := ⟨UInt8.ofNat height :: List.replicate 31 tag, by simp⟩

def parent : Hash := ByteArr.filled 32 1

def registration : Hash := ByteArr.filled 32 2

def payee : Script := [OP_DUP, OP_HASH160, 20] ++ List.replicate 20 7 ++ [OP_EQUALVERIFY, OP_CHECKSIG]

def marker : Script := [OP_RETURN, 6] ++ HREG_MAGIC_BYTES

/-- A collateral and its registration; every other hash stands for a coinbase. -/
def contents : Contents where
  tx h :=
    if h = parent then ⟨[⟨coinBase 0 3, 0⟩], [⟨HREG_COLLATERAL, payee⟩]⟩
    else if h = registration then ⟨[⟨parent, 0⟩], [⟨HREG_COLLATERAL, payee⟩, ⟨0, marker⟩]⟩
    else if h = nullOutPoint.txid then ⟨[], []⟩
    else ⟨[nullOutPoint], [⟨0, payee⟩]⟩
  pushedHeight h := (h.val.headD 0).toNat
  rank h := if h = parent then 2 else if h = registration then 3 else if h = nullOutPoint.txid then 0 else 1
  covers h o spent := by
    by_cases one : h = parent
    · subst one
      obtain rfl : o = ⟨coinBase 0 3, 0⟩ := by simpa using spent
      decide
    · by_cases two : h = registration
      · subst two
        obtain rfl : o = ⟨parent, 0⟩ := by simpa [one] using spent
        decide
      · by_cases null : h = nullOutPoint.txid
        · rw [if_neg one, if_neg two, if_pos null] at spent
          cases spent
        · obtain rfl : o = nullOutPoint := by simpa [one, two, null] using spent
          rw [if_neg one, if_neg two, if_neg null]
          decide

/-- The collateral is created at height 1 and registered at height 17. -/
def block (height : Nat) : Block :=
  ⟨coinBase height 5, coinBase height 3 :: if height = 1 then [parent] else if height = 17 then [registration] else []⟩

def chain (length : Nat) : List Block := ((List.range length).map block).reverse

/-- Another block at height 17. -/
def other : Block := ⟨coinBase 17 6, [coinBase 17 4]⟩

def collateral : OutPoint := ⟨registration, 0⟩

private theorem chain_valid : Valid contents.txs (blocks (chain 18)) := by decide +kernel

private theorem other_valid : Valid contents.txs (blocks (other :: chain 17)) := by decide +kernel

/-- What a run leaves of the collateral. -/
def left (ran : Except String Node) : Option (Option RegisteredCollateralState) :=
  match ran with
  | .error _ => none
  | .ok n => some (n.registry collateral)

theorem runs_of_left (kept : left ran = some held) : ∃ n, ran = .ok n ∧ n.registry collateral = held := by
  cases ran with
  | error reason => cases kept
  | ok n => exact ⟨n, rfl, Option.some.inj kept⟩

theorem chain_runs : ∃ n, linear contents 0 (chain 18) = .ok n ∧ n.chain = chain 18 ∧ Run contents 0 n ∧
    n.registry collateral = some ⟨payee, 17, .pending⟩ := by
  have kept : left (linear contents 0 (chain 18)) = some (some ⟨payee, 17, .pending⟩) := by decide +kernel
  obtain ⟨n, start, kept⟩ := runs_of_left kept
  exact ⟨n, start, (linear_shape start).1, run_linear chain_valid start, kept⟩

/-- The registration of a disconnected block stays in the registry, although no block of the active chain
makes it. -/
theorem registration_outlives_block :
    ∃ n n', Run contents 0 n ∧ Valid contents.txs (blocks ((Event.reorganize 1 [other]).chain n.chain)) ∧
      n.step contents 0 (.reorganize 1 [other]) = .ok n' ∧ (Event.reorganize 1 [other]).Answered contents n ∧
      n'.registry collateral = some ⟨payee, 17, .pending⟩ ∧ ¬ n'.Follows contents 0 := by
  have after : left (linear contents 0 (chain 18) >>= fun n => n.step contents 0 (.reorganize 1 [other])) =
      some (some ⟨payee, 17, .pending⟩) := by decide +kernel
  have alone : left (linear contents 0 (other :: chain 17)) = some none := by decide +kernel
  obtain ⟨n, start, same, run, -⟩ := chain_runs
  have unmarked : ∀ h ∈ other.vtx, markers (contents.tx h) ≠ 1 := by decide
  have answered : (Event.reorganize 1 [other]).Answered contents n :=
    ⟨fun h member marked => absurd marked (unmarked h member), trivial⟩
  have valid : Valid contents.txs (blocks ((Event.reorganize 1 [other]).chain n.chain)) := by
    rw [same]
    exact other_valid
  rw [start] at after
  obtain ⟨n', ran, kept⟩ := runs_of_left after
  refine ⟨n, n', run, valid, ran, answered, kept, ?_⟩
  rintro ⟨m, ran', same'⟩
  have chain' := (follows_step_iff run.follows.1 run.follows.2 valid ran answered).1
  rw [chain', same] at ran'
  obtain ⟨_, linear', absent⟩ := runs_of_left alone
  cases linear'.symm.trans ran'
  rw [same', kept] at absent
  cases absent

theorem registry_follows_registered : ∃ n : Node, n.registry collateral = some ⟨payee, 17, .pending⟩ ∧
    n.Follows contents 0 ∧
      ∀ (e : Event) (n' : Node), Valid contents.txs (blocks (e.chain n.chain)) →
        n.step contents 0 e = .ok n' → e.Answered contents n →
        (n'.Follows contents 0 ↔ e.Redone contents 0 n) := by
  obtain ⟨n, -, -, run, kept⟩ := chain_runs
  exact ⟨n, kept, registry_follows_iff run⟩

end Registration

end Innova.Hreg
