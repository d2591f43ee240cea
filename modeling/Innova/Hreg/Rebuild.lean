import Innova.Hreg.Follow

/-! The startup rebuild of the registry (`RebuildHRegStateFromActiveChainByValue`) against connecting the same
blocks one by one. -/
namespace Innova.Hreg
open Lib Chainstate Mempool

section
variable (u : Contents) (fork : Nat) (index : Index) (store : Finset OutPoint)

/-- The prev-tx entry with the outputs for which `spent` holds marked. -/
def replayed (txid : Hash) (spent : OutPoint → Bool) : PrevTx where
  vSpent := (List.range (u.tx txid).vout.length).map fun i => spent (Txs.outpoint txid i)
  txPrev := u.tx txid

/-- `BuildReplayInputsForTx`: a transaction of the block so far, or one that TX-LOC can locate, with what the
coin store holds now as unspent. -/
def buildReplayInputs (localTx : List Hash) (localSpent : List OutPoint) : List OutPoint →
    MapPrevTx → Except String MapPrevTx
  | [], m => .ok m
  | o :: rest, m =>
    if (m o.txid).isSome then buildReplayInputs localTx localSpent rest m
    else if o.txid ∈ localTx then
      buildReplayInputs localTx localSpent rest
        (Function.update m o.txid (some (replayed u o.txid fun k => decide (k ∈ localSpent))))
    else
      match index.loc o.txid with
      | none => .error "HREG rebuild: missing prev tx location (TX-LOC)"
      | some _ =>
        buildReplayInputs localTx localSpent rest
          (Function.update m o.txid (some (replayed u o.txid fun k => decide (k ∉ store))))

/-- The loop over the transactions of a block. -/
def rebuildTxs (height : Nat) : List Hash → List OutPoint → List Hash → RegistryState → Except String RegistryState
  | _, _, [], r => .ok r
  | localTx, localSpent, h :: rest, r => do
    let inputs ← buildReplayInputs u index store localTx localSpent (u.tx h).vin fun _ => none
    let r ← applyConnectedTx index.height inputs h (u.tx h) height r
    rebuildTxs height (h :: localTx) (localSpent ++ (u.tx h).vin) rest r

/-- One height of the rebuild. -/
def rebuildHeight (chain : List Block) (r : RegistryState) (height : Nat) : Except String RegistryState :=
  if fork ≤ height then
    match chain.reverse[height]? with
    | none => .error "HREG rebuild(bv): lookup failed"
    | some b => rebuildTxs u index store height [] [] b.vtx r
  else .ok r

/-- `RebuildHRegStateFromActiveChainByValue` over a reader of the chain. -/
def rebuild (chain : List Block) (startHeight heightLimit : Int) : Except String RegistryState :=
  let activeHeight : Int := chain.length - 1
  let start := startHeight.toNat
  let stop := if heightLimit < 0 then activeHeight else min heightLimit activeHeight
  (List.range' start ((stop + 1).toNat - start)).foldlM (rebuildHeight u fork index store chain) .empty

end

section
variable {u : Contents} {fork : Nat} {index : Index} {chain : List Block}

private theorem rebuild_whole (chain : List Block) : rebuild u fork index store chain 0 (-1) =
      (List.range chain.length).foldlM (rebuildHeight u fork index store chain) .empty := by
  simp [rebuild, List.range_eq_range']

/-- The null input of the coinbase has no location. -/
theorem rebuildTxs_coinBase (minted : (u.tx c).isCoinBase = true) (unlocated : index.loc nullOutPoint.txid = none)
    (r : RegistryState) :
    rebuildTxs u index store height [] [] (c :: rest) r = .error "HREG rebuild: missing prev tx location (TX-LOC)" := by
  have vin : (u.tx c).vin = [nullOutPoint] := u.txs.coinBase c minted
  simp only [rebuildTxs, vin, buildReplayInputs, Option.isSome_none, Bool.false_eq_true, if_false,
    List.not_mem_nil, unlocated]
  rfl

/-- Where recognition is not active a block has no effects. -/
theorem effectsOfTxs_inactive (early : height < fork)
    (ok : effectsOfTxs u fork heights store height created vtx = .ok es) : es = [] := by
  induction vtx generalizing created es with
  | nil => exact (Except.ok.inj ok).symm
  | cons h rest ih =>
    obtain ⟨here, first, ok⟩ := except_bind_ok ok
    obtain ⟨later, second, ok⟩ := except_bind_ok ok
    obtain rfl : here ++ later = es := Except.ok.inj ok
    have none : here = [] := by
      simp only [effectsOfTx, if_neg (Nat.not_le.mpr early)] at first
      split at first
      · exact (Except.ok.inj first).symm
      · split at first
        · cases first
        · exact (Except.ok.inj first).symm
    rw [none, ih second, List.nil_append]

private theorem linear_inactive (early : chain.length ≤ fork) (live : linear u fork chain = .ok m) :
    m.registry = .empty := by
  induction chain generalizing m with
  | nil =>
    obtain rfl := Except.ok.inj live
    rfl
  | cons b rest ih =>
    obtain ⟨n, es, before, effects, rfl⟩ := (linear_cons fun _ => linear_shape).mp live
    obtain rfl := effectsOfTxs_inactive early effects
    have same : n.registry = .empty := ih (Nat.le_of_succ_le early) before
    exact same

/-- The rebuild reproduces the live registry exactly when no block of the chain is at a height where
recognition is active: it fails at the coinbase of the first such block. -/
theorem rebuild_matches_live_iff {m : Node} (coinBases : ∀ b ∈ chain, ∃ c rest, b.vtx = c :: rest ∧
    (u.tx c).isCoinBase = true)
    (unlocated : index.loc nullOutPoint.txid = none) (live : linear u fork chain = .ok m) :
    rebuild u fork index (coinsOf u.txs (blocks chain)) chain 0 (-1) = .ok m.registry ↔ chain.length ≤ fork := by
  rw [rebuild_whole]
  constructor
  · intro rebuilt
    by_contra late
    rw [Nat.not_le] at late
    have within : fork < chain.reverse.length := by simpa using late
    obtain ⟨c, rest, vtx, minted⟩ := coinBases _ (List.mem_reverse.mp (List.getElem_mem within))
    have fails (r : RegistryState) : rebuildHeight u fork index (coinsOf u.txs (blocks chain)) chain r fork =
        .error "HREG rebuild: missing prev tx location (TX-LOC)" := by
      rw [rebuildHeight, if_pos le_rfl, List.getElem?_eq_getElem within]
      simp only [vtx]
      exact rebuildTxs_coinBase minted unlocated r
    -- the loop cannot pass the first recognised height
    have stuck (heights : List Nat) (r : RegistryState) (member : fork ∈ heights) (r' : RegistryState) :
        heights.foldlM (rebuildHeight u fork index (coinsOf u.txs (blocks chain)) chain) r ≠ .ok r' := by
      induction heights generalizing r with
      | nil => cases member
      | cons height rest ih =>
        intro ran
        obtain ⟨next, first, ran⟩ := except_bind_ok ran
        rcases List.mem_cons.mp member with rfl | later
        · rw [fails] at first
          cases first
        · exact ih next later ran
    exact stuck _ _ (List.mem_range.mpr late) _ rebuilt
  · intro early
    rw [linear_inactive early live]
    have idle (heights : List Nat) (low : ∀ height ∈ heights, height < fork) :
        heights.foldlM (rebuildHeight u fork index (coinsOf u.txs (blocks chain)) chain) RegistryState.empty =
          .ok RegistryState.empty := by
      induction heights with
      | nil => rfl
      | cons height rest ih =>
        rw [List.foldlM_cons, rebuildHeight, if_neg (Nat.not_le.mpr (low height (List.mem_cons_self ..)))]
        exact ih fun x member => low x (List.mem_cons_of_mem _ member)
    exact idle _ fun height member => (List.mem_range.mp member).trans_le early

end

namespace Registration

/-- Sixteen blocks after the collateral was created its registration is connected; the rebuild of the same
chain fails. -/
theorem rebuild_refuses_coinBase :
    ∃ m, linear contents 0 (chain 18) = .ok m ∧ m.registry collateral = some ⟨payee, 17, .pending⟩ ∧
      rebuild contents 0 m.index (coinsOf contents.txs (blocks (chain 18))) (chain 18) 0 (-1) =
        .error "HREG rebuild: missing prev tx location (TX-LOC)" := by
  obtain ⟨m, live, -, -, kept⟩ := chain_runs
  refine ⟨m, live, kept, ?_⟩
  have first : rebuildHeight contents 0 (indexOf (chain 18)) (coinsOf contents.txs (blocks (chain 18)))
    (chain 18) .empty 0 =
      .error "HREG rebuild: missing prev tx location (TX-LOC)" :=
    rebuildTxs_coinBase (by decide) (by decide +kernel) _
  have heights : List.range (chain 18).length = 0 :: (List.range 17).map Nat.succ := by decide
  rw [(linear_shape live).2]
  rfl

private theorem chain_coinBases : ∀ b ∈ chain 18, ∃ c rest, b.vtx = c :: rest ∧ (contents.tx c).isCoinBase = true := by
  have minted : ∀ height ∈ List.range 18, (contents.tx (coinBase height 3)).isCoinBase = true := by decide +kernel
  intro b member
  obtain ⟨height, inside, rfl⟩ := List.mem_map.mp (List.mem_reverse.mp member)
  exact ⟨coinBase height 3, _, rfl, minted height inside⟩

/-- Below the activation height the rebuild leaves the empty registry, as connecting does. -/
theorem rebuild_matches_live_early : ∃ m, linear contents 18 (chain 18) = .ok m ∧
      (rebuild contents 18 m.index (coinsOf contents.txs (blocks (chain 18))) (chain 18) 0 (-1) = .ok m.registry ↔
        (chain 18).length ≤ 18) := by
  have runs : left (linear contents 18 (chain 18)) = some none := by decide +kernel
  obtain ⟨m, live, -⟩ := runs_of_left runs
  refine ⟨m, live, rebuild_matches_live_iff chain_coinBases ?_ live⟩
  rw [(linear_shape live).2]
  decide +kernel

end Registration

end Innova.Hreg
