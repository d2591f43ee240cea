import Innova.Hreg.Follow

/-! `DisconnectTx` (`hreg_registration.cpp`). A connected transaction marks the entries it spends without a
record of their state, and the disconnection works that out from the heights. -/
namespace Innova.Hreg
open Lib Chainstate

/-- `ComputePreSpendState`. -/
def computePreSpendState (registrationHeight spendingBlockHeight : Nat) : RegistrationState :=
  if 15 ≤ (spendingBlockHeight : Int) - 1 - registrationHeight then .eligible else .pending

def RegisteredCollateralState.unmark (height : Nat) (entry : RegisteredCollateralState) : RegisteredCollateralState :=
  if entry.state = .spent then { entry with state := computePreSpendState entry.registrationHeight height } else entry

/-- The registered collateral goes, and the spent entries are unmarked. -/
def Effect.undo (height : Nat) (r : RegistryState) (e : Effect) : RegistryState := fun o =>
  if e.registered.any (·.1 = o) then none else if o ∈ e.vin then (r o).map (·.unmark height) else r o

def undoAll (height : Nat) (es : List Effect) (r : RegistryState) : RegistryState :=
  es.foldr (fun e r => e.undo height r) r

/-- A transaction of a block with the input map it had. -/
structure Included where
  inputs : MapPrevTx
  hash : Hash
  tx : Tx

section
variable (heights : Hash → HeightResult) (fork height : Nat)

def Included.effects (p : Included) : Except String (List Effect) :=
  if fork ≤ height then (effectOf heights p.inputs p.hash p.tx height).map fun e => [e] else .ok []

/-- `ApplyConnectedTx`. -/
def connectTx (p : Included) (r : RegistryState) : Except String RegistryState :=
  (p.effects heights fork height).map (applyAll r)

def connectTxs : List Included → RegistryState → Except String RegistryState
  | [], r => .ok r
  | p :: rest, r => do
    let r ← connectTx heights fork height p r
    connectTxs rest r

/-- `DisconnectTx`. -/
def disconnectTx (p : Included) (r : RegistryState) : Except String RegistryState :=
  (p.effects heights fork height).map fun es => undoAll height es r

/-- The last transaction is disconnected first. -/
def disconnectTxs : List Included → RegistryState → Except String RegistryState
  | [], r => .ok r
  | p :: rest, r => do
    let r ← disconnectTxs rest r
    disconnectTx heights fork height p r

/-- What the transactions of a block do to the registry. -/
def effects (txs : List Included) : List Effect :=
  txs.flatMap fun p => ((p.effects heights fork height).toOption).getD []

end

variable {heights : Hash → HeightResult} {fork height : Nat}

private theorem connectTxs_effects (connected : connectTxs heights fork height txs r = .ok r') :
    r' = applyAll r (effects heights fork height txs) ∧
      ∀ x, disconnectTxs heights fork height txs x = .ok (undoAll height (effects heights fork height txs) x) := by
  induction txs generalizing r with
  | nil =>
    cases connected
    exact ⟨rfl, fun _ => rfl⟩
  | cons p rest ih =>
    obtain ⟨mid, first, later⟩ := except_bind_ok connected
    obtain ⟨es, here, rfl⟩ := ok_of_map first
    obtain ⟨rfl, undone⟩ := ih later
    have more : effects heights fork height (p :: rest) = es ++ effects heights fork height rest := by
      rw [effects, List.flatMap_cons, here]
      rfl
    refine ⟨by rw [more, applyAll_append], fun x => ?_⟩
    rw [more, undoAll, List.foldr_append, disconnectTxs, undone]
    show (p.effects heights fork height).map _ = _
    rw [here]
    rfl

private theorem unmark_twice (entry : RegisteredCollateralState) :
    (entry.unmark height).unmark height = entry.unmark height := by
  unfold RegisteredCollateralState.unmark computePreSpendState
  by_cases spent : entry.state = .spent
  · rw [if_pos spent, if_neg (by dsimp only; split <;> simp)]
  · rw [if_neg spent, if_neg spent]

open Classical in
/-- An entry that the block did not make is unmarked once, however often it was spent. -/
theorem undoAll_eq (r : RegistryState) (o : OutPoint) : undoAll height es r o =
    if Registers es o then none else if Spends es o then (r o).map (·.unmark height) else r o := by
  induction es with
  | nil => simp [undoAll, Registers, Spends]
  | cons e es ih =>
    have here : e.registered.any (·.1 = o) = true ↔ ∃ script at_, e.registered = some (o, script, at_) := by
      cases e.registered <;> simp [Prod.ext_iff]
    rw [undoAll, List.foldr_cons, ← undoAll, Effect.undo, ih, registers_cons, spends_cons, ← here]
    by_cases registered : e.registered.any (·.1 = o) <;> by_cases later : Registers es o
      <;> by_cases spent : o ∈ e.vin <;>
      by_cases more : Spends es o <;> simp [registered, later, spent, more, Function.comp_def, unmark_twice]

/-- The block registers what had no entry, and what it spends is in the state that the heights give. -/
def Restorable (height : Nat) (r : RegistryState) (es : List Effect) : Prop :=
  (∀ o, Registers es o → r o = none) ∧ ∀ o entry, ¬ Registers es o → Spends es o → r o = some entry →
    entry.state = computePreSpendState entry.registrationHeight height

private theorem undoAll_applyAll_iff : undoAll height es (applyAll r es) = r ↔ Restorable height r es := by
  have spent {o} (plain : ¬ Registers es o) (spends : Spends es o) : undoAll height es (applyAll r es) o =
      (r o).map fun entry => { entry with state := computePreSpendState entry.registrationHeight height } := by
    rw [undoAll_eq, if_neg plain, if_pos spends, (applyAll_plain plain).1 spends, Option.map_map]
    rfl
  constructor
  · intro same
    refine ⟨fun o registers => by rw [← congrFun same o, undoAll_eq,
      if_pos registers], fun o entry plain spends held => ?_⟩
    have here := (spent plain spends).symm.trans (congrFun same o)
    rw [held] at here
    exact (congrArg RegisteredCollateralState.state (Option.some.inj here)).symm
  · rintro ⟨new, states⟩
    funext o
    by_cases registers : Registers es o
    · rw [undoAll_eq, if_pos registers, new o registers]
    by_cases spends : Spends es o
    · rw [spent registers spends]
      cases held : r o with
      | none => rfl
      | some entry => rw [Option.map_some, ← states o entry registers spends held]
    · rw [undoAll_eq, if_neg registers, if_neg spends, (applyAll_plain registers).2 spends]

/-- No connected block makes an entry eligible. -/
theorem applyAll_state (plain : ∀ o entry, r o = some entry → entry.state ≠ .eligible) :
    ∀ o entry, applyAll r es o = some entry → entry.state ≠ .eligible := by
  induction es generalizing r with
  | nil => exact plain
  | cons e es ih =>
    refine ih fun o entry held => ?_
    by_cases registers : ∃ script height, e.registered = some (o, script, height)
    · obtain ⟨script, height, registered⟩ := registers
      rw [apply_registers registered] at held
      cases held
      simp
    · rw [apply_other registers, RegistryState.spend] at held
      split at held
      · obtain ⟨entry, -, rfl⟩ := Option.map_eq_some_iff.mp held
        simp
      · exact plain o entry held

private theorem linear_state (ran : linear u fork chain = .ok n) :
    ∀ o entry, n.registry o = some entry → entry.state ≠ .eligible := by
  induction chain generalizing n with
  | nil =>
    obtain rfl := Except.ok.inj ran
    exact fun _ _ held => nomatch held
  | cons b rest ih =>
    obtain ⟨n, es, before, -, rfl⟩ := (linear_cons fun _ => linear_shape).mp ran
    exact applyAll_state (ih before)

/-- On the registry of a connected chain, what the block spends is pending and registered fewer than 16 blocks
before it. -/
theorem restorable_iff_young (ran : linear u fork chain = .ok n) : Restorable height n.registry es ↔
    (∀ o, Registers es o → n.registry o = none) ∧ ∀ o entry, ¬ Registers es o → Spends es o →
    n.registry o = some entry →
      entry.state = .pending ∧ height < entry.registrationHeight + 16 := by
  refine and_congr_right fun _ => forall₅_congr fun o entry _ _ held => ?_
  have plain := linear_state ran o entry held
  unfold computePreSpendState
  split
  · next old => exact iff_of_false plain fun young => by omega
  · next young => exact ⟨fun pending => ⟨pending, by omega⟩, And.left⟩

/-- Disconnecting a connected block succeeds. It restores the registry exactly if no collateral was registered
over an entry and every spent entry was in the state that its age gives. -/
theorem disconnectTxs_restores_iff (connected : connectTxs heights fork height txs r = .ok r') :
    ∃ r'', disconnectTxs heights fork height txs r' = .ok r'' ∧
      (r'' = r ↔ Restorable height r (effects heights fork height txs)) := by
  obtain ⟨rfl, undone⟩ := connectTxs_effects connected
  exact ⟨_, undone _, undoAll_applyAll_iff⟩

namespace Registration

/-- A transaction that spends the registered collateral. -/
def spend : Included := ⟨fun _ => none, parent, ⟨[collateral], []⟩⟩

def registered : RegistryState := RegistryState.empty.register collateral payee 17

theorem disconnectTxs_restores_iff_young : ∃ r', connectTxs (fun _ => .notFound) 0 32 [spend] registered = .ok r' ∧
    disconnectTxs (fun _ => .notFound) 0 32 [spend] r' = .ok registered := by
  refine ⟨_, rfl, ?_⟩
  obtain ⟨r'', undone, restores⟩ := disconnectTxs_restores_iff
    (show connectTxs (fun _ => .notFound) 0 32 [spend] registered = .ok _ from rfl)
  have restorable : Restorable 32 registered [⟨[collateral], none⟩] := by
    refine ⟨by simp [Registers], fun o entry _ spends held => ?_⟩
    obtain rfl : o = collateral := by simpa [Spends] using spends
    cases held
    rfl
  rw [undone, restores.mpr restorable]

/-- The collateral is registered at height 17. A block at height 33 spends it, and is disconnected. -/
theorem spent_collateral_turns_eligible : ∃ n r' r'', linear contents 0 (chain 33) = .ok n ∧
    connectTxs n.index.height 0 33 [spend] n.registry = .ok r' ∧ disconnectTxs n.index.height 0 33
      [spend] r' = .ok r'' ∧
    n.registry collateral = some ⟨payee, 17, .pending⟩ ∧ r'' collateral = some ⟨payee, 17, .eligible⟩ := by
  obtain ⟨n, ran, held⟩ : ∃ n, linear contents 0 (chain 33) = .ok n ∧
    n.registry collateral = some ⟨payee, 17, .pending⟩ :=
    runs_of_left (by decide +kernel)
  refine ⟨n, _, _, ran, rfl, rfl, held, ?_⟩
  simp [undoAll, applyAll, Effect.undo, Effect.apply, RegistryState.spend, spend, held]
  rfl

end Registration
end Innova.Hreg
