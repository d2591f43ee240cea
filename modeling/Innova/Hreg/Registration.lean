import Innova.Mempool.Coins

/-! Collateral registrations (`hreg_registration.cpp`): which transactions register a collateral and what
`ApplyConnectedTx` makes of the registry. -/
namespace Innova.Hreg
open Lib Chainstate

abbrev Script := Bytes

/-- `CTxOut`. -/
structure TxOut where
  nValue : Int
  scriptPubKey : Script
deriving DecidableEq

/-- `CTxOut()`. -/
def TxOut.null : TxOut := ⟨-1, []⟩

def TxOut.isEmpty (o : TxOut) : Bool := decide (o.nValue = 0) && o.scriptPubKey.isEmpty

/-- `CTransaction`, as far as recognition reads it. -/
structure Tx where
  vin : List OutPoint
  vout : List TxOut
deriving DecidableEq

def Tx.isCoinBase (tx : Tx) : Bool := decide (tx.vin = [Mempool.nullOutPoint]) && decide (1 ≤ tx.vout.length)

/-- `CTransaction::IsCoinStake`. -/
def Tx.isCoinStake (tx : Tx) : Bool :=
  (tx.vin.head?.any fun o => decide (o ≠ Mempool.nullOutPoint)) && decide (2 ≤ tx.vout.length) &&
    tx.vout.head?.any TxOut.isEmpty

/-! ## Scripts -/

def OP_PUSHDATA1 : UInt8 := 0x4c
def OP_PUSHDATA2 : UInt8 := 0x4d
def OP_PUSHDATA4 : UInt8 := 0x4e
def OP_RETURN : UInt8 := 0x6a
def OP_DUP : UInt8 := 0x76
def OP_EQUALVERIFY : UInt8 := 0x88
def OP_HASH160 : UInt8 := 0xa9
def OP_CHECKSIG : UInt8 := 0xac
def MAX_SCRIPT_ELEMENT_SIZE : Nat := 520

/-- The size of the operand that a push opcode announces, and what is left of the script. -/
def pushSize (op : UInt8) (s : Script) : Option (Nat × Script) :=
  if op < OP_PUSHDATA1 then some (op.toNat, s)
  else if op = OP_PUSHDATA1 then if s.length < 1 then none else some (Bytes.toNat (s.take 1), s.drop 1)
  else if op = OP_PUSHDATA2 then if s.length < 2 then none else some (Bytes.toNat (s.take 2), s.drop 2)
  else if s.length < 4 then none else some (Bytes.toNat (s.take 4), s.drop 4)

/-- `GetOp2`: the opcode, its operand, and what is left of the script. -/
def getOp : Script → Option (UInt8 × Bytes × Script)
  | [] => none
  | op :: s =>
    if op ≤ OP_PUSHDATA4 then do
      let (nSize, s) ← pushSize op s
      if MAX_SCRIPT_ELEMENT_SIZE < nSize then none
      else if s.length < nSize then none
      else some (op, s.take nSize, s.drop nSize)
    else some (op, [], s)

def HREG_MAGIC_BYTES : Bytes := [0x49, 0x4e, 0x43, 0x4e, 0x01, 0x01]

def HREG_COLLATERAL : Int := 25000 * 100000000

/-- `ExtractExactMarkerPayload`. -/
def extractExactMarkerPayload (s : Script) : Option Bytes := do
  let (opcode, _, s) ← getOp s
  guard (opcode = OP_RETURN)
  let (opcode, payload, s) ← getOp s
  guard (opcode ≤ OP_PUSHDATA4)
  guard (s = [])
  return payload

/-- `IsExactHRegMarkerScript`. -/
def isExactHRegMarkerScript (s : Script) : Bool := extractExactMarkerPayload s == some HREG_MAGIC_BYTES

/-- `Solver` answers `TX_PUBKEYHASH`. -/
def isStandardP2PKHScript (s : Script) : Bool :=
  let matched : Option Unit := do
    let (dup, _, s) ← getOp s
    guard (dup = OP_DUP)
    let (hash160, _, s) ← getOp s
    guard (hash160 = OP_HASH160)
    let (_, key, s) ← getOp s
    guard (key.length = 20)
    let (equal, _, s) ← getOp s
    guard (equal = OP_EQUALVERIFY)
    let (checksig, _, s) ← getOp s
    guard (checksig = OP_CHECKSIG ∧ s = [])
  matched.isSome

/-! ## Evaluation -/

/-- An entry of `MapPrevTx`: which outputs count as spent, and the previous transaction. -/
structure PrevTx where
  vSpent : List Bool
  txPrev : Tx

abbrev MapPrevTx := Hash → Option PrevTx

/-- The answers of `GetPrevTxHeight`. -/
inductive HeightResult
  | found (height : Nat)
  | notFound
  | notActive
  | authorityFailure (error : String)
deriving DecidableEq

section
variable (heights : Hash → HeightResult) (inputs : MapPrevTx)

/-- The tests of `FindUniqueQualifyingInput` before the height, with the script it pays to. -/
def qualifies (o : OutPoint) : Option Script := do
  let prev ← inputs o.txid
  let spent ← prev.vSpent[o.n.toNat]?
  let out ← prev.txPrev.vout[o.n.toNat]?
  guard (spent = false)
  guard (prev.txPrev.isCoinBase = false ∧ prev.txPrev.isCoinStake = false)
  guard (out.nValue = HREG_COLLATERAL)
  guard (isStandardP2PKHScript out.scriptPubKey)
  return out.scriptPubKey

/-- What the search for the collateral finds. -/
inductive Qualifying
  | nothing
  | one (outpoint : OutPoint) (payee : Script)
  | duplicate
  | authorityFailure (error : String)

/-- The loop of `FindUniqueQualifyingInput`, with what it has found so far. -/
def findUniqueQualifyingInput : Option (OutPoint × Script) → List OutPoint → Qualifying
  | none, [] => .nothing
  | some (outpoint, payee), [] => .one outpoint payee
  | sofar, o :: rest =>
    match qualifies inputs o with
    | none => findUniqueQualifyingInput sofar rest
    | some payee =>
      match heights o.txid with
      | .authorityFailure error => .authorityFailure error
      | .notFound | .notActive => findUniqueQualifyingInput sofar rest
      | .found _ =>
        match sofar with
        | some _ => .duplicate
        | none => findUniqueQualifyingInput (some (o, payee)) rest

/-- What `EvaluateHRegRegistrationTx` answers. -/
inductive ParseResult
  | nothing
  | apply (oldCollateral newCollateral : OutPoint) (paymentScript : Script)
  | reject (reason : String)
deriving DecidableEq

/-- The outputs that are markers. -/
def markers (tx : Tx) : Nat := tx.vout.countP fun o => isExactHRegMarkerScript o.scriptPubKey

/-- `CountMatchingCollateralOutputs`, the indices it collects. -/
def matchingOutputs (tx : Tx) (payee : Script) : List Nat :=
  (List.range tx.vout.length).filter fun i => tx.vout[i]? == some ⟨HREG_COLLATERAL, payee⟩

/-- `EvaluateHRegRegistrationTx` at a height where recognition is active. -/
def evaluate (hash : Hash) (tx : Tx) (nBlockHeight : Nat) : ParseResult :=
  if markers tx = 0 then .nothing
  else if 1 < markers tx then .reject "multiple exact HREG markers"
  else if tx.isCoinBase || tx.isCoinStake then .nothing
  else
    match findUniqueQualifyingInput heights inputs none tx.vin with
    | .authorityFailure error => .reject error
    | .duplicate => .reject "duplicate qualifying collateral inputs"
    | .nothing => .nothing
    | .one oldCollateral payee =>
      match heights oldCollateral.txid with
      | .authorityFailure error => .reject error
      | .notFound | .notActive => .nothing
      | .found nPrevHeight =>
        if (nBlockHeight : Int) - 1 - nPrevHeight < 15 then .nothing
        else
          match matchingOutputs tx payee with
          | [] => .nothing
          | [i] => .apply oldCollateral (Mempool.Txs.outpoint hash i) payee
          | _ => .reject "multiple recreated matching collateral outputs"

end

/-! ## The registry -/

/-- The state of a registered collateral. -/
inductive RegistrationState
  | pending | eligible | spent
deriving DecidableEq

/-- An entry of the registry. -/
structure RegisteredCollateralState where
  paymentScript : Script
  registrationHeight : Nat
  state : RegistrationState
deriving DecidableEq

/-- `m_states`. -/
abbrev RegistryState := OutPoint → Option RegisteredCollateralState

namespace RegistryState

def empty : RegistryState := fun _ => none

/-- The entries of the spent outpoints are marked. -/
def spend (r : RegistryState) (vin : List OutPoint) : RegistryState := fun o =>
  if o ∈ vin then (r o).map fun entry => { entry with state := .spent } else r o

/-- A new entry, pending. -/
def register (r : RegistryState) (o : OutPoint) (paymentScript : Script) (height : Nat) : RegistryState :=
  Function.update r o (some ⟨paymentScript, height, .pending⟩)

end RegistryState

/-- What a connected transaction does to the registry. -/
structure Effect where
  vin : List OutPoint
  /-- The collateral it registers, with the script and the height. -/
  registered : Option (OutPoint × Script × Nat)

/-- Connecting a transaction: the entries it spends, then the one it makes. -/
def Effect.apply (r : RegistryState) (e : Effect) : RegistryState :=
  match e.registered with
  | none => r.spend e.vin
  | some (o, script, height) => (r.spend e.vin).register o script height

/-- What `ApplyConnectedTx` will do, or the reason why the transaction is refused. -/
def effectOf (heights : Hash → HeightResult) (inputs : MapPrevTx) (hash : Hash) (tx : Tx) (nBlockHeight : Nat) :
    Except String Effect :=
  match evaluate heights inputs hash tx nBlockHeight with
  | .reject reason => .error reason
  | .nothing => .ok ⟨tx.vin, none⟩
  | .apply _ newCollateral paymentScript => .ok ⟨tx.vin, some (newCollateral, paymentScript, nBlockHeight)⟩

/-- `ApplyConnectedTx` at a height where recognition is active. -/
def applyConnectedTx (heights : Hash → HeightResult) (inputs : MapPrevTx) (hash : Hash) (tx : Tx) (nBlockHeight : Nat)
    (r : RegistryState) : Except String RegistryState :=
  (effectOf heights inputs hash tx nBlockHeight).map (Effect.apply r)

/-! ## What a list of effects leaves -/

def applyAll (r : RegistryState) (es : List Effect) : RegistryState := es.foldl Effect.apply r

/-- One of the effects registers the collateral. -/
def Registers (es : List Effect) (o : OutPoint) : Prop :=
  ∃ e ∈ es, ∃ script height, e.registered = some (o, script, height)

/-- One of the effects spends the output. -/
def Spends (es : List Effect) (o : OutPoint) : Prop := ∃ e ∈ es, o ∈ e.vin

section
variable {e : Effect}

theorem applyAll_append : applyAll r (es ++ fs) = applyAll (applyAll r es) fs := List.foldl_append

theorem registers_cons : Registers (e :: es) o ↔ (∃ script height, e.registered = some (o, script, height)) ∨
    Registers es o := by
  simp [Registers]

theorem spends_cons : Spends (e :: es) o ↔ o ∈ e.vin ∨ Spends es o := by simp [Spends]

/-- A registration forgets what was there before. -/
theorem apply_registers (registered : e.registered = some (o, script, height)) :
    e.apply r o = some ⟨script, height, .pending⟩ := by
  simp [Effect.apply, registered, RegistryState.register]

theorem apply_other (other : ¬ ∃ script height, e.registered = some (o, script, height)) :
    e.apply r o = r.spend e.vin o := by
  obtain ⟨vin, none | ⟨o', script, height⟩⟩ := e
  · rfl
  · have apart : o ≠ o' := by
      rintro rfl
      exact other ⟨script, height, rfl⟩
    simp [Effect.apply, RegistryState.register, apart]

/-- What is left of an outpoint that no effect registers. -/
theorem applyAll_plain (plain : ¬ Registers es o) :
    (Spends es o → applyAll r es o = (r o).map fun entry => { entry with state := .spent }) ∧
      (¬ Spends es o → applyAll r es o = r o) := by
  induction es generalizing r with
  | nil => simp [Spends, applyAll]
  | cons e rest ih =>
    rw [registers_cons, not_or] at plain
    obtain ⟨spent, unspent⟩ := ih (r := e.apply r) plain.2
    have here := apply_other (r := r) plain.1
    rw [spends_cons, not_or]
    refine ⟨fun spends => ?_, fun none => ?_⟩
    · by_cases later : Spends rest o
      · refine (spent later).trans ?_
        rw [here, RegistryState.spend]
        split
        · rw [Option.map_map]
          rfl
        · rfl
      · refine (unspent later).trans ?_
        rw [here, RegistryState.spend, if_pos (spends.resolve_right later)]
    · refine (unspent none.2).trans ?_
      rw [here, RegistryState.spend, if_neg none.1]

private theorem applyAll_congr (plain : ¬ Registers es o) (same : r o = r' o) : applyAll r es o = applyAll r' es o := by
  by_cases spends : Spends es o
  · rw [(applyAll_plain plain).1 spends, (applyAll_plain plain).1 spends, same]
  · rw [(applyAll_plain plain).2 spends, (applyAll_plain plain).2 spends, same]

theorem applyAll_none_iff (plain : ¬ Registers es o) : applyAll r es o = none ↔ r o = none := by
  by_cases spends : Spends es o
  · rw [(applyAll_plain plain).1 spends, Option.map_eq_none_iff]
  · rw [(applyAll_plain plain).2 spends]

private theorem applyAll_registers (registers : Registers es o) :
    applyAll r es o = applyAll r' es o ∧ applyAll r es o ≠ none := by
  induction es generalizing r r' with
  | nil => simp [Registers] at registers
  | cons e rest ih =>
    by_cases later : Registers rest o
    · exact ih later
    · -- the last registration: what follows can only spend
      obtain ⟨script, height, registered⟩ := (registers_cons.mp registers).resolve_right later
      have same : e.apply r o = e.apply r' o := (apply_registers registered).trans (apply_registers registered).symm
      have kept : applyAll (e.apply r) rest o = applyAll (e.apply r') rest o := applyAll_congr later same
      refine ⟨kept, fun none => ?_⟩
      have none : applyAll (e.apply r) rest o = Option.none := none
      rw [applyAll_none_iff later, apply_registers registered] at none
      cases none

/-- Effects that are not undone leave no trace under further effects exactly when these register and spend
again what they registered and spent. -/
theorem applyAll_redone_iff (newD : ∀ o, Registers es o → r o = none) (newE : ∀ o, r o ≠ none → ¬ Registers fs o) :
    applyAll (applyAll r es) fs = applyAll r fs ↔ (∀ o, Registers es o → Registers fs o) ∧
        ∀ o entry, r o = some entry → entry.state ≠ .spent → Spends es o → Spends fs o := by
  constructor
  · intro same
    refine ⟨fun o registers => ?_, fun o entry held unspent spends => ?_⟩
    · by_contra plain
      have absent := (applyAll_none_iff plain).mpr (newD o registers)
      rw [← congrFun same o, applyAll_none_iff plain] at absent
      have present : applyAll r es o = applyAll r es o ∧ _ := applyAll_registers registers
      exact present.2 absent
    · by_contra kept
      have plainD : ¬ Registers es o := fun registers => by
        rw [newD o registers] at held
        cases held
      have plainE := newE o (by rw [held]; simp)
      have here := congrFun same o
      rw [(applyAll_plain plainE).2 kept, (applyAll_plain plainE).2 kept,
        (applyAll_plain plainD).1 spends, held] at here
      exact unspent (congrArg RegisteredCollateralState.state (Option.some.inj here)).symm
  · rintro ⟨registered, spent⟩
    funext o
    by_cases again : Registers fs o
    · exact (applyAll_registers again).1
    · have plainD : ¬ Registers es o := fun registers => again (registered o registers)
      by_cases spends : Spends es o
      · have marked := (applyAll_plain (r := r) plainD).1 spends
        cases held : r o with
        | none => exact applyAll_congr again (by rw [marked, held]; rfl)
        | some entry =>
          by_cases unspent : entry.state = .spent
          · refine applyAll_congr again ?_
            rw [marked, held, Option.map_some, ← unspent]
          · have later := spent o entry held unspent spends
            rw [(applyAll_plain again).1 later, (applyAll_plain again).1 later, marked, held]
            rfl
      · exact applyAll_congr again ((applyAll_plain plainD).2 spends)

end
end Innova.Hreg
