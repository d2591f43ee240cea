import Innova.Wallet.Ledger

/-! The spent flags of the wallet's transactions (`wallet.cpp`): `WalletUpdateSpent`, `AddToWallet`,
`AddToWalletIfInvolvingMe` and `FixSpentCoins`. A transaction is live while it is confirmed on the active
chain or in the memory pool; a call that takes it up makes it live, and a reorganisation or an eviction
ends that. -/
namespace Innova.Wallet
open Lib Lib.Flags Chainstate

variable {S : Type}

/-! ## The flags of one transaction -/

namespace WalletTx

/-- `vfSpent.resize(vout.size())`. -/
def resized (wtx : WalletTx S) : List Bool :=
  wtx.vfSpent.take wtx.vout.length ++ List.replicate (wtx.vout.length - wtx.vfSpent.length) false

def mark (wtx : WalletTx S) (nOut : Nat) (spent : Bool) : WalletTx S :=
  { wtx with vfSpent := wtx.resized.set nOut spent }

def markSpent (wtx : WalletTx S) (nOut : Nat) : WalletTx S := wtx.mark nOut true

def markUnspent (wtx : WalletTx S) (nOut : Nat) : WalletTx S := wtx.mark nOut false

/-- `UpdateSpent`: a flag the other transaction has is taken over where there is a flag already. -/
def updateSpent (wtx : WalletTx S) (vfNewSpent : List Bool) : WalletTx S :=
  { wtx with vfSpent := wtx.vfSpent.zipIdx.map fun f => f.1 || vfNewSpent.getD f.2 false }

/-- The merge of `AddToWallet` into a transaction that is there already. -/
def merge (wtx wtxIn : WalletTx S) : WalletTx S :=
  { wtx.updateSpent wtxIn.vfSpent with hashBlock := wtxIn.hashBlock.or wtx.hashBlock }

private theorem mark_toTx (wtx : WalletTx S) (nOut : Nat) (spent : Bool) : (wtx.mark nOut spent).toTx = wtx.toTx := rfl

private theorem merge_toTx (wtx wtxIn : WalletTx S) : (wtx.merge wtxIn).toTx = wtx.toTx := rfl

private theorem isSpent_mark {wtx : WalletTx S} (inside : i < wtx.vout.length) :
    (wtx.mark nOut spent).isSpent i = if i = nOut then spent else wtx.isSpent i := by
  have length : wtx.resized.length = wtx.vout.length := by simp [resized]; omega
  simp only [mark, isSpent, List.getD_eq_getElem?_getD]
  by_cases here : i = nOut
  · subst here
    rw [List.getElem?_set_self (by omega), if_pos rfl, Option.getD_some]
  · rw [List.getElem?_set_ne (Ne.symm here), if_neg here]
    by_cases known : i < wtx.vfSpent.length
    · rw [resized, List.getElem?_append_left (by simp; omega), List.getElem?_take_of_lt inside]
    · rw [resized, List.getElem?_append_right (by simp; omega), List.getElem?_eq_none (l := wtx.vfSpent) (by omega),
        List.getElem?_replicate]
      split <;> rfl

private theorem isSpent_merge (wtx wtxIn : WalletTx S) (i : Nat) (spent : wtx.isSpent i = true) :
    (wtx.merge wtxIn).isSpent i = true := by
  simp only [isSpent, List.getD_eq_getElem?_getD] at spent
  cases known : wtx.vfSpent[i]? with
  | none => simp [known] at spent
  | some flag =>
    obtain rfl : flag = true := by simpa [known] using spent
    simp [merge, updateSpent, isSpent, known]

end WalletTx

/-! ## The ledger -/

namespace Ledger
variable {l : Ledger S} {isMine : S → IsMine}

/-- Changes transactions in place. -/
def mapTxs (l : Ledger S) (f : WalletTx S → WalletTx S) (same : ∀ wtx, (f wtx).toTx = wtx.toTx) : Ledger S where
  txs := l.txs.map f
  distinct := by
    have hashes : (l.txs.map f).map (·.hash) = l.txs.map (·.hash) := by
      rw [List.map_map]
      exact List.map_congr_left fun wtx _ => congrArg Tx.hash (same wtx)
    rw [hashes]
    exact l.distinct

/-- Changes the transaction with a hash. -/
def modify (l : Ledger S) (hash : Hash) (f : WalletTx S → WalletTx S)
    (same : ∀ wtx, (f wtx).toTx = wtx.toTx) : Ledger S :=
  l.mapTxs (fun wtx => if wtx.hash = hash then f wtx else wtx) fun wtx => by split <;> simp [same]

def insert (l : Ledger S) (wtx : WalletTx S) (fresh : l.find wtx.hash = none) : Ledger S where
  txs := l.txs ++ [wtx]
  distinct := by
    rw [List.map_append, List.nodup_append']
    refine ⟨l.distinct, by simp, fun h held again => ?_⟩
    obtain ⟨other, inside, rfl⟩ := List.mem_map.mp held
    have same : other.hash = wtx.hash := by simpa using again
    simpa [same] using List.find?_eq_none.mp fresh other inside

/-- The transaction with a hash. -/
def tx (l : Ledger S) (hash : Hash) : Option (Tx S) := (l.find hash).map WalletTx.toTx

/-- The spent flag of an output. -/
def flag (l : Ledger S) (hash : Hash) (i : Nat) : Bool := (l.find hash).any fun wtx => wtx.isSpent i

/-- The wallet has this output, and it is its own. -/
def Owns (isMine : S → IsMine) (l : Ledger S) (hash : Hash) (i : Nat) : Prop :=
  ∃ t out, l.tx hash = some t ∧ t.vout[i]? = some out ∧ isMine out.scriptPubKey ≠ .no

private theorem find_mapTxs (hash : Hash) : (l.mapTxs f same).find hash = (l.find hash).map f := by
  have hashes (wtx : WalletTx S) : (f wtx).hash = wtx.hash := congrArg Tx.hash (same wtx)
  simp only [find, mapTxs, List.find?_map, Function.comp_def, hashes]

@[simp] theorem tx_mapTxs (hash : Hash) : (l.mapTxs f same).tx hash = l.tx hash := by
  simp only [tx, find_mapTxs, Option.map_map, Function.comp_def, same]

@[simp] theorem tx_modify (h hash : Hash) : (l.modify h f same).tx hash = l.tx hash := tx_mapTxs hash

private theorem find_hash {hash : Hash} (found : l.find hash = some wtx) : wtx.hash = hash := by
  simpa using List.find?_some found

private theorem flag_modify (h hash : Hash) (i : Nat) : (l.modify h f same).flag hash i =
      (l.find hash).any fun wtx => if hash = h then (f wtx).isSpent i else wtx.isSpent i := by
  rw [flag, modify, find_mapTxs]
  cases found : l.find hash with
  | none => rfl
  | some wtx =>
    rw [Option.map_some, find_hash found]
    split <;> rfl

def mark (l : Ledger S) (hash : Hash) (n : Nat) (spent : Bool) : Ledger S :=
  l.modify hash (·.mark n spent) fun wtx => wtx.mark_toTx n spent

/-- A mark changes the flag of its output and no other. -/
theorem flag_mark {h hash : Hash} (owns : l.Owns isMine hash i) :
    (l.mark h n spent).flag hash i = if hash = h ∧ i = n then spent else l.flag hash i := by
  obtain ⟨t, out, known, found, -⟩ := owns
  obtain ⟨wtx, held, rfl⟩ := Option.map_eq_some_iff.mp known
  have inside := (List.getElem?_eq_some_iff.mp found).1
  rw [mark, flag_modify, flag, held, Option.any_some, WalletTx.isSpent_mark inside]
  by_cases same : hash = h <;> simp [same]

@[simp] theorem tx_mark (h hash : Hash) (n : Nat) (spent : Bool) : (l.mark h n spent).tx hash = l.tx hash :=
  tx_modify h hash

private theorem owns_congr {l' : Ledger S} (same : ∀ hash, l'.tx hash = l.tx hash) (hash : Hash) (i : Nat) :
    l'.Owns isMine hash i ↔ l.Owns isMine hash i := by
  simp only [Owns, same]

end Ledger

/-! ## The calls -/

section
variable (isMine : S → IsMine)

/-- One input of `WalletUpdateSpent`. -/
def spendInput (l : Ledger S) (o : OutPoint) : Ledger S :=
  match l.find o.txid with
  | none => l
  | some wtx =>
    match wtx.vout[o.n.toNat]? with
    | none => l
    | some out => if !wtx.isSpent o.n.toNat && isMine out.scriptPubKey ≠ .no then l.mark o.txid o.n.toNat true else l

/-- One output of `WalletUpdateSpent` for a transaction in a block. -/
def refundOutput (hash : Hash) (l : Ledger S) (out : TxOut S × Nat) : Ledger S :=
  if isMine out.1.scriptPubKey ≠ .no then l.mark hash out.2 false else l

/-- `WalletUpdateSpent`. -/
def walletUpdateSpent (l : Ledger S) (tx : Tx S) (fBlock : Bool) : Ledger S :=
  let l := tx.vin.foldl (spendInput isMine) l
  if fBlock then
    match l.find tx.hash with
    | none => l
    | some _ => tx.vout.zipIdx.foldl (refundOutput isMine tx.hash) l
  else l

/-- `AddToWallet`, with every write to disk succeeding. -/
def addToWallet (l : Ledger S) (wtxIn : WalletTx S) : Ledger S :=
  match absent : l.find wtxIn.hash with
  | none => walletUpdateSpent isMine (l.insert wtxIn absent) wtxIn.toTx wtxIn.hashBlock.isSome
  | some wtx => walletUpdateSpent isMine (l.modify wtxIn.hash (·.merge wtxIn) fun wtx =>
    wtx.merge_toTx wtxIn) wtx.toTx wtxIn.hashBlock.isSome

/-- `GetDebit` of an input. -/
def getDebit (l : Ledger S) (o : OutPoint) : Int :=
  match l.outputAt o with
  | some out => if isMine out.scriptPubKey ≠ .no then out.nValue else 0
  | none => 0

/-- `IsMine(tx) || IsFromMe(tx)`. -/
def involvesMe (nMinimumInputValue : Int) (l : Ledger S) (tx : Tx S) : Bool :=
  tx.vout.any (fun out => isMine out.scriptPubKey ≠ .no && decide (nMinimumInputValue ≤ out.nValue)) ||
    decide (0 < total (getDebit isMine l) tx.vin)

/-- `AddToWalletIfInvolvingMe`; `block` is the block the transaction is delivered with. -/
def addToWalletIfInvolvingMe (nMinimumInputValue : Int) (l : Ledger S) (tx : Tx S) (block : Option Hash)
    (fUpdate : Bool) : Ledger S :=
  if (l.find tx.hash).isSome && !fUpdate then l
  else if (l.find tx.hash).isSome || involvesMe isMine nMinimumInputValue l tx then
    addToWallet isMine l { tx with hashBlock := block, vfSpent := [] }
  else walletUpdateSpent isMine l tx false

/-- The repair of one output; `unspent` is what `V2OutpointUnspent` answers, none when it cannot. -/
def fixOutput (fCheckOnly : Bool) (unspent : OutPoint → Option Bool) (wtx : WalletTx S)
    (out : TxOut S × Nat) : WalletTx S :=
  if isMine out.1.scriptPubKey = .no then wtx
  else
    match unspent ⟨wtx.hash, UInt32.ofNat out.2⟩ with
    | none => wtx
    | some unspent =>
      if wtx.isSpent out.2 && unspent then if fCheckOnly then wtx else wtx.markUnspent out.2
      else if !wtx.isSpent out.2 && !unspent then if fCheckOnly then wtx else wtx.markSpent out.2
      else wtx

/-- `FixSpentCoins` on one transaction. -/
def fixTx (fCheckOnly : Bool) (unspent : OutPoint → Option Bool) (wtx : WalletTx S) : WalletTx S :=
  wtx.vout.zipIdx.foldl (fixOutput isMine fCheckOnly unspent) wtx

end

section
variable (isMine : S → IsMine) (fCheckOnly : Bool) (unspent : OutPoint → Option Bool) (wtx : WalletTx S)
include isMine fCheckOnly unspent wtx

private theorem fixOutput_toTx (out : TxOut S × Nat) :
    (fixOutput isMine fCheckOnly unspent wtx out).toTx = wtx.toTx := by
  unfold fixOutput
  split
  · rfl
  · split
    · rfl
    · split
      · split <;> rfl
      · split
        · split <;> rfl
        · rfl

private theorem fixTx_toTx :
    (fixTx isMine fCheckOnly unspent wtx).toTx = wtx.toTx :=
  foldl_zipIdx (fun _ now => now.toTx = wtx.toTx) rfl fun _ _ now _ same =>
    (fixOutput_toTx isMine fCheckOnly unspent now _).trans same

end

/-- `FixSpentCoins`. -/
def fixSpentCoins (isMine : S → IsMine) (l : Ledger S) (fCheckOnly : Bool)
    (unspent : OutPoint → Option Bool) : Ledger S :=
  l.mapTxs (fixTx isMine fCheckOnly unspent) (fixTx_toTx isMine fCheckOnly unspent)

/-! ## What the calls do to the flags -/

section
variable {l : Ledger S} {hash : Hash} {i : Nat}

@[simp] theorem tx_spendInput (isMine : S → IsMine) (l : Ledger S) (o : OutPoint) (h : Hash) :
    (spendInput isMine l o).tx h = l.tx h := by
  unfold spendInput
  split
  · rfl
  · split
    · rfl
    · split
      · exact Ledger.tx_mark _ _ _ _
      · rfl

/-- An input marks the own output it spends. -/
theorem flag_spendInput (o : OutPoint) (owns : l.Owns isMine hash i) :
    (spendInput isMine l o).flag hash i = (l.flag hash i || decide (o.txid = hash ∧ o.n.toNat = i)) := by
  by_cases here : o.txid = hash ∧ o.n.toNat = i
  · obtain ⟨rfl, rfl⟩ := here
    obtain ⟨t, out, known, found, mine⟩ := id owns
    obtain ⟨wtx, held, rfl⟩ := Option.map_eq_some_iff.mp known
    simp only [spendInput, held, found]
    split
    · simp [Ledger.flag_mark owns]
    case isFalse spent =>
      have flagged : wtx.isSpent o.n.toNat = true := by simpa [mine] using spent
      simp [Ledger.flag, held, flagged]
  · rw [decide_eq_false here, Bool.or_false]
    unfold spendInput
    split
    · rfl
    · split
      · rfl
      · split
        · rw [Ledger.flag_mark owns, if_neg fun same => here ⟨same.1.symm, same.2.symm⟩]
        · rfl

private theorem spendInputs_spec (isMine : S → IsMine) (l : Ledger S) (hash : Hash) (i : Nat) (vin : List OutPoint) :
    (∀ h, (vin.foldl (spendInput isMine) l).tx h = l.tx h) ∧
      (l.Owns isMine hash i → (vin.foldl (spendInput isMine) l).flag hash i =
        (l.flag hash i || vin.any fun o => decide (o.txid = hash ∧ o.n.toNat = i))) := by
  induction vin generalizing l with
  | nil => simp
  | cons o rest ih =>
    have later := ih (spendInput isMine l o)
    refine ⟨fun h => by rw [List.foldl_cons, later.1, tx_spendInput], fun owns => ?_⟩
    have owns' := (Ledger.owns_congr (tx_spendInput isMine l o) hash i).mpr owns
    rw [List.foldl_cons, later.2 owns', flag_spendInput o owns, List.any_cons, Bool.or_assoc]

/-- A position that is not the current one counts as passed or not as before. -/
theorem passed_next {p : Prop} (other : p ∨ i ≠ k) : p ∨ k ≤ i ↔ p ∨ k + 1 ≤ i := by
  rcases other with other | other
  · simp [other]
  · exact or_congr_right (by omega)

/-- A delivery with a block takes the flags of the transaction's own outputs back. -/
theorem refundOutputs_spec (isMine : S → IsMine) (hash : Hash) (i : Nat) {tx : Tx S} (known : l.tx tx.hash = some tx) :
    (∀ h, (tx.vout.zipIdx.foldl (refundOutput isMine tx.hash) l).tx h = l.tx h) ∧
      (l.Owns isMine hash i → (tx.vout.zipIdx.foldl (refundOutput isMine tx.hash) l).flag hash i =
        (l.flag hash i && decide (hash ≠ tx.hash))) := by
  let inv (k : Nat) (now : Ledger S) : Prop :=
    (∀ h, now.tx h = l.tx h) ∧
      (l.Owns isMine hash i → now.flag hash i = (l.flag hash i && decide (hash ≠ tx.hash ∨ k ≤ i)))
  have run : inv tx.vout.length (tx.vout.zipIdx.foldl (refundOutput isMine tx.hash) l) := by
    apply foldl_zipIdx inv
    · exact ⟨fun _ => rfl, fun _ => by simp⟩
    · rintro k out now found ⟨same, flags⟩
      by_cases mine : isMine out.scriptPubKey = .no
      · refine ⟨fun h => by simp [refundOutput, mine, same], fun owns => ?_⟩
        have other : hash ≠ tx.hash ∨ i ≠ k := by
          -- the output at this position is not the wallet's own
          by_contra both
          rw [not_or, not_not, not_not] at both
          obtain ⟨t, own, held, at_, isOwn⟩ := owns
          rw [both.1, known] at held
          obtain rfl := Option.some.inj held
          rw [both.2, found] at at_
          obtain rfl := Option.some.inj at_
          exact isOwn mine
        simp only [refundOutput, mine, ne_eq, not_true_eq_false, if_false, flags owns, passed_next other]
      · refine ⟨fun h => by simp [refundOutput, mine, same], fun owns => ?_⟩
        have owns' := (Ledger.owns_congr same hash i).mpr owns
        simp only [refundOutput, mine, ne_eq, not_false_eq_true, if_true, Ledger.flag_mark owns', flags owns]
        by_cases here : hash = tx.hash ∧ i = k
        · rw [here.1, here.2]
          simp
        · rw [if_neg here]
          simp only [passed_next (not_and_or.mp here)]
  refine ⟨run.1, fun owns => ?_⟩
  rw [run.2 owns]
  by_cases here : hash = tx.hash
  · obtain ⟨t, own, held, found, -⟩ := owns
    rw [here, known] at held
    obtain rfl := Option.some.inj held
    have inside := (List.getElem?_eq_some_iff.mp found).1
    simp [here, inside]
  · simp [here]

/-- `WalletUpdateSpent` of a transaction of the wallet: its inputs are marked, then a block takes the
flags of its own outputs back. -/
theorem walletUpdateSpent_spec (isMine : S → IsMine) (hash : Hash) (i : Nat) (tx : Tx S)
    (fBlock : Bool) (known : l.tx tx.hash = some tx) :
    (∀ h, (walletUpdateSpent isMine l tx fBlock).tx h = l.tx h) ∧
      (l.Owns isMine hash i → (walletUpdateSpent isMine l tx fBlock).flag hash i =
        ((l.flag hash i || tx.vin.any fun o => decide (o.txid = hash ∧ o.n.toNat = i)) &&
          !(fBlock && decide (hash = tx.hash)))) := by
  have spent := spendInputs_spec isMine l hash i tx.vin
  cases fBlock with
  | false => exact ⟨spent.1, fun owns => by simpa [walletUpdateSpent] using spent.2 owns⟩
  | true =>
    have still : (tx.vin.foldl (spendInput isMine) l).tx tx.hash = some tx := by rw [spent.1, known]
    have refund := refundOutputs_spec isMine hash i still
    obtain ⟨wtx, held, -⟩ := Option.map_eq_some_iff.mp still
    simp only [walletUpdateSpent, if_true, held]
    refine ⟨fun h => (refund.1 h).trans (spent.1 h), fun owns => ?_⟩
    rw [refund.2 ((Ledger.owns_congr spent.1 hash i).mpr owns), spent.2 owns]
    simp

/-- The transaction a call of `AddToWallet` is about: the one the wallet has, or the one it is given. -/
def Ledger.subject (l : Ledger S) (wtxIn : WalletTx S) : Tx S := (l.tx wtxIn.hash).getD wtxIn.toTx

/-- The flags the call starts from. -/
def Ledger.flagIn (l : Ledger S) (wtxIn : WalletTx S) (i : Nat) : Bool :=
  match l.find wtxIn.hash with
  | none => wtxIn.isSpent i
  | some wtx => (wtx.merge wtxIn).isSpent i

private theorem Ledger.tx_hash (known : l.tx hash = some t) : t.hash = hash := by
  obtain ⟨wtx, held, rfl⟩ := Option.map_eq_some_iff.mp known
  exact Ledger.find_hash held

private theorem Ledger.find_insert (fresh : l.find wtx.hash = none) (h : Hash) :
    (l.insert wtx fresh).find h = if h = wtx.hash then some wtx else l.find h := by
  simp only [find, insert, List.find?_append, List.find?_singleton] at fresh ⊢
  by_cases here : h = wtx.hash
  · rw [here, fresh]
    simp
  · simp [here, Ne.symm here]

/-- What `AddToWallet` does: the transaction is there, its inputs are marked, and a block takes the flags
of its own outputs back. -/
theorem addToWallet_spec (isMine : S → IsMine) (l : Ledger S) (wtxIn : WalletTx S) (hash : Hash) (i : Nat) :
    (∀ h, (addToWallet isMine l wtxIn).tx h = if h = wtxIn.hash then some (l.subject wtxIn) else l.tx h) ∧
      ((addToWallet isMine l wtxIn).Owns isMine hash i → (addToWallet isMine l wtxIn).flag hash i =
        (((if hash = wtxIn.hash then l.flagIn wtxIn i else l.flag hash i) ||
            (l.subject wtxIn).vin.any fun o => decide (o.txid = hash ∧ o.n.toNat = i)) &&
          !(wtxIn.hashBlock.isSome && decide (hash = wtxIn.hash)))) := by
  unfold addToWallet
  split
  case h_1 absent =>
    have given : l.subject wtxIn = wtxIn.toTx := by simp [Ledger.subject, Ledger.tx, absent]
    have txs (h : Hash) : (l.insert wtxIn absent).tx h = if h = wtxIn.hash then some wtxIn.toTx else l.tx h := by
      rw [Ledger.tx, Ledger.find_insert]
      split <;> rfl
    have spec := walletUpdateSpent_spec (l := l.insert wtxIn absent) isMine hash i wtxIn.toTx wtxIn.hashBlock.isSome
      (by rw [txs, if_pos rfl])
    refine ⟨fun h => by rw [spec.1, txs, given], fun owns => ?_⟩
    rw [spec.2 ((Ledger.owns_congr spec.1 hash i).mp owns), given]
    rw [Ledger.flag, Ledger.find_insert]
    split
    · simp [Ledger.flagIn, absent]
    · rfl
  case h_2 wtx held =>
    have given : l.subject wtxIn = wtx.toTx := by simp [Ledger.subject, Ledger.tx, held]
    have named := Ledger.find_hash held
    have txs (h : Hash) : (l.modify wtxIn.hash (·.merge wtxIn) fun wtx => wtx.merge_toTx wtxIn).tx h = l.tx h :=
      Ledger.tx_modify wtxIn.hash h
    have known : l.tx wtxIn.hash = some wtx.toTx := by simp [Ledger.tx, held]
    have spec := walletUpdateSpent_spec (l := l.modify wtxIn.hash (·.merge wtxIn) fun wtx => wtx.merge_toTx wtxIn)
      isMine hash i wtx.toTx wtxIn.hashBlock.isSome (by rw [txs, named, known])
    refine ⟨fun h => ?_, fun owns => ?_⟩
    · rw [spec.1, txs, given]
      split
      case isTrue same => rw [same, known]
      case isFalse => rfl
    · rw [spec.2 ((Ledger.owns_congr spec.1 hash i).mp owns), given, named]
      rw [Ledger.flag_modify]
      split
      case isTrue same => simp [same, held, Ledger.flagIn]
      case isFalse other => rfl

/-! ## The repair -/

/-- The repair of a transaction makes the flag of an own output what the coin view says about it. -/
theorem isSpent_fixTx {wtx : WalletTx S} (unspent : OutPoint → Option Bool) (found : wtx.vout[i]? = some out)
    (mine : isMine out.scriptPubKey ≠ .no) : (fixTx isMine false unspent wtx).isSpent i =
      match unspent ⟨wtx.hash, UInt32.ofNat i⟩ with
      | some u => !u
      | none => wtx.isSpent i := by
  have inside := (List.getElem?_eq_some_iff.mp found).1
  let inv (k : Nat) (now : WalletTx S) : Prop :=
    now.toTx = wtx.toTx ∧
      now.isSpent i =
        if i < k then
          match unspent ⟨wtx.hash, UInt32.ofNat i⟩ with
          | some u => !u
          | none => wtx.isSpent i
        else wtx.isSpent i
  have run : inv wtx.vout.length (fixTx isMine false unspent wtx) := by
    apply foldl_zipIdx inv
    · exact ⟨rfl, by simp⟩
    · rintro k o now at_ ⟨same, flag⟩
      refine ⟨(fixOutput_toTx isMine false unspent now (o, k)).trans same, ?_⟩
      have outs : now.vout = wtx.vout := congrArg Tx.vout same
      have named : now.hash = wtx.hash := congrArg Tx.hash same
      by_cases here : i = k
      · subst here
        obtain rfl : out = o := Option.mem_unique found at_
        rw [if_neg (lt_irrefl i)] at flag
        rw [if_pos (Nat.lt_succ_self i)]
        simp only [fixOutput, if_neg mine, named, flag]
        cases unspent ⟨wtx.hash, UInt32.ofNat i⟩ with
        | none => exact flag
        | some u =>
          cases spent : wtx.isSpent i <;> cases u <;>
            simp [WalletTx.markSpent, WalletTx.markUnspent, WalletTx.isSpent_mark (outs ▸ inside), flag, spent]
      · have untouched : (fixOutput isMine false unspent now (o, k)).isSpent i = now.isSpent i := by
          unfold fixOutput
          split
          · rfl
          · split
            · rfl
            · split
              · simp [WalletTx.markUnspent, WalletTx.isSpent_mark (outs ▸ inside), here]
              · split
                · simp [WalletTx.markSpent, WalletTx.isSpent_mark (outs ▸ inside), here]
                · rfl
        rw [untouched, flag]
        have next : i < k + 1 ↔ i < k := by omega
        simp only [next]
  rw [run.2, if_pos inside]

private theorem fixTx_checkOnly (unspent : OutPoint → Option Bool) (wtx : WalletTx S) :
    fixTx isMine true unspent wtx = wtx := by
  have still (now : WalletTx S) (out : TxOut S × Nat) : fixOutput isMine true unspent now out = now := by
    unfold fixOutput
    split
    · rfl
    · split
      · rfl
      · simp
  exact foldl_zipIdx (fun _ now => now = wtx) rfl fun _ _ now _ same => (still now _).trans same

private theorem flag_fixSpentCoins (owns : l.Owns isMine hash i) : (fixSpentCoins isMine l false unspent).flag hash i =
      match unspent ⟨hash, UInt32.ofNat i⟩ with
      | some u => !u
      | none => l.flag hash i := by
  obtain ⟨t, out, known, found, mine⟩ := owns
  obtain ⟨wtx, held, rfl⟩ := Option.map_eq_some_iff.mp known
  have named := Ledger.find_hash held
  rw [fixSpentCoins, Ledger.flag, Ledger.find_mapTxs, held, Option.map_some, Option.any_some,
    isSpent_fixTx unspent found mine, named]
  cases unspent ⟨hash, UInt32.ofNat i⟩ with
  | none => simp [Ledger.flag, held]
  | some u => rfl

/-! ## The books over a run -/

end

/-- The wallet together with the transactions that are live. -/
structure Books (S : Type) where
  ledger : Ledger S
  live : Finset Hash

/-- What can happen to the books. -/
inductive Event (S : Type) where
  /-- `AddToWallet`. -/
  | add (wtxIn : WalletTx S)
  /-- `AddToWalletIfInvolvingMe`, for a pool acceptance, a block or a rescan. -/
  | deliver (tx : Tx S) (block : Option Hash) (fUpdate : Bool)
  /-- `FixSpentCoins`. -/
  | fix (fCheckOnly : Bool) (unspent : OutPoint → Option Bool)
  /-- Transactions leave the active chain and the pool. -/
  | drop (gone : Finset Hash)

section
variable (isMine : S → IsMine) (nMinimumInputValue : Int)

def Books.step (b : Books S) : Event S → Books S
  | .add wtxIn => ⟨addToWallet isMine b.ledger wtxIn, insert wtxIn.hash b.live⟩
  | .deliver tx block fUpdate =>
    ⟨addToWalletIfInvolvingMe isMine nMinimumInputValue b.ledger tx block fUpdate,
      if (b.ledger.find tx.hash).isSome && !fUpdate then b.live else insert tx.hash b.live⟩
  | .fix fCheckOnly unspent => ⟨fixSpentCoins isMine b.ledger fCheckOnly unspent, b.live⟩
  | .drop gone => ⟨b.ledger, b.live \ gone⟩

/-- A live wallet transaction spends this output. -/
def Books.Spends (b : Books S) (hash : Hash) (i : Nat) : Prop :=
  ∃ h child, b.ledger.tx h = some child ∧ h ∈ b.live ∧ ∃ o ∈ child.vin, o.txid = hash ∧ o.n.toNat = i

private theorem Books.spends_iff {b : Books S} {hash : Hash} :
    b.Spends hash i ↔ ∃ wtx ∈ b.ledger.txs, wtx.hash ∈ b.live ∧ ∃ o ∈ wtx.vin, o.txid = hash ∧ o.n.toNat = i := by
  constructor
  · rintro ⟨h, child, known, live, spent⟩
    obtain ⟨wtx, held, rfl⟩ := Option.map_eq_some_iff.mp known
    exact ⟨wtx, List.mem_of_find?_eq_some held, (Ledger.find_hash held).symm ▸ live, spent⟩
  · rintro ⟨wtx, held, live, spent⟩
    exact ⟨wtx.hash, wtx.toTx, by simp [Ledger.tx, Ledger.find_mem held], live, spent⟩

instance (b : Books S) (hash : Hash) (i : Nat) : Decidable (b.Spends hash i) := decidable_of_iff _ Books.spends_iff.symm

/-- `AvailableCoins` lists no output that a live wallet transaction spends, whatever the chain says about
the transactions and whichever coins are locked. -/
def Books.Safe (b : Books S) : Prop :=
  ∀ (offer : Offer S) (setLockedCoins : Finset OutPoint), offer.isMine = isMine →
    ∀ coin ∈ availableCoins offer setLockedCoins b.ledger, ¬ b.Spends coin.outpoint.txid coin.outpoint.n.toNat

/-- Every own output that a live wallet transaction spends has its flag. -/
def Books.Flagged (b : Books S) : Prop :=
  ∀ hash i, b.ledger.Owns isMine hash i → b.Spends hash i → b.ledger.flag hash i = true

/-- `AddToWallet` is clear of live spenders: if one spends an own output of the transaction, it comes
without a block, and it is in the wallet already or brings the flag along. -/
def Books.AddClear (b : Books S) (wtxIn : WalletTx S) : Prop :=
  ∀ i out, (b.ledger.subject wtxIn).vout[i]? = some out → isMine out.scriptPubKey ≠ .no → b.Spends wtxIn.hash i →
    wtxIn.hashBlock = none ∧ (b.ledger.find wtxIn.hash ≠ none ∨ wtxIn.isSpent i = true)

/-- The condition on an event, in the state it meets. -/
def Event.Clear (b : Books S) : Event S → Prop
  | .add wtxIn => b.AddClear isMine wtxIn
  | .deliver tx block fUpdate =>
    ((b.ledger.find tx.hash).isSome = true → fUpdate = true) →
      ((b.ledger.find tx.hash).isSome || involvesMe isMine nMinimumInputValue b.ledger tx) = true →
        b.AddClear isMine { tx with hashBlock := block, vfSpent := [] }
  | .fix fCheckOnly unspent =>
    fCheckOnly = false → ∀ hash i, b.ledger.Owns isMine hash i → b.Spends hash i →
      unspent ⟨hash, UInt32.ofNat i⟩ ≠ some true
  | .drop _ => True

end

section
variable {b : Books S} {hash : Hash}

/-- The flags decide what is offered. -/
theorem safe_iff_flagged : b.Safe isMine ↔ b.Flagged isMine := by
  constructor
  · intro safe hash i owns spends
    by_contra unflagged
    obtain ⟨t, out, known, found, mine⟩ := owns
    obtain ⟨wtx, held, rfl⟩ := Option.map_eq_some_iff.mp known
    have named := Ledger.find_hash held
    have spent : wtx.isSpent i = false := by simpa [Ledger.flag, held] using unflagged
    -- with every other check passed the flag alone decides
    let offer : Offer S := ⟨isMine, fun _ => ⟨true, true, 0, 0, true⟩, out.nValue, false, none⟩
    have taken : offer.takes ∅ wtx i out = true := by simp [offer, Offer.takes, Offer.selectable, spent, mine]
    obtain ⟨coin, inside, same⟩ :=
      available_of (List.mem_of_find?_eq_some held) (by simp [offer, Offer.passes]) found taken
    refine safe offer ∅ rfl coin inside ?_
    rw [same, named, WalletTx.position found]
    exact spends
  · rintro flagged offer setLockedCoins rfl coin inside spends
    obtain ⟨wtx, held, i, out, found, offers⟩ := mem_availableCoins inside
    have taken := offers.taken
    simp only [Offer.takes, Bool.and_eq_true, Bool.not_eq_true', decide_eq_true_eq] at taken
    rw [offers.outpoint, WalletTx.position found] at spends
    have known := Ledger.find_mem held
    have owns : b.ledger.Owns offer.isMine wtx.hash i :=
      ⟨wtx.toTx, out, by simp [Ledger.tx, known], found, taken.1.1.1.2⟩
    have flag := flagged wtx.hash i owns spends
    simp [Ledger.flag, known, taken.1.1.1.1] at flag

private theorem subject_hash (l : Ledger S) (wtxIn : WalletTx S) : (l.subject wtxIn).hash = wtxIn.hash := by
  cases known : l.tx wtxIn.hash with
  | none => simp [Ledger.subject, known]
  | some t => simpa [Ledger.subject, known] using Ledger.tx_hash known

/-- A transaction does not spend its own outputs. -/
theorem subject_acyclic (l : Ledger S) (wtxIn : WalletTx S) (i : Nat) :
    (l.subject wtxIn).vin.any (fun o => decide (o.txid = wtxIn.hash ∧ o.n.toNat = i)) = false := by
  rw [List.any_eq_false]
  intro o held
  have other := (l.subject wtxIn).acyclic o held
  rw [subject_hash] at other
  simp [other]

/-- After the call the spenders are those from before and the transaction itself. -/
theorem spends_add : (b.step isMine nMinimumInputValue (.add wtxIn)).Spends hash i ↔
      (b.ledger.subject wtxIn).vin.any (fun o => decide (o.txid = hash ∧ o.n.toNat = i)) = true ∨ b.Spends hash i := by
  have txs := (addToWallet_spec isMine b.ledger wtxIn hash i).1
  simp only [Books.Spends, Books.step, txs, List.any_eq_true, decide_eq_true_eq]
  constructor
  · rintro ⟨h, child, known, live, spent⟩
    by_cases here : h = wtxIn.hash
    · rw [if_pos here] at known
      exact Or.inl (Option.some.inj known ▸ spent)
    · rw [if_neg here] at known
      exact Or.inr ⟨h, child, known, Finset.mem_of_mem_insert_of_ne live here, spent⟩
  · rintro (spent | ⟨h, child, known, live, spent⟩)
    · exact ⟨wtxIn.hash, _, if_pos rfl, Finset.mem_insert_self _ _, spent⟩
    · refine ⟨h, child, ?_, Finset.mem_insert_of_mem live, spent⟩
      split
      case isTrue here =>
        rw [← known, here, Ledger.subject]
        rw [here] at known
        simp [known]
      case isFalse => exact known

private theorem owns_add : (addToWallet isMine b.ledger wtxIn).Owns isMine hash i ↔
      if hash = wtxIn.hash then ∃ out, (b.ledger.subject wtxIn).vout[i]? = some out ∧ isMine out.scriptPubKey ≠ .no
      else b.ledger.Owns isMine hash i := by
  rw [Ledger.Owns, (addToWallet_spec isMine b.ledger wtxIn hash i).1]
  split
  · constructor
    · rintro ⟨t, out, known, found, mine⟩
      exact ⟨out, Option.some.inj known ▸ found, mine⟩
    · rintro ⟨out, found, mine⟩
      exact ⟨_, out, rfl, found, mine⟩
  · rfl

private theorem add_flagged_iff (nMinimumInputValue : Int) (wtxIn : WalletTx S) (flagged : b.Flagged isMine) :
    (b.step isMine nMinimumInputValue (.add wtxIn)).Flagged isMine ↔ b.AddClear isMine wtxIn := by
  constructor
  · intro after i out found mine spends
    have owns : (addToWallet isMine b.ledger wtxIn).Owns isMine wtxIn.hash i :=
      owns_add.mpr (by rw [if_pos rfl]; exact ⟨out, found, mine⟩)
    have flag := after wtxIn.hash i owns (spends_add.mpr (Or.inr spends))
    simp only [Books.step] at flag
    rw [(addToWallet_spec isMine b.ledger wtxIn wtxIn.hash i).2 owns, subject_acyclic] at flag
    simp only [if_true, Bool.or_false, decide_true, Bool.and_true, Bool.and_eq_true, Bool.not_eq_true',
      Option.isSome_eq_false_iff, Option.isNone_iff_eq_none] at flag
    refine ⟨flag.2, ?_⟩
    cases absent : b.ledger.find wtxIn.hash with
    | none => exact Or.inr (by simpa [Ledger.flagIn, absent] using flag.1)
    | some wtx => exact Or.inl (by simp)
  · intro clear hash i owns spends
    simp only [Books.step] at owns ⊢
    rw [(addToWallet_spec isMine b.ledger wtxIn hash i).2 owns]
    rw [spends_add] at spends
    rw [owns_add] at owns
    by_cases here : hash = wtxIn.hash
    · subst here
      rw [if_pos rfl] at owns ⊢
      obtain ⟨out, found, mine⟩ := owns
      rw [subject_acyclic] at spends ⊢
      have spends : b.Spends wtxIn.hash i := by simpa using spends
      obtain ⟨unblocked, kept⟩ := clear i out found mine spends
      have start : b.ledger.flagIn wtxIn i = true := by
        cases absent : b.ledger.find wtxIn.hash with
        | none => simpa [Ledger.flagIn, absent] using kept
        | some wtx =>
          have known : b.ledger.tx wtxIn.hash = some wtx.toTx := by simp [Ledger.tx, absent]
          rw [Ledger.subject, known] at found
          have flag := flagged wtxIn.hash i ⟨wtx.toTx, out, known, found, mine⟩ spends
          have spent : wtx.isSpent i = true := by simpa [Ledger.flag, absent] using flag
          simpa [Ledger.flagIn, absent] using wtx.isSpent_merge wtxIn i spent
      simp [start, unblocked]
    · rw [if_neg here] at owns ⊢
      rcases spends with spent | spends
      · rw [spent]
        simp [here]
      · simp [flagged hash i owns spends, here]

/-- A transaction that is not the wallet's only marks what it spends. -/
theorem stranger_flagged {tx : Tx S} (flagged : b.Flagged isMine) (absent : b.ledger.find tx.hash = none) :
    Books.Flagged isMine ⟨walletUpdateSpent isMine b.ledger tx false, insert tx.hash b.live⟩ := by
  intro hash i owns spends
  have marked := spendInputs_spec isMine b.ledger hash i tx.vin
  have same : walletUpdateSpent isMine b.ledger tx false = tx.vin.foldl (spendInput isMine) b.ledger := rfl
  simp only [same] at owns spends ⊢
  rw [Ledger.owns_congr marked.1] at owns
  rw [marked.2 owns]
  obtain ⟨h, child, known, live, spent⟩ := spends
  rw [marked.1] at known
  have other : h ≠ tx.hash := by
    rintro rfl
    simp [Ledger.tx, absent] at known
  rw [flagged hash i owns ⟨h, child, known, Finset.mem_of_mem_insert_of_ne live other, spent⟩, Bool.true_or]

private theorem deliver_flagged_iff (flagged : b.Flagged isMine) :
    (b.step isMine nMinimumInputValue (.deliver tx block fUpdate)).Flagged isMine ↔
      (Event.deliver tx block fUpdate).Clear isMine nMinimumInputValue b := by
  simp only [Books.step, Event.Clear, addToWalletIfInvolvingMe]
  by_cases early : ((b.ledger.find tx.hash).isSome && !fUpdate) = true
  · have refused : ¬ ((b.ledger.find tx.hash).isSome = true → fUpdate = true) := by simp_all
    rw [if_pos early, if_pos early]
    exact iff_of_true flagged fun update => absurd update refused
  · have update : (b.ledger.find tx.hash).isSome = true → fUpdate = true := by simp_all
    rw [if_neg early, if_neg early]
    by_cases taken : ((b.ledger.find tx.hash).isSome || involvesMe isMine nMinimumInputValue b.ledger tx) = true
    · rw [if_pos taken]
      have added := add_flagged_iff nMinimumInputValue { tx with hashBlock := block, vfSpent := [] } flagged
      exact ⟨fun after _ _ => added.mp after, fun clear => added.mpr (clear update taken)⟩
    · rw [if_neg taken]
      have absent : b.ledger.find tx.hash = none := by simp_all
      exact iff_of_true (stranger_flagged flagged absent) fun _ now => absurd now taken

private theorem fix_flagged_iff (flagged : b.Flagged isMine) :
    (b.step isMine nMinimumInputValue (.fix fCheckOnly unspent)).Flagged isMine ↔
      (Event.fix fCheckOnly unspent).Clear isMine nMinimumInputValue b := by
  have txs (h : Hash) : (fixSpentCoins isMine b.ledger fCheckOnly unspent).tx h = b.ledger.tx h := Ledger.tx_mapTxs h
  simp only [Books.step, Event.Clear, Books.Flagged, Books.Spends, Ledger.owns_congr txs, txs]
  cases fCheckOnly with
  | true =>
    have still (hash : Hash) (i : Nat) : (fixSpentCoins isMine b.ledger true unspent).flag hash i =
      b.ledger.flag hash i := by
      rw [fixSpentCoins, Ledger.flag, Ledger.find_mapTxs, Ledger.flag, Option.any_map]
      simp [fixTx_checkOnly]
    simp only [still]
    exact iff_of_true flagged (by simp)
  | false =>
    constructor
    · intro after _ hash i owns spends reported
      have flag := after hash i owns spends
      rw [flag_fixSpentCoins owns, reported] at flag
      cases flag
    · intro clear hash i owns spends
      rw [flag_fixSpentCoins owns]
      have honest := clear rfl hash i owns spends
      split
      case h_1 u reported =>
        cases u with
        | false => rfl
        | true => exact absurd reported honest
      case h_2 => exact flagged hash i owns spends

/-- From flagged books an event leads to flagged books exactly when it meets its condition. -/
theorem step_flagged_iff (flagged : b.Flagged isMine) (e : Event S) :
    (b.step isMine nMinimumInputValue e).Flagged isMine ↔ e.Clear isMine nMinimumInputValue b := by
  cases e with
  | add wtxIn => exact add_flagged_iff nMinimumInputValue wtxIn flagged
  | deliver tx block fUpdate => exact deliver_flagged_iff flagged
  | fix fCheckOnly unspent => exact fix_flagged_iff flagged
  | drop gone =>
    refine iff_of_true (fun hash i owns spends => ?_) trivial
    obtain ⟨h, child, known, live, spent⟩ := spends
    exact flagged hash i owns ⟨h, child, known, (Finset.mem_sdiff.mp live).1, spent⟩

end

def Books.start : Books S := ⟨⟨[], List.nodup_nil⟩, ∅⟩

/-- The books that runs of clear events lead to, from an empty wallet on. -/
inductive Books.Run (isMine : S → IsMine) (nMinimumInputValue : Int) : Books S → Prop where
  | start : Run isMine nMinimumInputValue Books.start
  | step {b : Books S} (run : Run isMine nMinimumInputValue b) (e : Event S)
    (clear : e.Clear isMine nMinimumInputValue b) :
      Run isMine nMinimumInputValue (b.step isMine nMinimumInputValue e)

private theorem run_flagged {b : Books S} (run : b.Run isMine nMinimumInputValue) : b.Flagged isMine := by
  induction run with
  | start =>
    rintro hash i ⟨t, out, known, -⟩
    cases known
  | step run e clear flagged => exact (step_flagged_iff flagged e).mpr clear

/-- Along a run of clear events no output that a live wallet transaction spends is offered, and the
condition is exact: the next event keeps this so if and only if it is clear. -/
theorem spent_never_offered_iff (isMine : S → IsMine) (nMinimumInputValue : Int) (b : Books S)
    (run : b.Run isMine nMinimumInputValue) :
    b.Safe isMine ∧ ∀ e : Event S, (b.step isMine nMinimumInputValue e).Safe isMine ↔
      e.Clear isMine nMinimumInputValue b := by
  have flagged := run_flagged run
  exact ⟨safe_iff_flagged.mpr flagged, fun e => safe_iff_flagged.trans (step_flagged_iff flagged e)⟩

namespace Reconfirmed

def name (k : UInt8) : Hash := ByteArr.filled 32 k

def isMine (script : Nat) : IsMine := if script = 7 then .spendable else .no

/-- A payment to the wallet. -/
def parent : Tx Nat where
  hash := name 1
  nTime := 5
  vin := [⟨name 9, 0⟩]
  vout := [⟨4 * CENT, 7⟩]
  isCoinBase := false
  isCoinStake := false
  inRange := by decide
  fits := by decide
  acyclic := by decide

/-- The wallet's spending of it. -/
def child : Tx Nat where
  hash := name 2
  nTime := 6
  vin := [⟨name 1, 0⟩]
  vout := [⟨3 * CENT, 8⟩]
  isCoinBase := false
  isCoinStake := false
  inRange := by decide
  fits := by decide
  acyclic := by decide

/-- Both transactions come into the pool. -/
def pooled : Books Nat :=
  (Books.start.step isMine 0 (.deliver parent none true)).step isMine 0 (.deliver child none true)

/-- The first one is confirmed. -/
def confirmed : Books Nat := pooled.step isMine 0 (.deliver parent (some (name 3)) true)

def offer : Offer Nat := ⟨isMine, fun _ => ⟨true, true, 0, 1, true⟩, 0, true, none⟩

end Reconfirmed

/-- The confirmation of a payment offers its output again, which a transaction in the pool spends. -/
theorem spent_output_offered_again :
    (availableCoins Reconfirmed.offer ∅ Reconfirmed.pooled.ledger).map Output.outpoint = [] ∧
    (availableCoins Reconfirmed.offer ∅ Reconfirmed.confirmed.ledger).map Output.outpoint = [⟨Reconfirmed.name 1, 0⟩] ∧
    Reconfirmed.confirmed.Spends (Reconfirmed.name 1) 0 := by
  refine ⟨?_, ?_, ?_⟩ <;> decide +kernel

namespace Reconfirmed

private theorem run : pooled.Run isMine 0 := by
  refine .step (.step .start (.deliver parent none true) fun _ _ => ?_) (.deliver child none true) fun _ _ => ?_
  · rintro i out - - ⟨h, child, known, -⟩
    cases known
  · intro i out _ _ spends
    obtain ⟨wtx, held, -, o, spent, named, -⟩ := Books.spends_iff.mp spends
    -- the only transaction there is the payment, which spends an output of another one
    have only : ∀ wtx ∈ (Books.start.step isMine 0 (.deliver parent none true)).ledger.txs,
      ∀ o ∈ wtx.vin, o.txid ≠ name 2 := by
      decide +kernel
    exact absurd named (only wtx held o spent)

end Reconfirmed

/-- Up to the confirmation nothing that is spent is offered, and the confirmation ends that. -/
theorem spent_never_offered_pooled :
    Reconfirmed.pooled.Safe Reconfirmed.isMine ∧ ¬ Reconfirmed.confirmed.Safe Reconfirmed.isMine := by
  obtain ⟨safe, precise⟩ := spent_never_offered_iff Reconfirmed.isMine 0 Reconfirmed.pooled Reconfirmed.run
  refine ⟨safe, fun after => ?_⟩
  have clear := (precise (.deliver Reconfirmed.parent (some (Reconfirmed.name 3)) true)).mp after
  have added := clear (fun _ => rfl) (by decide +kernel) 0 ⟨4 * CENT, 7⟩ (by decide +kernel)
    (by decide) (by decide +kernel)
  cases added.1

end Innova.Wallet
