import Innova.Mempool.Coins

/-! Admission to the pool (`CTxMemPool::accept`, `s16_V2MempoolAccept`) and what the extension path
(`SetBestChainInner`) and `Reorganize` do to it, over the coin store and the location index TX-LOC. -/
namespace Innova.Mempool
open Lib Chainstate

/-- The answers of the rules that are not about presence, at one moment. -/
structure Rules (t : Txs) where
  /-- Room in the pool, and the rest of `CheckTransaction`. -/
  admits : Hash → Bool
  /-- `IsStandardTx`. -/
  standard : Hash → Bool
  /-- `AreInputsStandard`, the fees, the rate limiter and `ConnectInputs`. -/
  relay : Hash → Bool

structure Node where
  pool : Pool
  /-- The active chain, from its tip. -/
  chain : List Block
  /-- The txids that TX-LOC holds. -/
  located : Finset Hash

/-- What `s16_V2MempoolCheckInputs` makes of an input. -/
inductive InputClass
  | overlay | coin | spent | missing
deriving DecidableEq

inductive Verdict
  | refused | known | conflict | malformed | spent | missing | accepted
deriving DecidableEq

section
variable (t : Txs) (rules : Rules t)

def classify (n : Node) (o : OutPoint) : InputClass :=
  if o.txid ∈ n.pool.mapTx then .overlay
  else if o ∈ coinsOf t n.chain then .coin
  else if o.txid ∈ n.located then .spent
  else .missing

/-- The second loop of `s16_V2MempoolCheckInputs`; `none` when all inputs are there. -/
def checkInputs (n : Node) : List OutPoint → Option Verdict
  | [] => none
  | o :: rest =>
    match classify t n o with
    | .overlay | .coin => checkInputs n rest
    | .spent => some .spent
    | .missing => some .missing

/-- `CTxMemPool::accept`. -/
def accept (n : Node) (h : Hash) : Verdict :=
  if ¬ t.Checked h ∨ rules.admits h = false then .refused
  else if t.isCoinBase h = true ∨ t.isCoinStake h = true then .refused
  else if rules.standard h = false then .refused
  else if h ∈ n.pool.mapTx then .known
  else if h ∈ n.located then .known
  else if existsUnspentTxid (coinsOf t n.chain) h = true then .known
  else if ∃ o ∈ t.vin h, n.pool.mapNextTx o ≠ none then .conflict
  else if ∃ o ∈ t.vin h, o.txid ∈ n.pool.mapTx ∧ t.nOut o.txid ≤ o.n.toNat then .malformed
  else
    match checkInputs t n (t.vin h) with
    | some verdict => verdict
    | none => if rules.relay h = true then .accepted else .refused

def offer (n : Node) (h : Hash) : Node :=
  if accept t rules n h = .accepted then { n with pool := n.pool.addUnchecked t h } else n

/-- The transactions `Reorganize` queues from the blocks it disconnects, oldest first. -/
def resurrect (estimate : Nat) : Nat → List Block → List Hash
  | 0, _ => []
  | _, [] => []
  | k + 1, block :: rest =>
    resurrect estimate k rest ++
      block.filter fun h => !(t.isCoinBase h || t.isCoinStake h) && decide (estimate < rest.length)

/-- One round of the last loop of `Reorganize`. -/
def sweep (p : Pool) (h : Hash) : Pool := (p.remove t h false).removeConflicts t h

/-- What `Reorganize` leaves: `k` blocks disconnected, then the others connected, oldest first. -/
def reorganize (estimate : Nat) (n : Node) (k : Nat) (connected : List Block) : Node :=
  let moved : Node :=
    { n with chain := connected.reverse ++ n.chain.drop k, located := n.located ∪ confirmed connected }
  let back := (resurrect t estimate k n.chain).foldl (offer t rules) moved
  { back with pool := connected.flatten.foldl (sweep t) back.pool }

/-- What `SetBestChainInner` leaves. -/
def extend (n : Node) (block : Block) : Node where
  pool := block.foldl (fun p h => p.remove t h false) n.pool
  chain := block :: n.chain
  located := n.located ∪ block.toFinset

end

inductive Event (t : Txs)
  | offer (rules : Rules t) (h : Hash)
  /-- `mempool.remove`, as `deletetransaction` calls it. -/
  | remove (h : Hash) (fRecursive : Bool)
  | extend (block : Block)
  | reorganize (k : Nat) (connected : List Block) (rules : Rules t)

def Node.step {t : Txs} (estimate : Nat) (n : Node) : Event t → Node
  | .offer rules h => Mempool.offer t rules n h
  | .remove h fRecursive => { n with pool := n.pool.remove t h fRecursive }
  | .extend block => Mempool.extend t n block
  | .reorganize k connected rules => Mempool.reorganize t rules estimate n k connected

/-- The blocks of the step connect. A reorganisation that fails leaves the coin store off the block index,
and nothing connects to it any more. -/
def Event.Succeeds {t : Txs} (n : Node) : Event t → Prop
  | .offer .. | .remove .. => True
  | .extend block => Valid t (block :: n.chain)
  | .reorganize k connected _ => Valid t (connected.reverse ++ n.chain.drop k)

/-! ## What every step keeps -/

/-- What a pool transaction has passed. -/
structure Loose (t : Txs) (h : Hash) : Prop where
  loose : t.isCoinBase h = false
  nonnull : nullOutPoint ∉ t.vin h

structure Node.Sound (t : Txs) (n : Node) : Prop where
  valid : Valid t n.chain
  indexed : n.pool.Indexed t
  located : confirmed n.chain ⊆ n.located
  apart : ∀ h ∈ n.pool.mapTx, h ∉ n.located
  loose : ∀ h ∈ n.pool.mapTx, Loose t h

section
variable {t : Txs} {n : Node} {h : Hash} {o : OutPoint} {p p' : Pool}
open Pool

/-- What an accepted transaction has passed. -/
structure Accepted (t : Txs) (n : Node) (h : Hash) : Prop extends Loose t h where
  distinct : (t.vin h).Nodup
  unlocated : h ∉ n.located
  free : ∀ o ∈ t.vin h, n.pool.mapNextTx o = none
  inputs : ∀ o ∈ t.vin h, o ∈ coinsOf t n.chain ∨ (o.txid ∈ n.pool.mapTx ∧ o ∈ t.outs o.txid)

private theorem classify_present (present : classify t n o = .overlay ∨ classify t n o = .coin) :
    o ∈ coinsOf t n.chain ∨ o.txid ∈ n.pool.mapTx := by
  unfold classify at present
  split_ifs at present with overlay coin located
  · exact .inr overlay
  · exact .inl coin
  · simp at present
  · simp at present

private theorem checkInputs_none (fine : checkInputs t n vin = none) :
    ∀ o ∈ vin, o ∈ coinsOf t n.chain ∨ o.txid ∈ n.pool.mapTx := by
  induction vin with
  | nil => simp
  | cons o rest ih =>
    have here : checkInputs t n rest = none ∧ (classify t n o = .overlay ∨ classify t n o = .coin) := by
      cases class_ : classify t n o <;> simp_all [checkInputs]
    intro x member
    rcases List.mem_cons.mp member with rfl | later
    · exact classify_present here.2
    · exact ih here.1 x later

private theorem checkInputs_verdict (found : checkInputs t n vin = some verdict) :
    ∃ o ∈ vin, verdict = .spent ∧ classify t n o = .spent ∨ verdict = .missing ∧ classify t n o = .missing := by
  induction vin with
  | nil => cases found
  | cons o rest ih =>
    have later (found : checkInputs t n rest = some verdict) :
        ∃ x ∈ o :: rest, verdict = .spent ∧ classify t n x = .spent ∨ verdict = .missing ∧
          classify t n x = .missing := by
      obtain ⟨x, member, verdict⟩ := ih found
      exact ⟨x, by simp [member], verdict⟩
    cases class_ : classify t n o with
    | overlay => exact later (by simpa [checkInputs, class_] using found)
    | coin => exact later (by simpa [checkInputs, class_] using found)
    | spent =>
      have verdict : verdict = .spent := by simpa [checkInputs, class_, eq_comm] using found
      exact ⟨o, by simp [verdict, class_]⟩
    | missing =>
      have verdict : verdict = .missing := by simpa [checkInputs, class_, eq_comm] using found
      exact ⟨o, by simp [verdict, class_]⟩

/-- The outcomes of `accept` that name a reason of presence, and the one that admits. -/
inductive Verdict.Meets (t : Txs) (n : Node) (h : Hash) : Verdict → Prop
  | known (present : h ∈ n.pool.mapTx ∨ h ∈ n.located ∨ existsUnspentTxid (coinsOf t n.chain) h =
    true) : Meets t n h .known
  | spent (o : OutPoint) (input : o ∈ t.vin h) (spent : classify t n o = .spent) : Meets t n h .spent
  | accepted (passed : Accepted t n h) : Meets t n h .accepted
  | other {verdict : Verdict} (apart : verdict ≠ .known ∧ verdict ≠ .spent ∧ verdict ≠ .accepted) : Meets t n h verdict

theorem accept_meets (rules : Rules t) (n : Node) (h : Hash) : (accept t rules n h).Meets t n h := by
  have of_inputs {verdict : Verdict} (inputs : checkInputs t n (t.vin h) = some verdict) : verdict.Meets t n h := by
    obtain ⟨o, member, ⟨rfl, spent⟩ | ⟨rfl, missing⟩⟩ := checkInputs_verdict inputs
    · exact .spent o member spent
    · exact .other (by decide)
  unfold accept
  split_ifs with unchecked minted nonstandard pooled located unspent conflict malformed relay
  · exact .other (by decide)
  · exact .other (by decide)
  · exact .other (by decide)
  · exact .known (.inl pooled)
  · exact .known (.inr (.inl located))
  · exact .known (.inr (.inr unspent))
  · exact .other (by decide)
  · exact .other (by decide)
  · cases inputs : checkInputs t n (t.vin h) with
    | some verdict => exact of_inputs inputs
    | none =>
      rw [not_or, not_not] at unchecked
      rw [not_or, Bool.not_eq_true] at minted
      refine .accepted
        { loose := minted.1
          nonnull := unchecked.1.nonnull minted.1
          distinct := unchecked.1.distinct
          unlocated := located
          free := fun o member => ?_
          inputs := fun o member => ?_ }
      · by_contra taken
        exact conflict ⟨o, member, taken⟩
      · rcases checkInputs_none inputs o member with coin | overlay
        · exact .inl coin
        · refine .inr ⟨overlay, mem_outs.mpr ⟨rfl, ?_⟩⟩
          by_contra outside
          exact malformed ⟨o, member, overlay, Nat.not_lt.mp outside⟩
  · cases inputs : checkInputs t n (t.vin h) with
    | some verdict => exact of_inputs inputs
    | none => exact .other (by decide)

theorem accepted_of_accept (accepted : accept t rules n h = .accepted) : Accepted t n h := by
  have meets := accept_meets rules n h
  rw [accepted] at meets
  cases meets with
  | accepted passed => exact passed
  | other apart => exact absurd rfl apart.2.2

/-- A transaction with a location is never admitted. -/
theorem offer_located (located : h ∈ n.located) : offer t rules n h = n :=
  if_neg fun accepted => (accepted_of_accept accepted).unlocated located

theorem mem_resurrect (member : h ∈ resurrect t estimate k chain) : h ∈ confirmed (chain.take k) := by
  fun_induction resurrect with
  | case1 => cases member
  | case2 => cases member
  | case3 k block rest ih =>
    rw [confirmed, List.take_succ_cons, List.flatten_cons, List.toFinset_append, Finset.mem_union]
    rcases List.mem_append.mp member with older | here
    · exact .inr (ih older)
    · exact .inl (List.mem_toFinset.mpr (List.mem_of_mem_filter here))

private theorem foldl_offer_located {txs : List Hash} (located : ∀ h ∈ txs, h ∈ n.located) :
    txs.foldl (offer t rules) n = n := by
  induction txs with
  | nil => rfl
  | cons h rest ih =>
    rw [List.foldl_cons, offer_located (located h (List.mem_cons_self ..))]
    exact ih fun x member => located x (List.mem_cons_of_mem _ member)

/-- Nothing comes back from the disconnected blocks: TX-LOC still holds what they confirmed. -/
theorem reorganize_eq (located : confirmed n.chain ⊆ n.located) (k : Nat) (connected : List Block) :
    reorganize t rules estimate n k connected =
      ⟨connected.flatten.foldl (sweep t) n.pool, connected.reverse ++ n.chain.drop k,
        n.located ∪ confirmed connected⟩ := by
  unfold reorganize
  dsimp only
  rw [foldl_offer_located]
  intro h member
  obtain ⟨block, inside, here⟩ := List.mem_flatten.mp (List.mem_toFinset.mp (mem_resurrect member))
  apply Finset.mem_union_left
  apply located
  exact List.mem_toFinset.mpr (List.mem_flatten.mpr ⟨block, List.mem_of_mem_take inside, here⟩)

/-! ## Removals -/

@[simp] theorem remove_plain_mapTx (p : Pool) (h : Hash) : (p.remove t h false).mapTx = p.mapTx.erase h := by
  by_cases held : h ∈ p.mapTx
  · simp [Pool.remove, held, Pool.erase]
  · simp [Pool.remove, held]

private theorem indexed_remove_plain (indexed : p.Indexed t) (h : Hash) : (p.remove t h false).Indexed t := by
  by_cases held : h ∈ p.mapTx
  · simpa [Pool.remove, held] using indexed_erase indexed held
  · simpa [Pool.remove, held] using indexed

theorem remove_plain_all (block : List Hash) (indexed : p.Indexed t) :
    (block.foldl (fun p h => p.remove t h false) p).Indexed t ∧
      ∀ h, h ∈ (block.foldl (fun p h => p.remove t h false) p).mapTx ↔ h ∈ p.mapTx ∧ h ∉ block := by
  induction block generalizing p with
  | nil => exact ⟨indexed, by simp⟩
  | cons c rest ih =>
    obtain ⟨indexed', members⟩ := ih (indexed_remove_plain indexed c)
    refine ⟨indexed', fun h => ?_⟩
    rw [List.foldl_cons, members, remove_plain_mapTx, Finset.mem_erase, List.mem_cons]
    tauto

/-- What the last loop of `Reorganize` does for the connected transactions `txs`: they are gone and so are
those in conflict with them; what else goes has `E`, and the parents that go are among `txs`. -/
structure Pool.Swept (t : Txs) (E : Hash → Prop) (txs : List Hash) (p p' : Pool) : Prop where
  indexed : p'.Indexed t
  subset : p'.mapTx ⊆ p.mapTx
  gone : ∀ c ∈ txs, c ∉ p'.mapTx
  free : ∀ c ∈ txs, ∀ o ∈ t.vin c, p'.mapNextTx o = none
  closed : ∀ y ∈ p'.mapTx, ∀ o ∈ t.vin y, ∀ q ∈ p.mapTx, o ∈ t.outs q → q ∈ p'.mapTx ∨ q ∈ txs
  only : ∀ x ∈ p.mapTx, x ∉ p'.mapTx → x ∈ txs ∨ E x

private theorem sweep_swept (indexed : p.Indexed t) (inherited : p.Inherited t E)
    (marked : ∀ x ∈ p.mapTx, x ≠ h → ∀ o ∈ t.vin x, o ∈ t.vin h → E x) : Swept t E [h] p (sweep t p h) := by
  have smaller : (p.remove t h false).mapTx ⊆ p.mapTx := by
    rw [remove_plain_mapTx]
    exact Finset.erase_subset _ _
  have absent : h ∉ (p.remove t h false).mapTx := by simp
  obtain ⟨pruned, free⟩ := removeConflicts_pruned (indexed_remove_plain indexed h) (inherited.mono smaller) absent
    fun x held => marked x (smaller held) fun same => absent (same ▸ held)
  have kept (q : Hash) (held : q ∈ p.mapTx) : q = h ∨ q ∈ (p.remove t h false).mapTx := by
    by_cases same : q = h
    · exact .inl same
    · exact .inr (by simp [same, held])
  refine
    { indexed := pruned.indexed
      subset := pruned.subset.trans smaller
      gone := fun c member held => absent (pruned.subset (List.mem_singleton.mp member ▸ held))
      free := fun c member => List.mem_singleton.mp member ▸ free
      closed := fun y held o spent q old out => ?_
      only := fun x held lost => ?_ }
  · rcases kept q old with same | stays
    · exact .inr (List.mem_singleton.mpr same)
    · exact .inl (pruned.closed y held o spent q stays out)
  · rcases kept x held with same | stays
    · exact .inl (List.mem_singleton.mpr same)
    · exact .inr (pruned.only x stays lost)

private theorem Pool.Swept.trans (first : Swept t E one p p') (second : Swept t E two p' p'') :
    Swept t E (one ++ two) p p'' where
  indexed := second.indexed
  subset := second.subset.trans first.subset
  gone c member := by
    rcases List.mem_append.mp member with before | later
    · exact fun held => first.gone c before (second.subset held)
    · exact second.gone c later
  free c member o spent := by
    rcases List.mem_append.mp member with before | later
    · exact first.indexed.unspent_mono second.indexed second.subset (first.free c before o spent)
    · exact second.free c later o spent
  closed y held o spent q old out := by
    rcases first.closed y (second.subset held) o spent q old out with stays | before
    · exact (second.closed y held o spent q stays out).imp_right (List.mem_append_right _)
    · exact .inr (List.mem_append_left _ before)
  only x held lost := by
    by_cases between : x ∈ p'.mapTx
    · exact (second.only x between lost).imp_left (List.mem_append_right _)
    · exact (first.only x held between).imp_left (List.mem_append_left _)

theorem foldl_sweep_swept (indexed : p.Indexed t) (inherited : p.Inherited t E)
    (marked : ∀ x ∈ p.mapTx, ∀ c ∈ txs, x ≠ c → ∀ o ∈ t.vin x, o ∈ t.vin c → E x) :
    Swept t E txs p (txs.foldl (sweep t) p) := by
  induction txs generalizing p with
  | nil =>
    exact
      { indexed := indexed
        subset := fun _ => id
        gone := by simp
        free := by simp
        closed := fun _ _ _ _ _ held _ => .inl held
        only := fun _ held lost => absurd held lost }
  | cons c rest ih =>
    have here := sweep_swept indexed inherited fun x held => marked x held c (List.mem_cons_self ..)
    exact here.trans (ih here.indexed (inherited.mono here.subset) fun x held c' member =>
      marked x (here.subset held) c' (List.mem_cons_of_mem _ member))

/-! ## Every step keeps the node sound -/

section
variable (sound : n.Sound t)
include sound

/-- A pool of fewer transactions, none of them connected just now. -/
theorem Node.Sound.fewer {chain : List Block} (txs : Finset Hash) (indexed : p.Indexed t)
    (subset : p.mapTx ⊆ n.pool.mapTx) (gone : ∀ h ∈ p.mapTx, h ∉ txs) (valid : Valid t chain)
    (located : confirmed chain ⊆ n.located ∪ txs) : Node.Sound t ⟨p, chain, n.located ∪ txs⟩ where
  valid := valid
  indexed := indexed
  located := located
  apart h held := by
    rw [Finset.mem_union, not_or]
    exact ⟨sound.apart h (subset held), gone h held⟩
  loose h held := sound.loose h (subset held)

private theorem sound_offer (h : Hash) : (offer t rules n h).Sound t := by
  unfold offer
  split
  case isFalse => exact sound
  case isTrue accepted =>
    have passed := accepted_of_accept accepted
    have either {x : Hash} (held : x ∈ (n.pool.addUnchecked t h).mapTx) : x = h ∨ x ∈ n.pool.mapTx :=
      Finset.mem_insert.mp held
    refine
      { valid := sound.valid
        indexed := indexed_addUnchecked sound.indexed passed.distinct passed.free
        located := sound.located
        apart := fun x held => ?_
        loose := fun x held => ?_ }
    · rcases either held with rfl | old
      · exact passed.unlocated
      · exact sound.apart x old
    · rcases either held with rfl | old
      · exact passed.toLoose
      · exact sound.loose x old

private theorem sound_remove (h : Hash) (fRecursive : Bool) :
    Node.Sound t { n with pool := n.pool.remove t h fRecursive } := by
  have fewer : (n.pool.remove t h fRecursive).Indexed t ∧ (n.pool.remove t h fRecursive).mapTx ⊆ n.pool.mapTx := by
    cases fRecursive with
    | true =>
      obtain ⟨pruned, -⟩ :=
        remove_pruned (E := fun _ => True) (h := h) sound.indexed (fun _ _ _ _ _ _ _ => trivial) trivial
      exact ⟨pruned.indexed, pruned.subset⟩
    | false =>
      refine ⟨indexed_remove_plain sound.indexed h, ?_⟩
      rw [remove_plain_mapTx]
      exact Finset.erase_subset _ _
  have less := sound.fewer ∅ fewer.1 fewer.2 (by simp) sound.valid (by simpa using sound.located)
  rwa [Finset.union_empty] at less

theorem sound_extend (valid : Valid t (block :: n.chain)) : (extend t n block).Sound t := by
  obtain ⟨indexed, members⟩ := remove_plain_all block sound.indexed
  refine sound.fewer _ indexed (fun h held => ((members h).mp held).1) (fun h held => ?_) valid ?_
  · exact fun inside => ((members h).mp held).2 (List.mem_toFinset.mp inside)
  · rw [confirmed, List.flatten_cons, List.toFinset_append, Finset.union_comm]
    exact Finset.union_subset_union_left sound.located

private theorem confirmed_reorganized (k : Nat) (connected : List Block) :
    confirmed (connected.reverse ++ n.chain.drop k) ⊆ n.located ∪ confirmed connected := by
  rw [confirmed_append, Finset.union_comm]
  exact Finset.union_subset_union_left ((confirmed_drop n.chain k).trans sound.located)

private theorem sound_reorganize (valid : Valid t (connected.reverse ++ n.chain.drop k)) :
    (reorganize t rules estimate n k connected).Sound t := by
  have swept : Swept t (fun _ => True) connected.flatten n.pool (connected.flatten.foldl (sweep t) n.pool) :=
    foldl_sweep_swept sound.indexed (fun _ _ _ _ _ _ _ => trivial) fun _ _ _ _ _ _ _ _ => trivial
  rw [reorganize_eq sound.located]
  refine sound.fewer _ swept.indexed swept.subset (fun h held inside => ?_) valid
    (confirmed_reorganized sound k connected)
  exact swept.gone h (List.mem_toFinset.mp inside) held

theorem sound_step {e : Event t} (ok : e.Succeeds n) : (n.step estimate e).Sound t := by
  cases e with
  | offer rules h => exact sound_offer sound h
  | remove h fRecursive => exact sound_remove sound h fRecursive
  | extend block => exact sound_extend sound ok
  | reorganize k connected rules => exact sound_reorganize sound ok

end

end
end Innova.Mempool
