import Innova.BlockIndex.BlockTree

/-! A block delivered again (`AcceptBlock` and `AddToBlockIndex`, `main.cpp`), and whether its body can be read
where the block index says. -/
namespace Innova.BlockIndex.Redelivery
open Chainstate

/-- What `ResolveBlockSnapshot` answers: a record, no record, or a failed read. Records name a file and a position. -/
inductive Lookup where
  | ok (pos : Nat × Nat)
  | missing
  | failed
  deriving DecidableEq

structure Node where
  /-- `g_fAuthoritativeStartup`. -/
  authoritative : Bool
  /-- The live authority, while it is open. -/
  live : Option (Hash → Lookup)
  mapBlockIndex : Hash → Option (Nat × Nat)
  /-- The hash of the block that can be read at a position. -/
  disk : Nat × Nat → Option Hash

/-- A block with what its acceptance meets. -/
structure Delivery where
  hash : Hash
  /-- Whether it passes the checks. -/
  passes : Bool
  /-- Where `WriteToDisk` puts the body. -/
  pos : Nat × Nat
  /-- Whether `SetBestChain` returns true, if it is called, and whether the authority takes the record. -/
  connects : Bool
  publishes : Bool

namespace Node

def lookup (n : Node) (h : Hash) : Option Lookup := n.live.map (· h)

/-- A block with the hash can be read at a recorded position. -/
def probe (n : Node) (h : Hash) : Lookup → Bool
  | .ok pos => n.disk pos = some h
  | _ => false

/-- The duplicate guard. -/
def refuses (n : Node) (h : Hash) : Bool :=
  (n.mapBlockIndex h).isSome || n.authoritative && match n.lookup h with
    | none => true
    -- a record without a body passes the probe, and meets the test for every status but the missing one
    | some answer => n.probe h answer || answer ≠ .missing

/-- The position that the block index records. -/
def recorded (n : Node) (h : Hash) : Option (Nat × Nat) :=
  if n.authoritative then
    match n.lookup h with
    | some (.ok pos) => some pos
    | _ => none
  else n.mapBlockIndex h

/-- The body can be read back. -/
def Readable (n : Node) (h : Hash) : Prop := ∃ pos, n.recorded h = some pos ∧ n.disk pos = some h

end Node

/-- `AddToBlockIndex` of a block that is not resident. -/
def addToBlockIndex (d : Delivery) (n : Node) : Bool × Node :=
  let resident := { n with mapBlockIndex := Function.update n.mapBlockIndex d.hash (some d.pos) }
  if !d.connects then (false, n)
  else if !n.authoritative then (true, resident)
  else if !d.publishes then (false, resident)
  else (true, { resident with live := n.live.map (Function.update · d.hash (.ok d.pos)) })

/-- `AcceptBlock` on a disk that does not fail. -/
def acceptBlock (d : Delivery) (n : Node) : Bool × Node :=
  if n.refuses d.hash || !d.passes then (false, n)
  else addToBlockIndex d { n with disk := Function.update n.disk d.pos (some d.hash) }

variable {d : Delivery} {n : Node}

/-- What passes the guard has no record, and is recorded where it was written if it is connected and gets one. -/
theorem addToBlockIndex_recorded (passed : n.refuses d.hash = false) (disk) : n.recorded d.hash = none ∧
    (addToBlockIndex d { n with disk }).2.disk = disk ∧ (addToBlockIndex d { n with disk }).2.recorded d.hash =
      if d.connects = true ∧ (n.authoritative = true → d.publishes = true) then some d.pos else none := by
  rw [Node.refuses, Bool.or_eq_false_iff, Option.isSome_eq_false_iff, Option.isNone_iff_eq_none] at passed
  obtain ⟨absent, answer⟩ := passed
  unfold addToBlockIndex Node.recorded Node.lookup
  cases authoritative : n.authoritative with
  | false => cases d.connects <;> simp [absent]
  | true =>
    cases found : n.live with
    | none => simp [Node.lookup, authoritative, found] at answer
    | some live =>
      have missing : live d.hash = .missing := by
        simp [Node.lookup, authoritative, found] at answer
        exact answer.2
      cases d.connects <;> cases d.publishes <;> simp [missing]

/-- After a delivery that passes the checks the body can be read exactly if it could be read before, or the block
had no record, is connected and gets one. -/
theorem acceptBlock_readable_iff (passes : d.passes = true) : (acceptBlock d n).2.Readable d.hash ↔
    n.Readable d.hash ∨
      (n.refuses d.hash = false ∧ d.connects = true ∧ (n.authoritative = true → d.publishes = true)) := by
  cases passed : n.refuses d.hash with
  | true => simp [acceptBlock, passed]
  | false =>
    obtain ⟨unknown, disk, recorded⟩ := addToBlockIndex_recorded passed (Function.update n.disk d.pos (some d.hash))
    simp only [acceptBlock, passed, passes, Node.Readable, unknown, Bool.not_true, Bool.or_self,
      Bool.false_eq_true, if_false,
      disk, recorded]
    split
    · next gets => simpa [gets.1] using gets.2
    · next lacks => simp [lacks]

/-- A record at a position where nothing can be read. -/
def bare : Node := ⟨true, some fun _ => .ok (1, 8), fun _ => none, fun _ => none⟩

def block : Delivery := ⟨ByteArr.zero 32, true, (1, 80), true, true⟩

theorem acceptBlock_readable_iff_new :
    (acceptBlock block { bare with live := some fun _ => .missing }).2.Readable block.hash :=
  (acceptBlock_readable_iff rfl).mpr (.inr ⟨rfl, rfl, fun _ => rfl⟩)

theorem body_stays_missing : bare.recorded block.hash = some (1, 8) ∧ bare.disk (1, 8) = none ∧
    block.passes = true ∧ ¬ (acceptBlock block bare).2.Readable block.hash := by
  refine ⟨rfl, rfl, rfl, ?_⟩
  rintro ⟨pos, -, read⟩
  cases read

end Innova.BlockIndex.Redelivery
