import Innova.Store3A.FreePages
import Innova.Store3A.UndoLog

/-! Committed states, and what the calls of the store do to them. -/
namespace Innova.Store3A
open Lib Lib.PagedTree Chainstate

/-- What a generation commits: the coin set, the undo log behind it and the tip. -/
structure Committed where
  coins : CoinMap
  log : List UndoRecord
  generation : UInt64
  blockHash : Hash
  tipHeight : Int32

/-- The manifest of a committed state, whose records are all readable. -/
structure Manifest.Names (m : Manifest) (c : Committed) : Prop where
  version : m.formatVersion = 2
  generation : m.generation = c.generation
  undoSize : m.undoSize.toNat = (UndoLog.bytes c.log).length
  blockHash : m.blockHash = c.blockHash
  tipHeight : m.tipHeight = c.tipHeight
  records : ∀ r ∈ c.log, r.encode.length < 2 ^ 32

/-- `undo.dat` starts with the log; an empty log needs no file. -/
def Logged (log : List UndoRecord) (u : Option Bytes) : Prop := log = [] ∨ ∃ rest, u = some (UndoLog.bytes log ++ rest)

/-- The index, if there is one, is well formed. -/
def Readable (u : Option Bytes) : Prop := ∀ raw, u = some raw → ∃ ix, UndoIndex.decode raw = .ok ix

theorem Logged.of_append (logged : Logged (log ++ more) u) : Logged log u := by
  rcases logged with empty | ⟨rest, found⟩
  · exact .inl (List.append_eq_nil_iff.mp empty).1
  · exact .inr ⟨UndoLog.bytes more ++ rest, by simpa using found⟩

private theorem Logged.take (logged : Logged log u) :
    (u.getD []).take (UndoLog.bytes log).length = UndoLog.bytes log := by
  rcases logged with rfl | ⟨rest, rfl⟩
  · rfl
  · simp

theorem Logged.writeAt (logged : Logged log u) (raw : Bytes) :
    ∃ rest, Bytes.writeAt (u.getD []) (UndoLog.bytes log).length raw = UndoLog.bytes log ++ (raw ++ rest) :=
  ⟨_, by rw [Bytes.writeAt, logged.take, List.append_assoc]⟩

/-! ## Call by call -/

namespace Store

/-- The record of a block. -/
def BatchBlock.undo (b : BatchBlock) : UndoRecord := ⟨b.blockHash, b.height, b.d⟩

/-- The log with the records of a batch behind it. -/
def extended (log : List UndoRecord) (batch : List BatchBlock) : List UndoRecord := log ++ batch.map BatchBlock.undo

end Store

/-- The state after a batch of blocks. -/
def Committed.append (c : Committed) (batch : List Store.BatchBlock) (last : Store.BatchBlock) : Committed where
  coins := c.coins.setAll (batch.flatMap fun b => Store.afters b.d)
  log := Store.extended c.log batch
  generation := c.generation + 1
  blockHash := last.blockHash
  tipHeight := last.height

/-- The state after the last block is taken back. -/
def Committed.undo (c : Committed) (parentTipHash : Hash) : Committed :=
  match c.log.getLast? with
  | none => c
  | some r =>
    { coins := c.coins.setAll (Store.befores r.ops), log := c.log.dropLast, generation := c.generation + 1
      blockHash := parentTipHash, tipHeight := c.tipHeight - 1 }

/-- What a call is for. -/
def Store.Call.next (c : Committed) : Call → Committed
  | publish d blockHash height => c.append [⟨d, blockHash, height⟩] ⟨d, blockHash, height⟩
  | applyBatchBlock _ => c
  | publishBatch batch => batch.getLast?.elim c (c.append batch)
  | disconnect _ parentTipHash => c.undo parentTipHash

end Innova.Store3A
