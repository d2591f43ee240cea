import Mathlib.Tactic.Common

/-! A file as a running program sees it, together with what a crash may leave of it
instead. A change that is not synced adds to what may be found; a sync leaves only the
current content. -/
namespace Innova.Lib

structure Durable (α : Type) where
  cur : α
  /-- Other contents a crash now may leave behind. -/
  stale : α → Prop

namespace Durable
variable {α : Type} (d : Durable α)

/-- What may be found after a crash. -/
def Leaves (u : α) : Prop := u = d.cur ∨ d.stale u

/-- A file whose content is durable. -/
def settled (v : α) : Durable α := ⟨v, fun _ => False⟩

/-- An atomic replacement, such as a rename, that is not durable yet. -/
def replace (v : α) : Durable α := ⟨v, d.Leaves⟩

/-- A change in place: until it is synced, a crash may leave anything `torn` allows. -/
def disturb (v : α) (torn : α → Prop) : Durable α := ⟨v, fun u => d.Leaves u ∨ torn u⟩

/-- The content becomes durable. -/
def sync : Durable α := settled d.cur

/-- Some of what might have been found is ruled out. -/
def narrow (keep : α → Prop) : Durable α := ⟨d.cur, fun u => d.stale u ∧ keep u⟩

end Durable
end Innova.Lib
