import Innova.Store3A.Committed

/-! System calls, counted. A part of a commit that succeeds has used up a known number of
outcomes, and it fails only where one of them does not work. -/
namespace Innova.Store3A
open Lib Chainstate

namespace Store

/-- The first `n` outcomes all work. -/
def Calm (n : Nat) (script : List Outcome) : Prop := ∀ k < n, script.getD k .done = .done

section Calm
variable {script : List Outcome}

theorem Calm.le (calm : Calm n script) (fewer : m ≤ n) : Calm m script := fun k below => calm k (below.trans_le fewer)

theorem Calm.drop (calm : Calm (m + n) script) : Calm n (script.drop m) := by
  intro k below
  have here := calm (m + k) (by omega)
  rwa [List.getD_eq_getElem?_getD, List.getElem?_drop, ← List.getD_eq_getElem?_getD]

end Calm

theorem ends_syscall_counted (ok : Q () { s with script := s.script.drop 1 })
    (error : ¬Calm 1 s.script → ∀ stop, E stop { s with script := s.script.drop 1 }) : Ends (syscall e) s Q E := by
  have head : s.script.headD .done = s.script.getD 0 .done := by cases s.script <;> rfl
  have tail : s.script.tail = s.script.drop 1 := by cases s.script <;> rfl
  show Ends _ { s with script := s.script.tail } Q E
  rw [tail]
  cases next : s.script.headD .done with
  | done => exact ends_pure.mpr ok
  | fails junk | crash junk =>
    refine error (fun calm => ?_) _
    have works := calm 0 Nat.one_pos
    rw [← head, next] at works
    cases works

theorem ends_csWriteFile_counted (ok : Q () { s with script := s.script.drop 4 })
    (error : ¬Calm 4 s.script → ∀ stop rest, E stop { s with script := rest }) : Ends (csWriteFile name) s Q E := by
  have stuck {k : Nat} (few : k + 1 ≤ 4) (fails : ¬Calm 1 (s.script.drop k)) : ¬Calm 4 s.script := fun calm =>
    fails ((calm.le few).drop)
  refine Ends.get
    (Ends.bind (ends_syscall_counted ?_ fun fails stop => error (stuck (k := 0) (by decide) fails) stop _))
  refine Ends.bind (ends_syscall_counted ?_ fun fails stop => error (stuck (k := 1) (by decide) fails) stop _)
  rw [List.drop_drop]
  refine Ends.bind (ends_syscall_counted ?_ fun fails stop => error (stuck (k := 2) (by decide) fails) stop _)
  rw [List.drop_drop]
  refine ends_syscall_counted ?_ fun fails stop => error (stuck (k := 3) (by decide) fails) stop _
  rw [List.drop_drop]
  exact ok

theorem ends_csFsyncDir_counted (ok : Q () { s with script := s.script.drop 2, files := Files.fsyncDir s.files })
    (error : ¬Calm 2 s.script → ∀ stop rest, E stop { s with script := rest }) : Ends csFsyncDir s Q E := by
  refine Ends.get
    (Ends.bind (ends_syscall_counted ?_ fun fails stop => error (fun calm => fails (calm.le (by decide))) stop _))
  refine Ends.bind
    (ends_syscall_counted ?_ fun fails stop => error (fun calm => fails ((calm.le le_rfl).drop (m := 1))) stop _)
  rw [List.drop_drop]
  exact ends_update.mpr ok

/-- Replacing a file: the temporary one is written, renamed and noted. -/
theorem ends_rename_counted (ok : Ends x (f { s with script := s.script.drop 5 }) Q E)
    (error : ¬Calm 5 s.script → ∀ stop rest, E stop { s with script := rest }) :
    Ends (do csWriteFile name; syscall e; update f; x) s Q E := by
  refine Ends.bind (ends_csWriteFile_counted ?_ fun fails => error fun calm => fails (calm.le (by decide)))
  refine Ends.bind (ends_syscall_counted ?_ fun fails stop => error (fun calm => fails (calm.drop (m := 4))) stop _)
  rw [List.drop_drop]
  exact ends_update_then ok

end Store
end Innova.Store3A
