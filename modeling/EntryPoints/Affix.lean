/-!
# Leading and trailing parts of sequences

`after? lead whole` is what remains of `whole` once `lead` is taken off its front, and
`before? tail whole` what remains once `tail` is taken off its end. Both are characterised by
the concatenation they undo.
-/

set_option autoImplicit false

namespace EntryPoints.Affix

variable {α : Type} [DecidableEq α]

def after? : List α → List α → Option (List α)
  | [], whole => some whole
  | _ :: _, [] => none
  | a :: lead, b :: whole => if a = b then after? lead whole else none

def before? (tail whole : List α) : Option (List α) :=
  (after? tail.reverse whole.reverse).map List.reverse

theorem after?_eq_some_iff {lead whole rest : List α} :
    after? lead whole = some rest ↔ whole = lead ++ rest := by
  fun_induction after? lead whole with
  | case1 whole => simp [eq_comm]
  | case2 a lead => simp
  | case3 lead a whole ih => simp [ih]
  | case4 a lead b whole h => simp [Ne.symm h]

theorem before?_eq_some_iff {tail whole rest : List α} :
    before? tail whole = some rest ↔ whole = rest ++ tail := by
  simp only [before?, Option.map_eq_some_iff, after?_eq_some_iff]
  constructor
  · rintro ⟨r, h, rfl⟩
    simpa using congrArg List.reverse h
  · rintro rfl
    exact ⟨rest.reverse, by simp, by simp⟩

end EntryPoints.Affix
