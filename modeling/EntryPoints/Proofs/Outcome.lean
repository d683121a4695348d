/-!
# Successful outcomes

A computation that goes on from an outcome succeeds when the outcome does and the rest with it.
-/

set_option autoImplicit false

namespace EntryPoints

variable {ε α β : Type}

theorem map_eq_ok (outcome : Except ε α) (f : α → β) (b : β) :
    outcome.map f = .ok b ↔ ∃ a, outcome = .ok a ∧ f a = b := by
  cases outcome <;> simp [Except.map]

theorem bind_eq_ok (outcome : Except ε α) (f : α → Except ε β) (b : β) :
    outcome.bind f = .ok b ↔ ∃ a, outcome = .ok a ∧ f a = .ok b := by
  cases outcome <;> simp [Except.bind]

end EntryPoints
