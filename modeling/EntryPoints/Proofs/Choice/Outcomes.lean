import EntryPoints.Proofs.Choice.Select

/-!
# Outcomes of siblings

Selecting from a list asks of its members only what they come to: of branches what the active ones
come to, of alternatives what all of them do. Two lists with the same outcomes therefore come to
the same, even where the outcomes were found under different conditions.
-/

set_option autoImplicit false

namespace EntryPoints.Choice

/-- The first outcome that is not unresolved. -/
def decision : List (Except Error Selection) → Except Error Selection
  | [] => .ok .unresolved
  | .ok .unresolved :: rest => decision rest
  | outcome :: _ => outcome

/-- The first target; failing that, the last failure. -/
def settlement : List (Except Error Selection) → Except Error Selection
  | [] => .ok .unresolved
  | .ok (.target path) :: _ => .ok (.target path)
  | .ok _ :: rest => settlement rest
  | .error e :: rest =>
    match settlement rest with
    | .ok .unresolved => .error e
    | outcome => outcome

theorem settlement_ne_withheld (outcomes : List (Except Error Selection)) :
    settlement outcomes ≠ .ok .withheld := by
  induction outcomes with
  | nil => simp [settlement]
  | cons outcome outcomes ih =>
    cases outcome with
    | error e =>
      rw [settlement]
      split
      · simp
      · exact ih
    | ok selection =>
      cases selection with
      | target path => simp [settlement]
      | unresolved | withheld => exact ih

/-- What the active ones among some branches come to, in order. -/
def reached (conditions : ConditionSet) (branches : List (String × Choice)) :
    List (Except Error Selection) :=
  (branches.filter fun branch => conditions.active branch.1).map fun branch =>
    select conditions branch.2

variable (conditions others : ConditionSet)

theorem reached_active (name : String) (choice : Choice) (rest : List (String × Choice))
    (h : conditions.active name = true) : reached conditions ((name, choice) :: rest) =
      select conditions choice :: reached conditions rest := by
  simp [reached, h]

theorem reached_inactive (name : String) (choice : Choice) (rest : List (String × Choice))
    (h : ¬conditions.active name = true) :
    reached conditions ((name, choice) :: rest) = reached conditions rest := by
  simp [reached, h]

theorem reached_append (branches rest : List (String × Choice)) :
    reached conditions (branches ++ rest) =
      reached conditions branches ++ reached conditions rest := by
  rw [reached, List.filter_append, List.map_append, reached, reached]

theorem selectBranch_reached (branches : List (String × Choice)) :
    selectBranch conditions branches = decision (reached conditions branches) := by
  induction branches with
  | nil => rfl
  | cons branch rest ih =>
    obtain ⟨name, choice⟩ := branch
    by_cases hactive : conditions.active name = true
    · rw [reached_active conditions name choice rest hactive, selectBranch, if_pos hactive, ih]
      cases select conditions choice with
      | error e => rfl
      | ok selection => cases selection <;> rfl
    · rw [reached_inactive conditions name choice rest hactive, selectBranch, if_neg hactive, ih]

theorem selectAlternative_outcomes (alternatives : List Choice) :
    selectAlternative conditions alternatives =
      settlement (alternatives.map (select conditions)) := by
  induction alternatives with
  | nil => rfl
  | cons choice rest ih =>
    rw [selectAlternative, List.map_cons, ih]
    cases select conditions choice with
    | error e => rfl
    | ok selection => cases selection <;> rfl

theorem selectAlternative_ne_withheld (alternatives : List Choice) :
    selectAlternative conditions alternatives ≠ .ok .withheld := by
  rw [selectAlternative_outcomes]
  exact settlement_ne_withheld _

theorem select_conditional_reached (branches : List (String × Choice)) :
    select conditions (.conditional branches) = decision (reached conditions branches) := by
  rw [select_conditional, selectBranch_reached]

theorem select_fallback_outcomes (alternatives : List Choice) (h : alternatives ≠ []) :
    select conditions (.fallback alternatives) =
      settlement (alternatives.map (select conditions)) := by
  rw [select_fallback conditions alternatives h, selectAlternative_outcomes]

theorem select_conditional_congr (branches kept : List (String × Choice))
    (h : reached conditions branches = reached others kept) :
    select conditions (.conditional branches) = select others (.conditional kept) := by
  rw [select_conditional_reached, select_conditional_reached, h]

/-- An empty list is withheld, so lists must be empty together; those of equal outcomes are. -/
theorem select_fallback_congr (alternatives kept : List Choice)
    (h : alternatives.map (select conditions) = kept.map (select others)) :
    select conditions (.fallback alternatives) = select others (.fallback kept) := by
  by_cases hempty : alternatives = []
  · subst hempty
    rw [List.map_nil, eq_comm, List.map_eq_nil_iff] at h
    rw [h, select, select]
  · have hkept : kept ≠ [] := by
      rintro rfl
      exact hempty (List.map_eq_nil_iff.mp h)
    rw [select_fallback_outcomes conditions alternatives hempty,
      select_fallback_outcomes others kept hkept, h]

end EntryPoints.Choice
