import EntryPoints.Proofs.Choice.Outcomes

/-!
# Nested lists

Alternatives inside alternatives, and branches inside an active branch, come to what they come to
with the inner list written out in its place. Both rest on one fact about outcomes: some that stand
side by side can be replaced by the one outcome they come to. What holds of a choice holds of it
at any depth of a larger one, since selection looks at the outcomes of a list and no further.
-/

set_option autoImplicit false

namespace EntryPoints.Choice

theorem decision_congr (before outcomes others : List (Except Error Selection))
    (h : decision outcomes = decision others) :
    decision (before ++ outcomes) = decision (before ++ others) := by
  induction before with
  | nil => exact h
  | cons outcome before ih =>
    cases outcome with
    | error e => rfl
    | ok selection =>
      cases selection with
      | unresolved => exact ih
      | target path | withheld => rfl

theorem decision_decided (outcomes rest : List (Except Error Selection)) :
    decision (decision outcomes :: rest) = decision (outcomes ++ rest) := by
  induction outcomes with
  | nil => rfl
  | cons outcome outcomes ih =>
    cases outcome with
    | error e => rfl
    | ok selection =>
      cases selection with
      | unresolved => exact ih
      | target path | withheld => rfl

theorem settlement_congr (before outcomes others : List (Except Error Selection))
    (h : settlement outcomes = settlement others) :
    settlement (before ++ outcomes) = settlement (before ++ others) := by
  induction before with
  | nil => exact h
  | cons outcome before ih =>
    cases outcome with
    | error e =>
      rw [List.cons_append, List.cons_append, settlement, settlement, ih]
    | ok selection =>
      cases selection with
      | target path => rfl
      | unresolved | withheld => exact ih

theorem settlement_error_ne (e : Error) (outcomes : List (Except Error Selection)) :
    settlement (.error e :: outcomes) ≠ .ok .unresolved := by
  rw [settlement]
  split
  · simp
  · assumption

theorem settlement_settled (outcomes rest : List (Except Error Selection)) :
    settlement (settlement outcomes :: rest) = settlement (outcomes ++ rest) := by
  induction outcomes with
  | nil => rfl
  | cons outcome outcomes ih =>
    cases outcome with
    | ok selection =>
      cases selection with
      | target path => rfl
      | unresolved | withheld => exact ih
    | error e =>
      -- A failure counts unless something after it does, among its own neighbours or the rest.
      rw [List.cons_append, settlement, settlement, ← ih]
      cases hsettled : settlement outcomes with
      | error other =>
        dsimp only
        split
        · exact absurd ‹_› (settlement_error_ne other rest)
        · rfl
      | ok selection =>
        cases selection with
        | unresolved => rfl
        | target path => rfl
        | withheld => exact absurd hsettled (settlement_ne_withheld outcomes)

variable (conditions : ConditionSet)

/-- A choice with a hole in it, at any depth. -/
inductive Context where
  | hole
  | branch (before : List (String × Choice)) (name : String) (inner : Context)
      (after : List (String × Choice))
  | alternative (before : List Choice) (inner : Context) (after : List Choice)

def Context.fill : Context → Choice → Choice
  | hole, choice => choice
  | branch before name inner after, choice =>
    .conditional (before ++ (name, inner.fill choice) :: after)
  | alternative before inner after, choice => .fallback (before ++ inner.fill choice :: after)

theorem select_fill_congr (context : Context) (choice other : Choice)
    (h : select conditions choice = select conditions other) :
    select conditions (context.fill choice) = select conditions (context.fill other) := by
  induction context with
  | hole => exact h
  | branch before name inner after ih =>
    apply select_conditional_congr
    by_cases hactive : conditions.active name = true
    · rw [reached_append, reached_append, reached_active conditions name _ after hactive,
        reached_active conditions name _ after hactive, ih]
    · rw [reached_append, reached_append, reached_inactive conditions name _ after hactive,
        reached_inactive conditions name _ after hactive]
  | alternative before inner after ih =>
    apply select_fallback_congr
    rw [List.map_append, List.map_append, List.map_cons, List.map_cons, ih]

theorem select_nested_branches (before inner after : List (String × Choice)) (name : String) :
    select conditions (.conditional (before ++ (name, .conditional inner) :: after)) =
      select conditions (.conditional
        (if conditions.active name then before ++ inner ++ after else before ++ after)) := by
  by_cases hactive : conditions.active name = true
  · rw [if_pos hactive, select_conditional_reached, select_conditional_reached,
      List.append_assoc, reached_append, reached_append,
      reached_active conditions name _ after hactive, select_conditional_reached, reached_append]
    exact decision_congr _ _ _ (decision_decided _ _)
  · rw [if_neg hactive, select_conditional_reached, select_conditional_reached, reached_append,
      reached_append, reached_inactive conditions name _ after hactive]

/-- An empty list in a list is passed over like one that comes to nothing. -/
theorem settlement_inner (inner : List Choice) (rest : List (Except Error Selection)) :
    settlement (select conditions (.fallback inner) :: rest) =
      settlement (inner.map (select conditions) ++ rest) := by
  by_cases hempty : inner = []
  · rw [hempty, select]
    rfl
  · rw [select_fallback_outcomes conditions inner hempty, settlement_settled]

/-- The one list that must not be written out is the empty one in an otherwise empty list. -/
theorem select_nested_alternatives (before inner after : List Choice) :
    select conditions (.fallback (before ++ .fallback inner :: after)) =
        select conditions (.fallback (before ++ inner ++ after)) ↔
      before ++ inner ++ after ≠ [] := by
  have hnested : before ++ .fallback inner :: after ≠ [] := by simp
  rw [select_fallback_outcomes conditions _ hnested]
  constructor
  · intro h hempty
    rw [hempty, select] at h
    exact settlement_ne_withheld _ h
  · intro hsome
    rw [select_fallback_outcomes conditions _ hsome, List.append_assoc, List.map_append,
      List.map_append, List.map_cons, List.map_append]
    exact settlement_congr _ _ _ (settlement_inner conditions inner _)

/-- Wherever a list stands inside another of its sort, it can be written out in its place: inner
alternatives always unless nothing would be left, inner branches if their condition is active. The
branches of a condition that is not active can go. -/
theorem select_unnested (context : Context) :
    (∀ before inner after : List Choice, before ++ inner ++ after ≠ [] →
      select conditions (context.fill (.fallback (before ++ .fallback inner :: after))) =
        select conditions (context.fill (.fallback (before ++ inner ++ after)))) ∧
    (∀ (before inner after : List (String × Choice)) (name : String),
      select conditions
          (context.fill (.conditional (before ++ (name, .conditional inner) :: after))) =
        select conditions (context.fill (.conditional
          (if conditions.active name then before ++ inner ++ after else before ++ after)))) := by
  constructor
  · intro before inner after hsome
    apply select_fill_congr
    exact (select_nested_alternatives conditions before inner after).mpr hsome
  · intro before inner after name
    apply select_fill_congr
    exact select_nested_branches conditions before inner after name

/-- Alternatives of a branch, with a failure before the hole and nothing active after it. -/
def failing : Context :=
  .branch [("browser", .target "./b.js")] "node"
    (.alternative [.target "first.js"] .hole [.conditional [("require", .target "third.js")]]) []

/-- The failure that is kept is the last one, which stands in the inner list. -/
theorem select_unnested_failing :
    [.fallback []] ++ [.target "second.js", .fallback []] ++ [] ≠ ([] : List Choice) ∧
      select (.ofNames ["node"]) (failing.fill (.fallback
          [.fallback [], .fallback [.target "second.js", .fallback []]])) =
        .error (.invalidTarget "second.js") ∧
      select (.ofNames ["node"]) (failing.fill (.fallback
          [.fallback [], .target "second.js", .fallback []])) =
        .error (.invalidTarget "second.js") := by
  have hsome : [.fallback []] ++ [.target "second.js", .fallback []] ++ [] ≠
      ([] : List Choice) := by simp
  have hnested : select (.ofNames ["node"]) (failing.fill (.fallback
      [.fallback [], .fallback [.target "second.js", .fallback []]])) =
        .error (.invalidTarget "second.js") := rfl
  have hsame := (select_unnested (.ofNames ["node"]) failing).1 [.fallback []]
    [.target "second.js", .fallback []] [] hsome
  exact ⟨hsome, hnested, hsame.symm.trans hnested⟩

end EntryPoints.Choice
