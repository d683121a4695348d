import EntryPoints.Proofs.Choice.Outcomes

/-!
# Routes through a choice

A selection other than `unresolved` comes from one leaf of the tree, and the way down to it says
why: past inactive and unresolved branches only, and through each list of alternatives at the place
that the outcome allows. One induction serves all outcomes; they differ in that place.
-/

set_option autoImplicit false

namespace EntryPoints.Choice

variable (conditions : ConditionSet)

/-- A way down from a choice to a leaf of it. `may before choice after` says which alternatives of
a list the way can lead through. -/
inductive Route (may : List Choice → Choice → List Choice → Prop) (leaf : Choice) : Choice → Prop
  | stop : Route may leaf leaf
  | branch {before : List (String × Choice)} {name : String} {choice : Choice}
      {after : List (String × Choice)} (active : conditions.active name = true)
      (skipped : Skipped conditions before) (rest : Route may leaf choice) :
      Route may leaf (.conditional (before ++ (name, choice) :: after))
  | alternative {before : List Choice} {choice : Choice} {after : List Choice}
      (entered : may before choice after) (rest : Route may leaf choice) :
      Route may leaf (.fallback (before ++ choice :: after))

/-- No alternative before the chosen one gives a target. -/
def FirstTarget (before : List Choice) (_ : Choice) (_ : List Choice) : Prop :=
  Fruitless conditions before

/-- The list has no target, and the chosen alternative is the last that fails. -/
def LastFailure (before : List Choice) (choice : Choice) (after : List Choice) : Prop :=
  Fruitless conditions (before ++ choice :: after) ∧
    (∃ e, select conditions choice = .error e) ∧ Harmless conditions after

def NoAlternative (_ : List Choice) (_ : Choice) (_ : List Choice) : Prop := False

inductive Leaf : Choice → Prop
  | target (path : String) : Leaf (.target path)
  | empty : Leaf (.fallback [])

/-- Selection follows a route, for any outcome for which the step through alternatives is known. -/
theorem select_eq_iff_route (may : List Choice → Choice → List Choice → Prop)
    (outcome : Except Error Selection) (hne : outcome ≠ .ok .unresolved)
    (hmay : ∀ alternatives, selectAlternative conditions alternatives = outcome ↔
      ∃ before choice after, alternatives = before ++ choice :: after ∧ may before choice after ∧
        select conditions choice = outcome) (choice : Choice) :
    select conditions choice = outcome ↔ ∃ leaf, Leaf leaf ∧
      select conditions leaf = outcome ∧ Route conditions may leaf choice := by
  constructor
  · intro hselect
    induction choice using nested_induction with
    | target path => exact ⟨_, .target path, hselect, .stop⟩
    | conditional branches ih =>
      rw [select_conditional, selectBranch_eq conditions branches outcome hne] at hselect
      obtain ⟨before, name, choice, after, rfl, hactive, hskipped, hchoice⟩ := hselect
      obtain ⟨leaf, hleaf, hout, hroute⟩ := ih (name, choice) (by simp) hchoice
      exact ⟨leaf, hleaf, hout, .branch hactive hskipped hroute⟩
    | fallback alternatives ih =>
      by_cases hempty : alternatives = []
      · subst hempty
        exact ⟨_, .empty, hselect, .stop⟩
      · rw [select_fallback conditions alternatives hempty, hmay] at hselect
        obtain ⟨before, choice, after, rfl, hentered, hchoice⟩ := hselect
        obtain ⟨leaf, hleaf, hout, hroute⟩ := ih choice (by simp) hchoice
        exact ⟨leaf, hleaf, hout, .alternative hentered hroute⟩
  · rintro ⟨leaf, -, hout, hroute⟩
    induction hroute with
    | stop => exact hout
    | branch hactive hskipped _ ih =>
      rw [select_conditional, selectBranch_eq conditions _ outcome hne]
      exact ⟨_, _, _, _, rfl, hactive, hskipped, ih⟩
    | alternative hentered _ ih =>
      rw [select_fallback conditions _ (by simp), hmay]
      exact ⟨_, _, _, rfl, hentered, ih⟩

theorem select_target_route (choice : Choice) (path : String) :
    select conditions choice = .ok (.target path) ↔ Text.startsWith "./" path = true ∧
      Route conditions (FirstTarget conditions) (.target path) choice := by
  rw [select_eq_iff_route conditions (FirstTarget conditions) _ (by simp)
    (fun alternatives => selectAlternative_target conditions alternatives path)]
  constructor
  · rintro ⟨leaf, hleaf, hout, hroute⟩
    cases hleaf with
    | target other =>
      rw [select_target] at hout
      split at hout
      · rename_i hstarts
        cases hout
        exact ⟨hstarts, hroute⟩
      · simp at hout
    | empty => simp [select] at hout
  · rintro ⟨hstarts, hroute⟩
    exact ⟨_, .target path, by rw [select_target, if_pos hstarts], hroute⟩

theorem select_withheld_route (choice : Choice) :
    select conditions choice = .ok .withheld ↔
      Route conditions NoAlternative (.fallback []) choice := by
  rw [select_eq_iff_route conditions NoAlternative _ (by simp)
    (fun alternatives => by simp [selectAlternative_ne_withheld, NoAlternative])]
  constructor
  · rintro ⟨leaf, hleaf, hout, hroute⟩
    cases hleaf with
    | target other =>
      rw [select_target] at hout
      split at hout <;> simp at hout
    | empty => exact hroute
  · intro hroute
    exact ⟨_, .empty, by rw [select], hroute⟩

theorem select_error_route (choice : Choice) (e : Error) :
    select conditions choice = .error e ↔ ∃ path, e = .invalidTarget path ∧
      ¬Text.startsWith "./" path = true ∧
      Route conditions (LastFailure conditions) (.target path) choice := by
  have hmay : ∀ alternatives, selectAlternative conditions alternatives = .error e ↔
      ∃ before choice after, alternatives = before ++ choice :: after ∧
        LastFailure conditions before choice after ∧ select conditions choice = .error e := by
    intro alternatives
    rw [selectAlternative_error]
    constructor
    · rintro ⟨before, choice, after, rfl, hfruitless, hharmless, hchoice⟩
      exact ⟨before, choice, after, rfl, ⟨hfruitless, ⟨e, hchoice⟩, hharmless⟩, hchoice⟩
    · rintro ⟨before, choice, after, rfl, ⟨hfruitless, -, hharmless⟩, hchoice⟩
      exact ⟨before, choice, after, rfl, hfruitless, hharmless, hchoice⟩
  rw [select_eq_iff_route conditions (LastFailure conditions) _ (by simp) hmay]
  constructor
  · rintro ⟨leaf, hleaf, hout, hroute⟩
    cases hleaf with
    | target path =>
      rw [select_target] at hout
      split at hout
      · simp at hout
      · rename_i hstarts
        exact ⟨path, (Except.error.inj hout).symm, hstarts, hroute⟩
    | empty => simp [select] at hout
  · rintro ⟨path, rfl, hstarts, hroute⟩
    exact ⟨_, .target path, by rw [select_target, if_neg hstarts], hroute⟩

/-- Each outcome of a selection is told by the route to one leaf. Without such a route the choice
is unresolved. -/
theorem select_route (choice : Choice) :
    (∀ path, select conditions choice = .ok (.target path) ↔
      Text.startsWith "./" path = true ∧
        Route conditions (FirstTarget conditions) (.target path) choice) ∧
    (select conditions choice = .ok .withheld ↔
      Route conditions NoAlternative (.fallback []) choice) ∧
    (∀ e, select conditions choice = .error e ↔ ∃ path, e = .invalidTarget path ∧
      ¬Text.startsWith "./" path = true ∧
      Route conditions (LastFailure conditions) (.target path) choice) ∧
    (select conditions choice = .ok .unresolved ↔
      (∀ path, Text.startsWith "./" path = true →
        ¬Route conditions (FirstTarget conditions) (.target path) choice) ∧
      ¬Route conditions NoAlternative (.fallback []) choice ∧
      ∀ path, ¬Text.startsWith "./" path = true →
        ¬Route conditions (LastFailure conditions) (.target path) choice) := by
  have htarget := select_target_route conditions choice
  have hwithheld := select_withheld_route conditions choice
  have herror := select_error_route conditions choice
  refine ⟨htarget, hwithheld, herror, ?_⟩
  constructor
  · intro hun
    refine ⟨fun path hstarts hroute => ?_, fun hroute => ?_, fun path hstarts hroute => ?_⟩
    · simp [(htarget path).mpr ⟨hstarts, hroute⟩] at hun
    · simp [hwithheld.mpr hroute] at hun
    · simp [(herror _).mpr ⟨path, rfl, hstarts, hroute⟩] at hun
  · rintro ⟨hnotarget, hnotwithheld, hnoerror⟩
    cases hselect : select conditions choice with
    | error e =>
      obtain ⟨path, -, hstarts, hroute⟩ := (herror e).mp hselect
      exact absurd hroute (hnoerror path hstarts)
    | ok selection =>
      cases selection with
      | unresolved => rfl
      | target path =>
        obtain ⟨hstarts, hroute⟩ := (htarget path).mp hselect
        exact absurd hroute (hnotarget path hstarts)
      | withheld => exact absurd (hwithheld.mp hselect) hnotwithheld

end EntryPoints.Choice
