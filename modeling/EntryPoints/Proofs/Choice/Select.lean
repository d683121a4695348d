import EntryPoints.Choice

/-!
# Selecting among siblings

What a list of branches or of alternatives comes to, told by what its members come to: the branch
that decides, the alternative that gives the target, the alternative whose failure is kept.
-/

set_option autoImplicit false

namespace EntryPoints.Choice

/-- Induction over choices with a hypothesis for every member of a list. -/
theorem nested_induction {P : Choice → Prop} (target : ∀ path, P (.target path))
    (conditional : ∀ branches, (∀ branch ∈ branches, P branch.2) → P (.conditional branches))
    (fallback : ∀ alternatives, (∀ choice ∈ alternatives, P choice) → P (.fallback alternatives)) :
    ∀ choice, P choice := by
  refine @Choice.rec P (fun branches => ∀ branch ∈ branches, P branch.2)
    (fun alternatives => ∀ choice ∈ alternatives, P choice) (fun branch => P branch.2)
    target conditional fallback ?_ ?_ ?_ ?_ ?_
  · simp
  · intro branch branches h hs
    exact List.forall_mem_cons.mpr ⟨h, hs⟩
  · simp
  · intro choice alternatives h hs
    exact List.forall_mem_cons.mpr ⟨h, hs⟩
  · exact fun _ _ h => h

variable (conditions : ConditionSet)

theorem select_target (path : String) : select conditions (.target path) =
    if Text.startsWith "./" path then .ok (.target path) else .error (.invalidTarget path) := by
  rw [select, checkTarget]
  split <;> rfl

theorem select_conditional (branches : List (String × Choice)) :
    select conditions (.conditional branches) = selectBranch conditions branches := by
  rw [select]

theorem select_fallback (alternatives : List Choice) (h : alternatives ≠ []) :
    select conditions (.fallback alternatives) = selectAlternative conditions alternatives := by
  cases alternatives with
  | nil => exact absurd rfl h
  | cons choice rest => rw [select]

/-- The active ones among some branches come to nothing. -/
def Skipped (branches : List (String × Choice)) : Prop :=
  ∀ branch ∈ branches, conditions.active branch.1 = true →
    select conditions branch.2 = .ok .unresolved

theorem selectBranch_skip (branch : String × Choice) (rest : List (String × Choice))
    (h : conditions.active branch.1 = true → select conditions branch.2 = .ok .unresolved) :
    selectBranch conditions (branch :: rest) = selectBranch conditions rest := by
  rw [selectBranch]
  by_cases hactive : conditions.active branch.1 = true
  · rw [if_pos hactive, h hactive]
  · rw [if_neg hactive]

theorem selectBranch_decide (branch : String × Choice) (rest : List (String × Choice))
    (hactive : conditions.active branch.1 = true)
    (h : select conditions branch.2 ≠ .ok .unresolved) :
    selectBranch conditions (branch :: rest) = select conditions branch.2 := by
  rw [selectBranch, if_pos hactive]
  split
  · exact absurd ‹_› h
  · rfl

theorem selectBranch_eq (branches : List (String × Choice)) (outcome : Except Error Selection)
    (h : outcome ≠ .ok .unresolved) :
    selectBranch conditions branches = outcome ↔ ∃ before name choice after,
      branches = before ++ (name, choice) :: after ∧ conditions.active name = true ∧
        Skipped conditions before ∧ select conditions choice = outcome := by
  constructor
  · intro hselect
    induction branches with
    | nil => exact absurd hselect.symm h
    | cons branch rest ih =>
      by_cases hskip : conditions.active branch.1 = true →
          select conditions branch.2 = .ok .unresolved
      · rw [selectBranch_skip conditions branch rest hskip] at hselect
        obtain ⟨before, name, choice, after, rfl, hactive, hskipped, hchoice⟩ := ih hselect
        exact ⟨branch :: before, name, choice, after, rfl, hactive,
          List.forall_mem_cons.mpr ⟨hskip, hskipped⟩, hchoice⟩
      · obtain ⟨hactive, hne⟩ := Classical.not_imp.mp hskip
        rw [selectBranch_decide conditions branch rest hactive hne] at hselect
        exact ⟨[], branch.1, branch.2, rest, rfl, hactive, List.forall_mem_nil _, hselect⟩
  · rintro ⟨before, name, choice, after, rfl, hactive, hskipped, rfl⟩
    induction before with
    | nil => exact selectBranch_decide conditions (name, choice) after hactive h
    | cons branch before ih =>
      obtain ⟨hskip, hrest⟩ := List.forall_mem_cons.mp hskipped
      rw [List.cons_append, selectBranch_skip conditions branch _ hskip]
      exact ih hrest

/-- None of some alternatives gives a target. -/
def Fruitless (alternatives : List Choice) : Prop :=
  ∀ choice ∈ alternatives, ∀ path, select conditions choice ≠ .ok (.target path)

def Harmless (alternatives : List Choice) : Prop :=
  ∀ choice ∈ alternatives, ∀ e, select conditions choice ≠ .error e

theorem selectAlternative_hit (choice : Choice) (rest : List Choice) (path : String)
    (h : select conditions choice = .ok (.target path)) :
    selectAlternative conditions (choice :: rest) = .ok (.target path) := by
  rw [selectAlternative, h]

/-- Whatever an alternative without a target comes to, a later decision replaces it. -/
theorem selectAlternative_pass (choice : Choice) (rest : List Choice)
    (h : ∀ path, select conditions choice ≠ .ok (.target path))
    (hrest : selectAlternative conditions rest ≠ .ok .unresolved) :
    selectAlternative conditions (choice :: rest) = selectAlternative conditions rest := by
  rw [selectAlternative]
  split
  · exact absurd ‹_› (h _)
  · rfl
  · split
    · exact absurd ‹_› hrest
    · rfl

theorem selectAlternative_quiet (choice : Choice) (rest : List Choice)
    (h : ∀ path, select conditions choice ≠ .ok (.target path))
    (hrest : selectAlternative conditions rest = .ok .unresolved) :
    selectAlternative conditions (choice :: rest) =
      match select conditions choice with
      | .error e => .error e
      | .ok _ => .ok .unresolved := by
  rw [selectAlternative, hrest]
  cases hchoice : select conditions choice with
  | error e => rfl
  | ok selection =>
    cases selection with
    | target path => exact absurd hchoice (h path)
    | unresolved | withheld => rfl

theorem selectAlternative_target (alternatives : List Choice) (path : String) :
    selectAlternative conditions alternatives = .ok (.target path) ↔ ∃ before choice after,
      alternatives = before ++ choice :: after ∧ Fruitless conditions before ∧
        select conditions choice = .ok (.target path) := by
  constructor
  · intro hselect
    induction alternatives with
    | nil => simp [selectAlternative] at hselect
    | cons choice rest ih =>
      by_cases hfruitless : ∀ other, select conditions choice ≠ .ok (.target other)
      · have hrest : selectAlternative conditions rest = .ok (.target path) := by
          by_cases hun : selectAlternative conditions rest = .ok .unresolved
          · rw [selectAlternative_quiet conditions choice rest hfruitless hun] at hselect
            split at hselect <;> simp at hselect
          · rwa [selectAlternative_pass conditions choice rest hfruitless hun] at hselect
        obtain ⟨before, chosen, after, rfl, hbefore, hchosen⟩ := ih hrest
        exact ⟨choice :: before, chosen, after, rfl,
          List.forall_mem_cons.mpr ⟨hfruitless, hbefore⟩, hchosen⟩
      · obtain ⟨other, hother⟩ := Classical.not_forall_not.mp hfruitless
        rw [selectAlternative_hit conditions choice rest other hother] at hselect
        exact ⟨[], choice, rest, rfl, List.forall_mem_nil _, hselect ▸ hother⟩
  · rintro ⟨before, choice, after, rfl, hbefore, hchoice⟩
    induction before with
    | nil => exact selectAlternative_hit conditions choice after path hchoice
    | cons earlier before ih =>
      obtain ⟨hearlier, hrest⟩ := List.forall_mem_cons.mp hbefore
      have htail := ih hrest
      rw [List.cons_append, selectAlternative_pass conditions earlier _ hearlier (by simp [htail])]
      exact htail

theorem selectAlternative_unresolved (alternatives : List Choice) :
    selectAlternative conditions alternatives = .ok .unresolved ↔
      Fruitless conditions alternatives ∧ Harmless conditions alternatives := by
  induction alternatives with
  | nil => simp [selectAlternative, Fruitless, Harmless]
  | cons choice rest ih =>
    rw [Fruitless, Harmless, List.forall_mem_cons, List.forall_mem_cons]
    by_cases hfruitless : ∀ path, select conditions choice ≠ .ok (.target path)
    · by_cases hrest : selectAlternative conditions rest = .ok .unresolved
      · rw [selectAlternative_quiet conditions choice rest hfruitless hrest]
        obtain ⟨hf, hh⟩ := ih.mp hrest
        cases hchoice : select conditions choice with
        | error e => simp
        | ok selection =>
          refine iff_of_true rfl ⟨⟨?_, hf⟩, by simp, hh⟩
          rwa [hchoice] at hfruitless
      · rw [selectAlternative_pass conditions choice rest hfruitless hrest]
        exact iff_of_false hrest fun h => hrest (ih.mpr ⟨h.1.2, h.2.2⟩)
    · obtain ⟨path, hpath⟩ := Classical.not_forall_not.mp hfruitless
      rw [selectAlternative_hit conditions choice rest path hpath]
      exact iff_of_false (by simp) fun h => hfruitless h.1.1

/-- A list fails when no alternative in it gives a target, with the failure after which there is
no other. -/
theorem selectAlternative_error (alternatives : List Choice) (e : Error) :
    selectAlternative conditions alternatives = .error e ↔ ∃ before choice after,
      alternatives = before ++ choice :: after ∧ Fruitless conditions alternatives ∧
        Harmless conditions after ∧ select conditions choice = .error e := by
  constructor
  · intro hselect
    induction alternatives with
    | nil => simp [selectAlternative] at hselect
    | cons choice rest ih =>
      have hfruitless : ∀ path, select conditions choice ≠ .ok (.target path) := by
        intro path hpath
        simp [selectAlternative_hit conditions choice rest path hpath] at hselect
      by_cases hrest : selectAlternative conditions rest = .ok .unresolved
      · rw [selectAlternative_quiet conditions choice rest hfruitless hrest] at hselect
        obtain ⟨hf, hh⟩ := (selectAlternative_unresolved conditions rest).mp hrest
        have hchoice : select conditions choice = .error e := by
          split at hselect
          · rename_i hfailed
            rw [hfailed, hselect]
          · simp at hselect
        exact ⟨[], choice, rest, rfl, List.forall_mem_cons.mpr ⟨hfruitless, hf⟩, hh, hchoice⟩
      · rw [selectAlternative_pass conditions choice rest hfruitless hrest] at hselect
        obtain ⟨before, chosen, after, rfl, hf, hh, hchosen⟩ := ih hselect
        exact ⟨choice :: before, chosen, after, rfl,
          List.forall_mem_cons.mpr ⟨hfruitless, hf⟩, hh, hchosen⟩
  · rintro ⟨before, choice, after, rfl, hfruitless, hharmless, hchoice⟩
    induction before with
    | nil =>
      obtain ⟨hfirst, hafter⟩ := List.forall_mem_cons.mp hfruitless
      rw [List.nil_append, selectAlternative_quiet conditions choice after hfirst
        ((selectAlternative_unresolved conditions after).mpr ⟨hafter, hharmless⟩), hchoice]
    | cons earlier before ih =>
      obtain ⟨hearlier, hrest⟩ := List.forall_mem_cons.mp hfruitless
      have htail := ih hrest
      rw [List.cons_append, selectAlternative_pass conditions earlier _ hearlier (by simp [htail])]
      exact htail

end EntryPoints.Choice
