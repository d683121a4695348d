import EntryPoints.Proofs.Choice.Outcomes
import EntryPoints.Proofs.Choice.Reading

/-!
# The names that matter

Selecting from a choice asks of each condition that the choice mentions whether it is active, and
nothing else. Branches under names that are not active can be cut away at every depth.
-/

set_option autoImplicit false

namespace EntryPoints

/-- The same of these names are active in both. -/
def ConditionSet.AgreeOn (conditions others : ConditionSet) (names : List String) : Prop :=
  ∀ name ∈ names, conditions.active name = others.active name

namespace Choice

variable (conditions others : ConditionSet)

theorem reached_agree (branches : List (String × Choice))
    (hnames : ∀ branch ∈ branches, conditions.active branch.1 = others.active branch.1)
    (hchoices : ∀ branch ∈ branches, select conditions branch.2 = select others branch.2) :
    reached conditions branches = reached others branches := by
  have hfilter : branches.filter (fun branch => conditions.active branch.1) =
      branches.filter fun branch => others.active branch.1 :=
    List.filter_congr hnames
  rw [reached, reached, hfilter]
  apply List.map_congr_left
  intro branch hbranch
  exact hchoices branch (List.mem_filter.mp hbranch).1

theorem select_agree (choice : Choice) (h : conditions.AgreeOn others choice.names) :
    select conditions choice = select others choice := by
  induction choice using nested_induction with
  | target path => rw [select, select]
  | conditional branches ih =>
    have hmem := mem_namesOfBranches branches
    apply select_conditional_congr
    apply reached_agree
    · intro branch hbranch
      exact h branch.1 ((hmem _).mpr ⟨branch, hbranch, Or.inl rfl⟩)
    · intro branch hbranch
      exact ih branch hbranch fun name hname =>
        h name ((hmem name).mpr ⟨branch, hbranch, Or.inr hname⟩)
  | fallback alternatives ih =>
    apply select_fallback_congr
    apply List.map_congr_left
    intro choice hchoice
    exact ih choice hchoice fun name hname =>
      h name ((mem_namesOfAlternatives alternatives name).mpr ⟨choice, hchoice, hname⟩)

mutual
/-- The choice without its inactive branches, at every depth. -/
def prune : Choice → Choice
  | .target path => .target path
  | .conditional branches => .conditional (pruneBranches branches)
  | .fallback alternatives => .fallback (pruneAlternatives alternatives)

def pruneBranches : List (String × Choice) → List (String × Choice)
  | [] => []
  | (name, choice) :: rest =>
    if conditions.active name then (name, prune choice) :: pruneBranches rest
    else pruneBranches rest

def pruneAlternatives : List Choice → List Choice
  | [] => []
  | choice :: rest => prune choice :: pruneAlternatives rest
end

theorem pruneBranches_eq (branches : List (String × Choice)) : pruneBranches conditions branches =
    (branches.filter fun branch => conditions.active branch.1).map fun branch =>
      (branch.1, prune conditions branch.2) := by
  induction branches with
  | nil => rfl
  | cons branch rest ih =>
    obtain ⟨name, choice⟩ := branch
    rw [pruneBranches]
    by_cases hactive : conditions.active name = true <;> simp [hactive, ih]

theorem pruneAlternatives_eq (alternatives : List Choice) :
    pruneAlternatives conditions alternatives = alternatives.map (prune conditions) := by
  induction alternatives with
  | nil => rfl
  | cons choice rest ih => rw [pruneAlternatives, ih, List.map_cons]

theorem reached_prune (branches : List (String × Choice))
    (h : ∀ branch ∈ branches,
      select conditions (prune conditions branch.2) = select conditions branch.2) :
    reached conditions (pruneBranches conditions branches) = reached conditions branches := by
  -- What is left is all active, so asking for the active branches again drops none.
  have hkept : (pruneBranches conditions branches).filter
      (fun branch => conditions.active branch.1) = pruneBranches conditions branches := by
    rw [List.filter_eq_self, pruneBranches_eq]
    intro branch hbranch
    obtain ⟨original, horiginal, rfl⟩ := List.mem_map.mp hbranch
    exact (List.mem_filter.mp horiginal).2
  rw [reached, hkept, pruneBranches_eq, List.map_map]
  apply List.map_congr_left
  intro branch hbranch
  exact h branch (List.mem_filter.mp hbranch).1

theorem select_prune (choice : Choice) :
    select conditions (prune conditions choice) = select conditions choice := by
  induction choice using nested_induction with
  | target path => rw [prune]
  | conditional branches ih =>
    rw [prune]
    exact select_conditional_congr conditions conditions _ _ (reached_prune conditions branches ih)
  | fallback alternatives ih =>
    rw [prune, pruneAlternatives_eq]
    apply select_fallback_congr
    rw [List.map_map]
    exact List.map_congr_left ih

/-- No name is left but active ones. -/
theorem active_of_mem_prune (choice : Choice) (name : String)
    (h : name ∈ (prune conditions choice).names) : conditions.active name = true := by
  induction choice using nested_induction with
  | target path => simp [prune, names] at h
  | conditional branches ih =>
    rw [prune, names, mem_namesOfBranches, pruneBranches_eq] at h
    obtain ⟨_, hmem, hname⟩ := h
    obtain ⟨branch, hbranch, rfl⟩ := List.mem_map.mp hmem
    obtain ⟨hbranch, hactive⟩ := List.mem_filter.mp hbranch
    rcases hname with rfl | hname
    · exact hactive
    · exact ih branch hbranch hname
  | fallback alternatives ih =>
    rw [prune, names, mem_namesOfAlternatives, pruneAlternatives_eq] at h
    obtain ⟨_, hmem, hname⟩ := h
    obtain ⟨choice, hchoice, rfl⟩ := List.mem_map.mp hmem
    exact ih choice hchoice hname

end Choice

end EntryPoints
