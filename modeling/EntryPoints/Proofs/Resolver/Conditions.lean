import EntryPoints.FileSet
import EntryPoints.Proofs.Choice.Mentioned
import EntryPoints.Proofs.Declaration
import EntryPoints.Resolver

/-!
# The conditions of a request

A resolution asks its conditions only about the names that the declaration mentions. Two requests
that agree on the keys of the value have the same outcome, errors included, however long their
lists are and however they are ordered.
-/

set_option autoImplicit false

namespace EntryPoints

theorem ConditionSet.active_ofNames (names : List String) (name : String) :
    (ofNames names).active name = true ↔ name ∈ names := by
  rw [active, ofNames, Std.ExtTreeSet.contains_ofList, List.contains_iff_mem]

theorem ConditionSet.agreeOn_ofNames (names others keys : List String)
    (h : ∀ key ∈ keys, key ∈ names ↔ key ∈ others) :
    (ofNames names).AgreeOn (ofNames others) keys := by
  intro key hkey
  rw [Bool.eq_iff_iff, active_ofNames, active_ofNames]
  exact h key hkey

namespace Declaration

/-- The names that a declaration mentions, its subpaths among them. -/
def names : Declaration → List String
  | .main choice => choice.names
  | .subpaths entries => Choice.namesOfBranches entries

theorem names_of_ofJson (v : Json) (declaration : Declaration) (h : ofJson v = .ok declaration) :
    declaration.names = v.keys := by
  unfold ofJson at h
  split at h
  · rename_i members
    split at h
    · obtain ⟨entries, hentries, rfl⟩ := (map_eq_ok _ _ _).mp h
      exact Choice.names_of_members members (fun member _ => Choice.names_of_value member.2)
        entries hentries
    · obtain ⟨choice, hchoice, rfl⟩ := (map_eq_ok _ _ _).mp h
      exact Choice.names_of_value _ choice hchoice
  · obtain ⟨choice, hchoice, rfl⟩ := (map_eq_ok _ _ _).mp h
    exact Choice.names_of_value _ choice hchoice

variable (conditions others : ConditionSet)

theorem rows_agree (entries : List (String × Choice))
    (h : ∀ entry ∈ entries, entry.2.select conditions = entry.2.select others) :
    rows conditions entries = rows others entries := by
  have houtcomes : entries.map (fun entry => (entry.1, entry.2.select conditions)) =
      entries.map fun entry => (entry.1, entry.2.select others) := by
    apply List.map_congr_left
    intro entry hentry
    rw [h entry hentry]
  rw [rows_eq conditions entries _ houtcomes, rows_eq others entries _ rfl]

theorem offers_agree (declaration : Declaration)
    (h : conditions.AgreeOn others declaration.names) :
    declaration.offers conditions = declaration.offers others := by
  cases declaration with
  | main choice => rw [offers, offers, Choice.select_agree conditions others choice h]
  | subpaths entries =>
    rw [offers, offers, rows_agree conditions others entries]
    intro entry hentry
    apply Choice.select_agree
    intro name hname
    exact h name ((Choice.mem_namesOfBranches entries name).mpr ⟨entry, hentry, Or.inr hname⟩)

end Declaration

namespace Resolver

theorem flatten_agree (resolver : Resolver) (v : Json) (request other : Request) (view : FileView)
    (hroot : request.root? = other.root?)
    (h : (resolver.conditionsFor request).AgreeOn (resolver.conditionsFor other) v.keys) :
    resolver.flatten v request view = resolver.flatten v other view := by
  have hoffers : resolver.offers v request = resolver.offers v other := by
    unfold offers
    split
    · rfl
    · apply bind_congr
      intro _
      cases hread : Declaration.ofJson v with
      | error e => rfl
      | ok declaration =>
        rw [← Declaration.names_of_ofJson v declaration hread] at h
        exact Declaration.offers_agree _ _ declaration h
  rw [flatten, flatten, hoffers, hroot]

theorem conditionsFor_names (resolver : Resolver) (names : List String) (root? : Option Path)
    (h : names ≠ []) : resolver.conditionsFor ⟨names, root?⟩ = .ofNames names := by
  rw [conditionsFor, if_neg (by simpa using h)]

/-- Two lists of conditions with the same names among the keys of the value give the same outcome.
No conditions are those of the resolver, and inactive branches, cut away at every depth, leave the
selection from any choice as it was. -/
theorem flatten_mentioned (resolver : Resolver) (v : Json) (root? : Option Path)
    (view : FileView) :
    (∀ names others : List String, names ≠ [] → others ≠ [] →
      (∀ key ∈ v.keys, key ∈ names ↔ key ∈ others) →
        resolver.flatten v ⟨names, root?⟩ view = resolver.flatten v ⟨others, root?⟩ view) ∧
    resolver.flatten v ⟨[], root?⟩ view = resolver.flatten v ⟨resolver.conditions, root?⟩ view ∧
    ∀ (conditions : ConditionSet) (choice : Choice),
      (∀ name ∈ (choice.prune conditions).names, conditions.active name = true) ∧
        (choice.prune conditions).select conditions = choice.select conditions := by
  refine ⟨fun names others hnames hothers h => ?_, ?_, fun conditions choice => ⟨?_, ?_⟩⟩
  · apply flatten_agree
    · rfl
    · rw [conditionsFor_names resolver names root? hnames,
        conditionsFor_names resolver others root? hothers]
      exact ConditionSet.agreeOn_ofNames names others v.keys h
  · have hconditions : resolver.conditionsFor ⟨[], root?⟩ =
        resolver.conditionsFor ⟨resolver.conditions, root?⟩ := by
      simp [conditionsFor]
    apply flatten_agree
    · rfl
    · rw [hconditions]
      exact fun _ _ => rfl
  · exact Choice.active_of_mem_prune conditions choice
  · exact Choice.select_prune conditions choice

/-- A branch that no request below reaches, and a list whose first alternative fails. -/
def conditioned : Json := .object [("./a", .object [("browser", .string "b.js"),
  ("node", .array [.string "lodash", .object [("import", .string "./a.mjs")]])])]

theorem flatten_mentioned_reordered :
    (flatten {} conditioned ⟨["import", "node"], none⟩ FileSet.empty.view).toOption.map
        (fun flat => flat.toList) = some [("./a", "./a.mjs")] ∧
      flatten {} conditioned ⟨["node", "deno", "import", "node"], none⟩ FileSet.empty.view =
        flatten {} conditioned ⟨["import", "node"], none⟩ FileSet.empty.view := by
  refine ⟨by decide +kernel, ?_⟩
  exact (flatten_mentioned {} conditioned none _).1 _ _ (by decide) (by decide) (by decide)

end Resolver

end EntryPoints
