import EntryPoints.Declaration
import EntryPoints.Proofs.Choice.Reading
import EntryPoints.Proofs.Text

/-!
# Offers of a declaration

What each member of an object comes to decides what is offered: the first failure, or a row for
every member that is not unresolved. The rows are looked up in a table by their keys.
-/

set_option autoImplicit false

namespace EntryPoints.Declaration
variable (conditions : ConditionSet)

/-- What a value comes to under some conditions, as the choice that it declares. -/
def selected (v : Json) : Except Error Selection :=
  (Choice.ofJson v).bind (Choice.select conditions)

def offered? : Selection → Option Offer
  | .unresolved => none
  | .target path => some (.target path)
  | .withheld => some .withheld

theorem offered_target (selection : Selection) (path : String) :
    offered? selection = some (.target path) ↔ selection = .target path := by
  cases selection <;> simp [offered?]

theorem offered_withheld (selection : Selection) :
    offered? selection = some .withheld ↔ selection = .withheld := by
  cases selection <;> simp [offered?]

/-- A member with what it comes to. -/
abbrev Outcome := String × Except Error Selection

def outcomes (members : List (String × Json)) : List Outcome :=
  members.map fun member => (member.1, selected conditions member.2)

def Outcome.failure? (outcome : Outcome) : Option Error :=
  match outcome.2 with
  | .error e => some e
  | .ok _ => none

def Outcome.row? (outcome : Outcome) : Option (String × Offer) :=
  match outcome.2 with
  | .error _ => none
  | .ok selection => (offered? selection).map fun offer => (outcome.1, offer)

theorem failure_eq_some (outcome : Outcome) (e : Error) :
    outcome.failure? = some e ↔ outcome.2 = .error e := by
  unfold Outcome.failure?
  split <;> simp [*]

theorem failure_eq_none (outcome : Outcome) :
    outcome.failure? = none ↔ ∀ e, outcome.2 ≠ .error e := by
  unfold Outcome.failure?
  split <;> simp [*]

theorem row_eq_some (outcome : Outcome) (k : String) (offer : Offer) :
    outcome.row? = some (k, offer) ↔
      outcome.1 = k ∧ ∃ selection, outcome.2 = .ok selection ∧ offered? selection = some offer := by
  unfold Outcome.row?
  split
  · simp [*]
  · rename_i selection hselection
    simp only [hselection, Except.ok.injEq, exists_eq_left', Option.map_eq_some_iff, Prod.mk.injEq]
    constructor
    · rintro ⟨_, hoffer, hk, rfl⟩
      exact ⟨hk, hoffer⟩
    · rintro ⟨hk, hoffer⟩
      exact ⟨offer, hoffer, hk, rfl⟩

theorem rows_eq (entries : List (String × Choice)) (outcomes : List Outcome)
    (h : entries.map (fun entry => (entry.1, entry.2.select conditions)) = outcomes) :
    rows conditions entries =
      match outcomes.findSome? Outcome.failure? with
      | some e => .error e
      | none => .ok (outcomes.filterMap Outcome.row?) := by
  induction entries generalizing outcomes with
  | nil =>
    subst h
    rfl
  | cons entry rest ih =>
    obtain ⟨k, choice⟩ := entry
    subst h
    rw [rows, ih _ rfl, List.map_cons, List.findSome?_cons, List.filterMap_cons]
    cases hselect : choice.select conditions with
    | error e => rfl
    | ok selection =>
      simp only [Outcome.failure?, Outcome.row?, bind, Except.bind]
      cases List.findSome? Outcome.failure? _ <;> cases selection <;> rfl

theorem outcomes_of_members (members : List (String × Json)) (entries : List (String × Choice))
    (h : Choice.ofMembers members = .ok entries) :
    entries.map (fun entry => (entry.1, entry.2.select conditions)) =
      outcomes conditions members := by
  induction members generalizing entries with
  | nil =>
    cases h
    rfl
  | cons member rest ih =>
    obtain ⟨k, v⟩ := member
    obtain ⟨choice, branches, hv, hrest, rfl⟩ := (Choice.ofMembers_cons k v rest entries).mp h
    simp only [List.map_cons, outcomes, selected, hv, Except.bind]
    exact congrArg _ (ih branches hrest)

theorem offers_subpaths (members : List (String × Json)) (entries : List (String × Choice))
    (h : Choice.ofMembers members = .ok entries) :
    offers conditions (.subpaths entries) =
      match (outcomes conditions members).findSome? Outcome.failure? with
      | some e => .error e
      | none => .ok (.ofRows ((outcomes conditions members).filterMap Outcome.row?)) := by
  rw [offers, rows_eq conditions entries _ (outcomes_of_members conditions members entries h)]
  cases List.findSome? Outcome.failure? _ <;> rfl

theorem no_failure_of_members (members : List (String × Json)) :
    (outcomes conditions members).findSome? Outcome.failure? = none ↔
      ∀ member ∈ members, ∀ e, selected conditions member.2 ≠ .error e := by
  rw [outcomes, List.findSome?_map, List.findSome?_eq_none_iff]
  exact forall₂_congr fun member _ => failure_eq_none _

theorem failure_of_members (members : List (String × Json)) (e : Error) :
    (outcomes conditions members).findSome? Outcome.failure? = some e ↔
      ∃ before k v after, members = before ++ (k, v) :: after ∧ selected conditions v = .error e ∧
        ∀ member ∈ before, ∀ e, selected conditions member.2 ≠ .error e := by
  rw [outcomes, List.findSome?_map, List.findSome?_eq_some_iff]
  simp only [Function.comp_apply, failure_eq_some, failure_eq_none, Prod.exists]

/-- A row stands for the member under its key, provided there is one member under each key. -/
theorem rows_of_members (members : List (String × Json)) (hkeys : (members.map Prod.fst).Nodup)
    (k : String) (offer : Offer) :
    (Table.ofRows ((outcomes conditions members).filterMap Outcome.row?))[k]? = some offer ↔
      ∃ v selection, (k, v) ∈ members ∧ selected conditions v = .ok selection ∧
        offered? selection = some offer := by
  have hdistinct : ((outcomes conditions members).filterMap Outcome.row?).Pairwise
      fun a b => Text.byteOrder a.1 b.1 ≠ .eq := by
    rw [outcomes, List.filterMap_map]
    apply List.Pairwise.filterMap _ _ (List.pairwise_map.mp hkeys)
    rintro member other hne ⟨k, offer⟩ hrow ⟨k', offer'⟩ hrow' heq
    obtain ⟨rfl, -⟩ := (row_eq_some _ k offer).mp hrow
    obtain ⟨rfl, -⟩ := (row_eq_some _ k' offer').mp hrow'
    exact hne (Std.LawfulEqCmp.eq_of_compare heq)
  rw [Table.ofRows, Table.get_ofList Text.byteOrder _ hdistinct, outcomes, List.filterMap_map,
    List.mem_filterMap]
  simp only [Function.comp_apply, row_eq_some, Prod.exists]
  constructor
  · rintro ⟨_, v, hmem, rfl, selection, hselected, hoffer⟩
    exact ⟨v, selection, hmem, hselected, hoffer⟩
  · rintro ⟨v, selection, hmem, hselected, hoffer⟩
    exact ⟨k, v, hmem, rfl, selection, hselected, hoffer⟩

theorem target_of_members (members : List (String × Json)) (hkeys : (members.map Prod.fst).Nodup)
    (k target : String) :
    (Table.ofRows ((outcomes conditions members).filterMap Outcome.row?))[k]? =
        some (.target target) ↔
      ∃ v, (k, v) ∈ members ∧ selected conditions v = .ok (.target target) := by
  rw [rows_of_members conditions members hkeys]
  simp [offered_target]

theorem withheld_of_members (members : List (String × Json))
    (hkeys : (members.map Prod.fst).Nodup) (k : String) :
    (Table.ofRows ((outcomes conditions members).filterMap Outcome.row?))[k]? = some .withheld ↔
      ∃ v, (k, v) ∈ members ∧ selected conditions v = .ok .withheld := by
  rw [rows_of_members conditions members hkeys]
  simp [offered_withheld]

end EntryPoints.Declaration
