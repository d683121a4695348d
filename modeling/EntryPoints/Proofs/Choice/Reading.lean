import EntryPoints.Proofs.Choice.Foreign
import EntryPoints.Proofs.Outcome

/-!
# Choices read from values

A value that declares a choice has the shape of the choice: items become alternatives in their
order, and members become branches, each under its own key. So the names that a choice mentions
are the keys of the value, at every depth and in the order of the text.
-/

set_option autoImplicit false

namespace EntryPoints

namespace Json

mutual
/-- The keys of the objects in a value, at any depth, in the order of the text. -/
def keys : Json → List String
  | .array items => keysOfItems items
  | .object members => keysOfMembers members
  | _ => []

def keysOfItems : List Json → List String
  | [] => []
  | v :: rest => keys v ++ keysOfItems rest

def keysOfMembers : List (String × Json) → List String
  | [] => []
  | (key, v) :: rest => key :: (keys v ++ keysOfMembers rest)
end

end Json

namespace Choice

mutual
/-- The condition names that a choice mentions, at any depth. -/
def names : Choice → List String
  | .target _ => []
  | .conditional branches => namesOfBranches branches
  | .fallback alternatives => namesOfAlternatives alternatives

def namesOfBranches : List (String × Choice) → List String
  | [] => []
  | (name, choice) :: rest => name :: (names choice ++ namesOfBranches rest)

def namesOfAlternatives : List Choice → List String
  | [] => []
  | choice :: rest => names choice ++ namesOfAlternatives rest
end

theorem mem_namesOfBranches (branches : List (String × Choice)) (name : String) :
    name ∈ namesOfBranches branches ↔
      ∃ branch ∈ branches, name = branch.1 ∨ name ∈ branch.2.names := by
  induction branches with
  | nil => simp [namesOfBranches]
  | cons branch rest ih => simp [namesOfBranches, ih, or_assoc]

theorem mem_namesOfAlternatives (alternatives : List Choice) (name : String) :
    name ∈ namesOfAlternatives alternatives ↔ ∃ choice ∈ alternatives, name ∈ choice.names := by
  induction alternatives with
  | nil => simp [namesOfAlternatives]
  | cons choice rest ih => simp [namesOfAlternatives, ih]

theorem ofItems_cons (v : Json) (rest : List Json) (alternatives : List Choice) :
    ofItems (v :: rest) = .ok alternatives ↔ ∃ choice others,
      ofJson v = .ok choice ∧ ofItems rest = .ok others ∧ alternatives = choice :: others := by
  rw [ofItems]
  cases ofJson v with
  | error e => simp [bind, Except.bind]
  | ok choice => cases ofItems rest <;> simp [bind, Except.bind, pure, Except.pure, eq_comm]

theorem ofMembers_cons (key : String) (v : Json) (rest : List (String × Json))
    (branches : List (String × Choice)) :
    ofMembers ((key, v) :: rest) = .ok branches ↔ ∃ choice others,
      ofJson v = .ok choice ∧ ofMembers rest = .ok others ∧
        branches = (key, choice) :: others := by
  rw [ofMembers]
  cases ofJson v with
  | error e => simp [bind, Except.bind]
  | ok choice => cases ofMembers rest <;> simp [bind, Except.bind, pure, Except.pure, eq_comm]

/-- The choices that a value, its items or its members declare mention the keys found there. -/
def NamesKeys (v : Json) : Prop := ∀ choice, ofJson v = .ok choice → choice.names = v.keys

theorem names_of_items (items : List Json) (h : ∀ v ∈ items, NamesKeys v)
    (alternatives : List Choice) (hread : ofItems items = .ok alternatives) :
    namesOfAlternatives alternatives = Json.keysOfItems items := by
  induction items generalizing alternatives with
  | nil =>
    cases hread
    rfl
  | cons v rest ih =>
    obtain ⟨hv, hrest⟩ := List.forall_mem_cons.mp h
    obtain ⟨choice, others, hchoice, hothers, rfl⟩ := (ofItems_cons v rest alternatives).mp hread
    rw [namesOfAlternatives, Json.keysOfItems, hv choice hchoice, ih hrest others hothers]

theorem names_of_members (members : List (String × Json))
    (h : ∀ member ∈ members, NamesKeys member.2) (branches : List (String × Choice))
    (hread : ofMembers members = .ok branches) :
    namesOfBranches branches = Json.keysOfMembers members := by
  induction members generalizing branches with
  | nil =>
    cases hread
    rfl
  | cons member rest ih =>
    obtain ⟨key, v⟩ := member
    obtain ⟨hv, hrest⟩ := List.forall_mem_cons.mp h
    obtain ⟨choice, others, hchoice, hothers, rfl⟩ := (ofMembers_cons key v rest branches).mp hread
    rw [namesOfBranches, Json.keysOfMembers, hv choice hchoice, ih hrest others hothers]

theorem names_of_value (v : Json) : NamesKeys v := by
  induction v using Json.nested_induction with
  | null | string s =>
    intro choice hread
    cases hread
    rfl
  | boolean b | number n =>
    intro choice hread
    cases hread
  | array items ih =>
    intro choice hread
    obtain ⟨alternatives, halternatives, rfl⟩ := (map_eq_ok _ _ _).mp hread
    exact names_of_items items ih alternatives halternatives
  | object members ih =>
    intro choice hread
    obtain ⟨branches, hbranches, rfl⟩ := (map_eq_ok _ _ _).mp hread
    exact names_of_members members ih branches hbranches

end Choice

end EntryPoints
