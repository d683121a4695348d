import EntryPoints.Choice

/-!
# Values outside the grammar

Booleans and numbers declare no choice. A value that holds one anywhere is refused for the first
of them in the order of the text, whether or not a selection would ever come there. Every other
value declares a choice.
-/

set_option autoImplicit false

namespace EntryPoints

namespace Json

/-- Induction over values with a hypothesis for every item and every member. -/
theorem nested_induction {P : Json → Prop} (null : P .null) (boolean : ∀ b, P (.boolean b))
    (number : ∀ n, P (.number n)) (string : ∀ s, P (.string s))
    (array : ∀ items, (∀ v ∈ items, P v) → P (.array items))
    (object : ∀ members, (∀ member ∈ members, P member.2) → P (.object members)) :
    ∀ v, P v := by
  refine @Json.rec P (fun items => ∀ v ∈ items, P v) (fun members => ∀ member ∈ members, P member.2)
    (fun member => P member.2) null boolean number string array object ?_ ?_ ?_ ?_ ?_
  · simp
  · intro v items h hs
    exact List.forall_mem_cons.mpr ⟨h, hs⟩
  · simp
  · intro member members h hs
    exact List.forall_mem_cons.mpr ⟨h, hs⟩
  · exact fun _ _ h => h

mutual
/-- The values inside a value that hold no others, in the order of the text. -/
def scalars : Json → List Json
  | .null => [.null]
  | .boolean b => [.boolean b]
  | .number n => [.number n]
  | .string s => [.string s]
  | .array items => scalarsOfItems items
  | .object members => scalarsOfMembers members

def scalarsOfItems : List Json → List Json
  | [] => []
  | v :: rest => scalars v ++ scalarsOfItems rest

def scalarsOfMembers : List (String × Json) → List Json
  | [] => []
  | (_, v) :: rest => scalars v ++ scalarsOfMembers rest
end

def isForeign : Json → Bool
  | .boolean _ | .number _ => true
  | _ => false

/-- The first boolean or number in a value, at any depth. -/
def firstForeign? (v : Json) : Option Json := v.scalars.find? isForeign

theorem mem_scalarsOfMembers (members : List (String × Json)) (w : Json) :
    w ∈ scalarsOfMembers members ↔ ∃ member ∈ members, w ∈ member.2.scalars := by
  induction members with
  | nil => simp [scalarsOfMembers]
  | cons member rest ih => simp [scalarsOfMembers, ih]

theorem member_native (members : List (String × Json))
    (h : (object members).firstForeign? = none) (member : String × Json)
    (hmem : member ∈ members) : member.2.firstForeign? = none := by
  rw [firstForeign?, scalars, List.find?_eq_none] at h
  rw [firstForeign?, List.find?_eq_none]
  intro w hw
  exact h w ((mem_scalarsOfMembers members w).mpr ⟨member, hmem, hw⟩)

end Json

namespace Choice
open Json

/-- The outcome of reading values that hold these scalars. -/
def Read {α : Type} (scalars : List Json) (outcome : Except Error α) : Prop :=
  match scalars.find? isForeign with
  | some w => outcome = .error (.unsupportedExportsValue w.kind)
  | none => ∃ a, outcome = .ok a

theorem Read.map {α β : Type} {scalars : List Json} {outcome : Except Error α} (f : α → β)
    (h : Read scalars outcome) : Read scalars (outcome.map f) := by
  unfold Read at *
  cases hfind : scalars.find? isForeign with
  | some w =>
    simp only [hfind] at h ⊢
    rw [h, Except.map]
  | none =>
    simp only [hfind] at h ⊢
    obtain ⟨a, rfl⟩ := h
    exact ⟨f a, rfl⟩

theorem Read.append {α β γ : Type} {scalars rest : List Json} {first : Except Error α}
    {second : Except Error β} (f : α → β → γ) (h : Read scalars first) (hrest : Read rest second) :
    Read (scalars ++ rest) (first.bind fun a => second.map (f a)) := by
  unfold Read at *
  rw [List.find?_append]
  cases hfind : scalars.find? isForeign with
  | some w =>
    simp only [hfind, Option.some_or] at h ⊢
    rw [h, Except.bind]
  | none =>
    simp only [hfind, Option.none_or] at h ⊢
    obtain ⟨a, rfl⟩ := h
    exact Read.map (f a) hrest

theorem read_items (items : List Json) (h : ∀ v ∈ items, Read v.scalars (ofJson v)) :
    Read (scalarsOfItems items) (ofItems items) := by
  induction items with
  | nil => exact ⟨[], rfl⟩
  | cons v rest ih =>
    obtain ⟨hv, hrest⟩ := List.forall_mem_cons.mp h
    exact Read.append List.cons hv (ih hrest)

theorem read_members (members : List (String × Json))
    (h : ∀ member ∈ members, Read member.2.scalars (ofJson member.2)) :
    Read (scalarsOfMembers members) (ofMembers members) := by
  induction members with
  | nil => exact ⟨[], rfl⟩
  | cons member rest ih =>
    obtain ⟨hv, hrest⟩ := List.forall_mem_cons.mp h
    exact Read.append (fun choice branches => (member.1, choice) :: branches) hv (ih hrest)

theorem read_value (v : Json) : Read v.scalars (ofJson v) := by
  induction v using Json.nested_induction with
  | null => exact ⟨_, rfl⟩
  | boolean b => exact rfl
  | number n => exact rfl
  | string s => exact ⟨_, rfl⟩
  | array items ih => exact (read_items items ih).map Choice.fallback
  | object members ih => exact (read_members members ih).map Choice.conditional

theorem Read.foreign {α : Type} {scalars : List Json} {outcome : Except Error α} {w : Json}
    (h : Read scalars outcome) (hw : scalars.find? isForeign = some w) :
    outcome = .error (.unsupportedExportsValue w.kind) := by
  unfold Read at h
  rwa [hw] at h

theorem Read.native {α : Type} {scalars : List Json} {outcome : Except Error α}
    (h : Read scalars outcome) (hw : scalars.find? isForeign = none) : ∃ a, outcome = .ok a := by
  unfold Read at h
  rwa [hw] at h

theorem ofMembers_read (members : List (String × Json)) :
    Read (object members).scalars (ofMembers members) :=
  read_members members fun member _ => read_value member.2

end Choice

end EntryPoints
