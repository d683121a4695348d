import EntryPoints.Proofs.Choice.Reading
import EntryPoints.Proofs.Choice.Select

/-!
# Choices written back

A choice that is written down as a value and read again is the same choice. A value that is read
and written back is the same value but for `null`, which has become `[]`: every member and every
item is there, in its place and under its key. So reading tells any two values of the grammar apart
that differ in more than this.
-/

set_option autoImplicit false

namespace EntryPoints

namespace Json

mutual
/-- The value with `[]` in the place of every `null` in it, at any depth. -/
def nullless : Json → Json
  | .null => .array []
  | .boolean b => .boolean b
  | .number n => .number n
  | .string s => .string s
  | .array items => .array (nulllessItems items)
  | .object members => .object (nulllessMembers members)

def nulllessItems : List Json → List Json
  | [] => []
  | v :: rest => nullless v :: nulllessItems rest

def nulllessMembers : List (String × Json) → List (String × Json)
  | [] => []
  | (key, v) :: rest => (key, nullless v) :: nulllessMembers rest
end

/-- No boolean and no number is in the value, at any depth. -/
def Native (v : Json) : Prop := ∀ w ∈ v.scalars, w.isForeign = false

end Json

namespace Choice

theorem ofItems_toItems (alternatives : List Choice)
    (h : ∀ choice ∈ alternatives, ofJson choice.toJson = .ok choice) :
    ofItems (toItems alternatives) = .ok alternatives := by
  induction alternatives with
  | nil => rfl
  | cons choice rest ih =>
    obtain ⟨hchoice, hrest⟩ := List.forall_mem_cons.mp h
    exact (ofItems_cons _ _ _).mpr ⟨choice, rest, hchoice, ih hrest, rfl⟩

theorem ofMembers_toMembers (branches : List (String × Choice))
    (h : ∀ branch ∈ branches, ofJson branch.2.toJson = .ok branch.2) :
    ofMembers (toMembers branches) = .ok branches := by
  induction branches with
  | nil => rfl
  | cons branch rest ih =>
    obtain ⟨name, choice⟩ := branch
    obtain ⟨hchoice, hrest⟩ := List.forall_mem_cons.mp h
    exact (ofMembers_cons _ _ _ _).mpr ⟨choice, rest, hchoice, ih hrest, rfl⟩

/-- What a choice is written as declares it. -/
theorem ofJson_toJson (choice : Choice) : ofJson choice.toJson = .ok choice := by
  induction choice using nested_induction with
  | target path => rfl
  | conditional branches ih =>
    exact (map_eq_ok _ _ _).mpr ⟨branches, ofMembers_toMembers branches ih, rfl⟩
  | fallback alternatives ih =>
    exact (map_eq_ok _ _ _).mpr ⟨alternatives, ofItems_toItems alternatives ih, rfl⟩

theorem toJson_inj (choice other : Choice) (h : choice.toJson = other.toJson) : choice = other := by
  have hread := ofJson_toJson choice
  rw [h, ofJson_toJson other] at hread
  exact (Except.ok.inj hread).symm

/-- The choices that a value declares are written as the value without its nulls. -/
def WrittenBack (v : Json) : Prop := ∀ choice, ofJson v = .ok choice → choice.toJson = v.nullless

theorem toItems_ofItems (items : List Json) (h : ∀ v ∈ items, WrittenBack v)
    (alternatives : List Choice) (hread : ofItems items = .ok alternatives) :
    toItems alternatives = Json.nulllessItems items := by
  induction items generalizing alternatives with
  | nil =>
    cases hread
    rfl
  | cons v rest ih =>
    obtain ⟨hv, hrest⟩ := List.forall_mem_cons.mp h
    obtain ⟨choice, others, hchoice, hothers, rfl⟩ := (ofItems_cons v rest alternatives).mp hread
    rw [toItems, Json.nulllessItems, hv choice hchoice, ih hrest others hothers]

theorem toMembers_ofMembers (members : List (String × Json))
    (h : ∀ member ∈ members, WrittenBack member.2) (branches : List (String × Choice))
    (hread : ofMembers members = .ok branches) :
    toMembers branches = Json.nulllessMembers members := by
  induction members generalizing branches with
  | nil =>
    cases hread
    rfl
  | cons member rest ih =>
    obtain ⟨key, v⟩ := member
    obtain ⟨hv, hrest⟩ := List.forall_mem_cons.mp h
    obtain ⟨choice, others, hchoice, hothers, rfl⟩ := (ofMembers_cons key v rest branches).mp hread
    rw [toMembers, Json.nulllessMembers, hv choice hchoice, ih hrest others hothers]

theorem toJson_ofJson (v : Json) : WrittenBack v := by
  induction v using Json.nested_induction with
  | null | string s =>
    intro choice hread
    cases hread
    rfl
  | boolean b | number n =>
    intro choice hread
    cases hread
  | array items ih =>
    intro choice hread
    obtain ⟨alternatives, halternatives, rfl⟩ := (map_eq_ok _ _ _).mp hread
    rw [toJson, Json.nullless, toItems_ofItems items ih alternatives halternatives]
  | object members ih =>
    intro choice hread
    obtain ⟨branches, hbranches, rfl⟩ := (map_eq_ok _ _ _).mp hread
    rw [toJson, Json.nullless, toMembers_ofMembers members ih branches hbranches]

theorem ofItems_nullless (items : List Json)
    (h : ∀ v ∈ items, ofJson v.nullless = ofJson v) :
    ofItems (Json.nulllessItems items) = ofItems items := by
  induction items with
  | nil => rfl
  | cons v rest ih =>
    obtain ⟨hv, hrest⟩ := List.forall_mem_cons.mp h
    rw [Json.nulllessItems, ofItems, ofItems, hv, ih hrest]

theorem ofMembers_nullless (members : List (String × Json))
    (h : ∀ member ∈ members, ofJson member.2.nullless = ofJson member.2) :
    ofMembers (Json.nulllessMembers members) = ofMembers members := by
  induction members with
  | nil => rfl
  | cons member rest ih =>
    obtain ⟨key, v⟩ := member
    obtain ⟨hv, hrest⟩ := List.forall_mem_cons.mp h
    rw [Json.nulllessMembers, ofMembers, ofMembers, hv, ih hrest]

/-- Nothing is read from `null` that is not read from `[]`. -/
theorem ofJson_nullless (v : Json) : ofJson v.nullless = ofJson v := by
  induction v using Json.nested_induction with
  | null | boolean b | number n | string s => rfl
  | array items ih => rw [Json.nullless, ofJson, ofJson, ofItems_nullless items ih]
  | object members ih => rw [Json.nullless, ofJson, ofJson, ofMembers_nullless members ih]

theorem ofJson_native (v : Json) : (∃ choice, ofJson v = .ok choice) ↔ v.Native := by
  have hnative : v.Native ↔ v.firstForeign? = none := by
    simp [Json.Native, Json.firstForeign?]
  rw [hnative]
  constructor
  · rintro ⟨choice, hchoice⟩
    rw [Option.eq_none_iff_forall_ne_some]
    intro w hw
    rw [(read_value v).foreign hw] at hchoice
    simp at hchoice
  · exact (read_value v).native

theorem ofJson_foreign (v : Json) (e : Error) : ofJson v = .error e ↔
    ∃ w, v.firstForeign? = some w ∧ e = .unsupportedExportsValue w.kind := by
  constructor
  · intro h
    cases hforeign : v.firstForeign? with
    | some w =>
      rw [(read_value v).foreign hforeign] at h
      exact ⟨w, rfl, (Except.error.inj h).symm⟩
    | none =>
      obtain ⟨choice, hchoice⟩ := (read_value v).native hforeign
      rw [hchoice] at h
      simp at h
  · rintro ⟨w, hw, rfl⟩
    exact (read_value v).foreign hw

theorem ofJson_eq_ok_iff (v : Json) (choice : Choice) :
    ofJson v = .ok choice ↔ v.Native ∧ choice.toJson = v.nullless := by
  rw [← ofJson_native v]
  constructor
  · intro h
    exact ⟨⟨choice, h⟩, toJson_ofJson v choice h⟩
  · rintro ⟨⟨read, hread⟩, hwritten⟩
    rw [hread, toJson_inj read choice ((toJson_ofJson v read hread).trans hwritten.symm)]

theorem same_choice_iff (v other : Json) :
    (∃ choice, ofJson v = .ok choice ∧ ofJson other = .ok choice) ↔
      v.Native ∧ v.nullless = other.nullless := by
  constructor
  · rintro ⟨choice, hchoice, hother⟩
    rw [← toJson_ofJson v choice hchoice, ← toJson_ofJson other choice hother]
    exact ⟨(ofJson_native v).mp ⟨choice, hchoice⟩, rfl⟩
  · rintro ⟨hnative, hsame⟩
    obtain ⟨choice, hchoice⟩ := (ofJson_native v).mpr hnative
    have hother : ofJson other = ofJson v := by
      rw [← ofJson_nullless other, ← hsame, ofJson_nullless v]
    exact ⟨choice, hchoice, hother.trans hchoice⟩

/-- Nulls at two depths, a repeated string and members in an order of their own. -/
example : ofJson (.object [("require", .array [.null, .string "./a.js"]), ("import", .null),
      ("default", .string "./a.js")]) =
    .ok (.conditional [("require", .fallback [.fallback [], .target "./a.js"]),
      ("import", .fallback []), ("default", .target "./a.js")]) := rfl

end Choice

end EntryPoints
