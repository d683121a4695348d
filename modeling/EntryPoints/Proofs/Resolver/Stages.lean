import EntryPoints.Proofs.Choice.Route
import EntryPoints.Proofs.Declaration
import EntryPoints.Resolver

/-!
# Stages of a resolution

A value is looked at for its shape, then for values outside the grammar, then for what its choices
come to. What each stage finds is told by the value alone, without running the stage.
-/

set_option autoImplicit false

namespace EntryPoints

/-- An object that has no two members under one key. -/
def Json.NamesOnce (v : Json) : Prop :=
  ∀ members, v = .object members → (members.map Prod.fst).Nodup

namespace Resolver
open Declaration

/-- `null` and the empty string. -/
def Absent (v : Json) : Prop := v = .null ∨ v = .string ""

/-- The empty object and the empty array. -/
def Bare (v : Json) : Prop := v = .object [] ∨ v = .array []

/-- An object with keys of both sorts. The key is the first that is no subpath. -/
def Mixed (v : Json) (key : String) : Prop :=
  ∃ before value after, v = .object (before ++ (key, value) :: after) ∧ isSubpath key = false ∧
    (∀ member ∈ before, isSubpath member.1 = true) ∧
    ∃ member ∈ before ++ after, isSubpath member.1 = true

/-- No key is a subpath, so the value is the choice of the package itself. -/
def Whole (v : Json) : Prop :=
  ∀ members, v = .object members → ∀ member ∈ members, isSubpath member.1 = false

/-- The value is an object of these members, and every key is a subpath. -/
structure Listed (v : Json) (members : List (String × Json)) : Prop where
  object : v = .object members
  subpaths : ∀ member ∈ members, isSubpath member.1 = true

/-- The value passes as a declaration by its shape. -/
structure Shaped (v : Json) : Prop where
  present : ¬Absent v
  filled : ¬Bare v
  uniform : ∀ key, ¬Mixed v key

theorem isUndefined_iff (v : Json) : isUndefined v = true ↔ Absent v := by
  cases v <;> simp [isUndefined, Absent]

theorem check_bare (v : Json) (h : Bare v) : Declaration.check v = .error .emptyExports := by
  rcases h with rfl | rfl <;> rfl

theorem check_object (members : List (String × Json)) (h : members ≠ []) :
    Declaration.check (.object members) =
      if members.any fun member => isSubpath member.1 then
        match members.find? fun member => !isSubpath member.1 with
        | some member => .error (.mixedKeyFormat member.1)
        | none => .ok ()
      else .ok () := by
  cases members with
  | nil => exact absurd rfl h
  | cons member rest =>
    rw [Declaration.check]
    · split
      · cases List.find? _ (member :: rest) <;> rfl
      · rfl
    · simp

theorem check_mixed (v : Json) (key : String) (h : Mixed v key) :
    Declaration.check v = .error (.mixedKeyFormat key) := by
  obtain ⟨before, value, after, rfl, hkey, hbefore, member, hmember, hsubpath⟩ := h
  have hany : (before ++ (key, value) :: after).any (fun member => isSubpath member.1) = true := by
    rw [List.any_eq_true]
    refine ⟨member, ?_, hsubpath⟩
    rw [List.mem_append] at hmember ⊢
    exact hmember.imp_right (List.mem_cons_of_mem _)
  have hfind : (before ++ (key, value) :: after).find? (fun member => !isSubpath member.1) =
      some (key, value) := by
    rw [List.find?_eq_some_iff_append]
    exact ⟨by simp [hkey], before, after, rfl, fun m hm => by simp [hbefore m hm]⟩
  rw [check_object _ (by simp), if_pos hany, hfind]

theorem whole_or_listed (v : Json) (h : ∀ key, ¬Mixed v key) :
    Whole v ∨ ∃ members, Listed v members := by
  by_cases hobject : ∃ members, v = .object members
  · obtain ⟨members, rfl⟩ := hobject
    cases hfind : members.find? fun member => !isSubpath member.1 with
    | none =>
      right
      refine ⟨members, rfl, fun member hmember => ?_⟩
      simpa using List.find?_eq_none.mp hfind member hmember
    | some member =>
      left
      obtain ⟨hkey, before, after, rfl, hbefore⟩ := List.find?_eq_some_iff_append.mp hfind
      intro _ hmembers other hother
      cases hmembers
      by_contra hsubpath
      apply h member.1
      refine ⟨before, member.2, after, rfl, by simpa using hkey,
        fun m hm => by simpa using hbefore m hm, other, ?_, by simpa using hsubpath⟩
      rcases List.mem_append.mp hother with hmem | hmem
      · exact List.mem_append_left _ hmem
      · rcases List.mem_cons.mp hmem with rfl | hmem
        · exact absurd (by simpa using hkey) hsubpath
        · exact List.mem_append_right _ hmem
  · left
    intro members hmembers
    exact absurd ⟨members, hmembers⟩ hobject

theorem listed_shaped (v : Json) (members : List (String × Json)) (h : Listed v members)
    (hne : members ≠ []) : Shaped v := by
  obtain ⟨rfl, hsubpaths⟩ := h
  refine ⟨?_, ?_, ?_⟩
  · simp [Absent]
  · simp [Bare, hne]
  · rintro key ⟨before, value, after, hobject, hkey, -⟩
    cases hobject
    have hsubpath := hsubpaths (key, value) (by simp)
    rw [hkey] at hsubpath
    exact absurd hsubpath (by simp)

theorem check_uniform (members : List (String × Json)) (hne : members ≠ [])
    (h : Whole (.object members) ∨ ∃ listed, Listed (.object members) listed) :
    Declaration.check (.object members) = .ok () := by
  rw [check_object members hne]
  rcases h with hwhole | ⟨_, ⟨⟩, hsubpaths⟩
  · rw [if_neg]
    rw [List.any_eq_true]
    rintro ⟨member, hmember, hsubpath⟩
    rw [hwhole members rfl member hmember] at hsubpath
    exact absurd hsubpath (by simp)
  · have hfind : members.find? (fun member => !isSubpath member.1) = none := by
      rw [List.find?_eq_none]
      intro member hmember
      simp [hsubpaths member hmember]
    rw [hfind]
    split <;> rfl

theorem check_shaped (v : Json) (h : Shaped v) : Declaration.check v = .ok () := by
  cases v with
  | null => exact absurd (Or.inl rfl) h.present
  | boolean b => rfl
  | number n => rfl
  | string s => rfl
  | array items =>
    cases items with
    | nil => exact absurd (Or.inr rfl) h.filled
    | cons item rest => rfl
  | object members =>
    apply check_uniform members _ (whole_or_listed _ h.uniform)
    rintro rfl
    exact h.filled (Or.inl rfl)

theorem ofJson_whole (v : Json) (h : Whole v) :
    Declaration.ofJson v = (Choice.ofJson v).map .main := by
  unfold Declaration.ofJson
  split
  · rename_i members
    rw [if_neg]
    intro hlists
    simp only [listsSubpaths, Bool.and_eq_true, Bool.not_eq_true', List.isEmpty_eq_false_iff,
      List.all_eq_true] at hlists
    obtain ⟨hne, hall⟩ := hlists
    obtain ⟨member, hmember⟩ := List.exists_mem_of_ne_nil members hne
    have hsubpath := hall member hmember
    rw [h members rfl member hmember] at hsubpath
    exact absurd hsubpath (by simp)
  · rfl

theorem ofJson_listed (v : Json) (members : List (String × Json)) (h : Listed v members)
    (hfilled : ¬Bare v) : Declaration.ofJson v = (Choice.ofMembers members).map .subpaths := by
  obtain ⟨rfl, hsubpaths⟩ := h
  have hne : members ≠ [] := by
    rintro rfl
    exact hfilled (Or.inl rfl)
  have hlists : listsSubpaths (.object members) = true := by
    simp only [listsSubpaths, Bool.and_eq_true, Bool.not_eq_true', List.isEmpty_eq_false_iff,
      List.all_eq_true]
    exact ⟨hne, hsubpaths⟩
  rw [Declaration.ofJson, if_pos hlists]

theorem ofJson_foreign (v w : Json) (hshape : Shaped v) (hforeign : v.firstForeign? = some w) :
    Declaration.ofJson v = .error (.unsupportedExportsValue w.kind) := by
  rcases whole_or_listed v hshape.uniform with hwhole | ⟨members, hlisted⟩
  · rw [ofJson_whole v hwhole, (Choice.read_value v).foreign hforeign, Except.map]
  · rw [hlisted.object] at hforeign
    rw [ofJson_listed v members hlisted hshape.filled,
      (Choice.ofMembers_read members).foreign hforeign, Except.map]

/-- Of a value that is shaped as a declaration, the declaration decides what is offered. -/
theorem offers_shaped (resolver : Resolver) (v : Json) (request : Request) (h : Shaped v) :
    resolver.offers v request = (Declaration.ofJson v).bind
      (Declaration.offers (resolver.conditionsFor request)) := by
  have hundefined : ¬isUndefined v = true := fun hv => h.present ((isUndefined_iff v).mp hv)
  rw [offers, if_neg hundefined, check_shaped v h]
  rfl

variable (conditions : ConditionSet)

theorem selected_error (v : Json) (e : Error) (h : v.firstForeign? = none)
    (hselected : selected conditions v = .error e) : ∃ target, e = .invalidTarget target := by
  obtain ⟨choice, hchoice⟩ := (Choice.read_value v).native h
  rw [selected, hchoice] at hselected
  obtain ⟨target, he, -⟩ := (Choice.select_error_route conditions choice e).mp hselected
  exact ⟨target, he⟩

theorem offers_whole (v : Json) (hnative : v.firstForeign? = none) (hwhole : Whole v) :
    (Declaration.ofJson v).bind (Declaration.offers conditions) =
      (selected conditions v).map fun selection =>
        match selection with
        | .target path => .ofRows [(".", .target path)]
        | _ => ∅ := by
  obtain ⟨choice, hchoice⟩ := (Choice.read_value v).native hnative
  rw [ofJson_whole v hwhole, selected, hchoice]
  show Declaration.offers conditions (.main choice) = (choice.select conditions).map _
  rw [Declaration.offers]
  cases choice.select conditions with
  | error e => rfl
  | ok selection => cases selection <;> rfl

theorem offers_listed (v : Json) (members : List (String × Json)) (hlisted : Listed v members)
    (hfilled : ¬Bare v) (hnative : v.firstForeign? = none) :
    (Declaration.ofJson v).bind (Declaration.offers conditions) =
      match (outcomes conditions members).findSome? Outcome.failure? with
      | some e => .error e
      | none => .ok (.ofRows ((outcomes conditions members).filterMap Outcome.row?)) := by
  rw [ofJson_listed v members hlisted hfilled]
  obtain ⟨rfl, -⟩ := hlisted
  obtain ⟨entries, hentries⟩ := (Choice.ofMembers_read members).native hnative
  rw [hentries]
  exact offers_subpaths conditions members entries hentries

end Resolver

end EntryPoints
