import EntryPoints.FileSet
import EntryPoints.Proofs.Expansion.Literal
import EntryPoints.Proofs.Resolver.Stages

/-!
# The choice of the package itself

A value without subpaths is the choice of the package. It resolves like the object that declares it
under `.`, though the two are told apart by the keys and a withheld choice is dropped in the one
form and offered in the other.
-/

set_option autoImplicit false

namespace EntryPoints.Resolver
open Declaration Expansion

def longhand (v : Json) : Json := .object [(".", v)]

theorem longhand_listed (v : Json) : Listed (longhand v) [(".", v)] :=
  ⟨rfl, List.forall_mem_singleton.mpr (show isSubpath "." = true by decide)⟩

theorem longhand_shaped (v : Json) : Shaped (longhand v) :=
  listed_shaped _ _ (longhand_listed v) (by simp)

theorem longhand_foreign (v : Json) : (longhand v).firstForeign? = v.firstForeign? := by
  simp [longhand, Json.firstForeign?, Json.scalars, Json.scalarsOfMembers]

theorem whole_shaped (v : Json) (hpresent : ¬Absent v) (hfilled : ¬Bare v) (hwhole : Whole v) :
    Shaped v := by
  refine ⟨hpresent, hfilled, ?_⟩
  rintro key ⟨before, value, after, rfl, -, -, member, hmember, hsubpath⟩
  have hmem : member ∈ before ++ (key, value) :: after := by
    rw [List.mem_append] at hmember ⊢
    exact hmember.imp_right (List.mem_cons_of_mem _)
  rw [hwhole _ rfl member hmem] at hsubpath
  exact absurd hsubpath (by simp)

theorem offers_longhand (conditions : ConditionSet) (v : Json) (h : v.firstForeign? = none) :
    (Declaration.ofJson (longhand v)).bind (Declaration.offers conditions) =
      (selected conditions v).map fun selection =>
        .ofRows ((offered? selection).toList.map fun offer => (".", offer)) := by
  rw [offers_listed conditions _ _ (longhand_listed v) (longhand_shaped v).filled
    ((longhand_foreign v).trans h)]
  simp only [outcomes, List.map_cons, List.map_nil]
  cases selected conditions v with
  | error e => rfl
  | ok selection => cases selection <;> rfl

theorem expand_empty (root? : Option Path) (view : FileView) : expand ∅ root? view = .ok ∅ :=
  expand_nothing ∅ (fun k offer h => by simp at h) (fun k t h => by simp at h) root? view

theorem expand_withheld_dot (root? : Option Path) (view : FileView) :
    expand (.ofRows [(".", .withheld)]) root? view = .ok ∅ := by
  have hrow : ∀ (k : String) (offer : Offer),
      (Table.ofRows [(".", Offer.withheld)])[k]? = some offer → k = "." ∧ offer = .withheld := by
    intro k offer h
    simpa using Table.mem_of_ofRows _ k offer h
  apply expand_nothing
  · intro k offer h
    rw [(hrow k offer h).1]
    decide
  · intro k t h
    exact absurd (hrow k _ h).2 (by simp)

/-- A value without subpaths comes to the same as the object that declares it under `.`. -/
theorem flatten_longhand (resolver : Resolver) (v : Json) (request : Request) (view : FileView)
    (hpresent : ¬Absent v) (hfilled : ¬Bare v) (hwhole : Whole v) :
    resolver.flatten v request view = resolver.flatten (longhand v) request view := by
  have hshape := whole_shaped v hpresent hfilled hwhole
  rw [flatten, flatten, offers_shaped resolver v request hshape,
    offers_shaped resolver _ request (longhand_shaped v)]
  cases hforeign : v.firstForeign? with
  | some w =>
    rw [ofJson_foreign v w hshape hforeign, ofJson_foreign (longhand v) w (longhand_shaped v)
      ((longhand_foreign v).trans hforeign)]
  | none =>
    rw [offers_whole _ v hforeign hwhole, offers_longhand _ v hforeign]
    cases selected (resolver.conditionsFor request) v with
    | error e => rfl
    | ok selection =>
      cases selection with
      | unresolved => rfl
      | target path => rfl
      | withheld =>
        exact (expand_empty request.root? view).trans
          (expand_withheld_dot request.root? view).symm

/-- A choice that is withheld under one of its conditions. -/
def guarded : Json :=
  .object [("browser", .array []), ("default", .array [.null, .string "./index.js"])]

theorem flatten_longhand_guarded :
    (flatten {} guarded ⟨["browser", "default"], some (.ofText "/pkg")⟩
        FileSet.empty.view).toOption.map (fun flat => flat.toList) = some [] ∧
      flatten {} guarded ⟨["browser", "default"], some (.ofText "/pkg")⟩ FileSet.empty.view =
        flatten {} (longhand guarded) ⟨["browser", "default"], some (.ofText "/pkg")⟩
          FileSet.empty.view := by
  refine ⟨by decide +kernel, flatten_longhand {} guarded _ _ ?_ ?_ ?_⟩
  · simp [Absent, guarded]
  · simp [Bare, guarded]
  · rintro members ⟨⟩
    decide

end EntryPoints.Resolver
