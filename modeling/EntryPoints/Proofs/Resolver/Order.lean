import EntryPoints.FileSet
import EntryPoints.Proofs.Resolver.Stages

/-!
# The order of subpaths

Each subpath comes to what its own choice says, and a table has no order, so a declaration may list
its subpaths in any. Only the offender that an error names can change with the order, and only
where the error is about one value or one target of the declaration.
-/

set_option autoImplicit false

namespace EntryPoints

theorem Json.native_iff (members : List (String × Json)) :
    (object members).firstForeign? = none ↔
      ∀ member ∈ members, member.2.firstForeign? = none := by
  constructor
  · exact fun h member hmember => member_native members h member hmember
  · intro h
    rw [firstForeign?, scalars, List.find?_eq_none]
    intro w hw
    obtain ⟨member, hmember, hw⟩ := (mem_scalarsOfMembers members w).mp hw
    have hnative := h member hmember
    rw [firstForeign?, List.find?_eq_none] at hnative
    exact hnative w hw

namespace Resolver
open Declaration

/-- Two errors of one cause that name different offenders. -/
inductive Offenders : Error → Error → Prop
  | value (kind other : String) :
      Offenders (.unsupportedExportsValue kind) (.unsupportedExportsValue other)
  | target (path other : String) : Offenders (.invalidTarget path) (.invalidTarget other)

section Members
variable (conditions : ConditionSet) (members others : List (String × Json))

theorem native_perm (h : members.Perm others) :
    (Json.object members).firstForeign? = none ↔ (Json.object others).firstForeign? = none := by
  rw [Json.native_iff, Json.native_iff]
  exact forall_congr' fun _ => imp_congr_left h.mem_iff

theorem failure_perm (h : members.Perm others) :
    (outcomes conditions members).findSome? Outcome.failure? = none ↔
      (outcomes conditions others).findSome? Outcome.failure? = none := by
  rw [no_failure_of_members, no_failure_of_members]
  exact forall_congr' fun _ => imp_congr_left h.mem_iff

/-- Under values of the grammar a member can only fail for its target. -/
theorem failure_target (hnative : (Json.object members).firstForeign? = none) (e : Error)
    (h : (outcomes conditions members).findSome? Outcome.failure? = some e) :
    ∃ target, e = .invalidTarget target := by
  obtain ⟨before, k, v, after, rfl, hfails, -⟩ := (failure_of_members conditions members e).mp h
  exact selected_error conditions v e (Json.member_native _ hnative (k, v) (by simp)) hfails

theorem rows_perm (hkeys : (members.map Prod.fst).Nodup) (h : members.Perm others) :
    Table.ofRows ((outcomes conditions members).filterMap Outcome.row?) =
      Table.ofRows ((outcomes conditions others).filterMap Outcome.row?) := by
  have hothers : (others.map Prod.fst).Nodup := (h.map Prod.fst).nodup_iff.mp hkeys
  apply Std.ExtTreeMap.ext_getElem?
  intro k
  apply Option.ext
  intro offer
  rw [rows_of_members conditions members hkeys, rows_of_members conditions others hothers]
  simp only [h.mem_iff]

end Members

theorem object_shaped (members : List (String × Json)) (hne : members ≠ [])
    (hsubpaths : ∀ member ∈ members, isSubpath member.1 = true) : Shaped (.object members) :=
  listed_shaped _ members ⟨rfl, hsubpaths⟩ hne

/-- The offers of an object of subpaths do not depend on the order of its members. Where there are
none, the errors of two orders differ in the offender at most. -/
theorem offers_perm (resolver : Resolver) (request : Request)
    (members others : List (String × Json)) (hkeys : (members.map Prod.fst).Nodup)
    (hsubpaths : ∀ member ∈ members, isSubpath member.1 = true) (hperm : members.Perm others) :
    resolver.offers (.object members) request = resolver.offers (.object others) request ∨
      ∃ e e', resolver.offers (.object members) request = .error e ∧
        resolver.offers (.object others) request = .error e' ∧ Offenders e e' := by
  by_cases hnil : members = []
  · subst hnil
    rw [hperm.nil_eq]
    exact Or.inl rfl
  have hne : others ≠ [] := fun h => hnil (by simpa [h] using hperm)
  have hothers : ∀ member ∈ others, isSubpath member.1 = true :=
    fun member hmember => hsubpaths member (hperm.mem_iff.mpr hmember)
  have hshape := object_shaped members hnil hsubpaths
  have hshape' := object_shaped others hne hothers
  have hforeign := native_perm members others hperm
  rw [offers_shaped resolver _ request hshape, offers_shaped resolver _ request hshape']
  cases hfirst : (Json.object members).firstForeign? with
  | some w =>
    -- Each order has a first value outside the grammar, though perhaps not the same one.
    have hsome : (Json.object others).firstForeign? ≠ none := by
      rw [ne_eq, ← hforeign, hfirst]
      simp
    obtain ⟨w', hw'⟩ := Option.ne_none_iff_exists'.mp hsome
    right
    rw [ofJson_foreign _ w hshape hfirst, ofJson_foreign _ w' hshape' hw']
    exact ⟨_, _, rfl, rfl, .value w.kind w'.kind⟩
  | none =>
    have hnative := hforeign.mp hfirst
    rw [offers_listed _ _ members ⟨rfl, hsubpaths⟩ hshape.filled hfirst,
      offers_listed _ _ others ⟨rfl, hothers⟩ hshape'.filled hnative]
    have hfailure := failure_perm (resolver.conditionsFor request) members others hperm
    cases hfails : (outcomes (resolver.conditionsFor request) members).findSome?
      Outcome.failure? with
    | none =>
      rw [hfailure.mp hfails, rows_perm _ members others hkeys hperm]
      exact Or.inl rfl
    | some e =>
      have hsome : (outcomes (resolver.conditionsFor request) others).findSome?
          Outcome.failure? ≠ none := by
        rw [ne_eq, ← hfailure, hfails]
        simp
      obtain ⟨e', he'⟩ := Option.ne_none_iff_exists'.mp hsome
      obtain ⟨target, rfl⟩ := failure_target _ members hfirst e hfails
      obtain ⟨target', rfl⟩ := failure_target _ others hnative e' he'
      right
      rw [he']
      exact ⟨_, _, rfl, rfl, .target target target'⟩

/-- Reordering the subpaths of a declaration changes no table and turns no success into a failure.
An error stays the same unless it is about a value or a target of the declaration, and then it
may name another; once there are offers, the outcome is the same altogether. -/
theorem flatten_reordered (resolver : Resolver) (request : Request) (view : FileView)
    (members others : List (String × Json)) (hkeys : (Json.object members).NamesOnce)
    (hsubpaths : ∀ member ∈ members, isSubpath member.1 = true) (hperm : members.Perm others) :
    (∀ flat, resolver.flatten (.object members) request view = .ok flat ↔
      resolver.flatten (.object others) request view = .ok flat) ∧
    ((∃ e, resolver.flatten (.object members) request view = .error e) ↔
      ∃ e, resolver.flatten (.object others) request view = .error e) ∧
    (∀ e e', resolver.flatten (.object members) request view = .error e →
      resolver.flatten (.object others) request view = .error e' → e = e' ∨ Offenders e e') ∧
    ∀ offers, resolver.offers (.object members) request = .ok offers →
      resolver.offers (.object others) request = .ok offers ∧
        resolver.flatten (.object members) request view =
          resolver.flatten (.object others) request view := by
  have hperm := offers_perm resolver request members others (hkeys members rfl) hsubpaths hperm
  rw [flatten, flatten]
  rcases hperm with hsame | ⟨e, e', he, he', hoffenders⟩
  · rw [hsame]
    refine ⟨fun flat => Iff.rfl, Iff.rfl, fun e e' h h' => Or.inl ?_, fun offers h => ⟨h, rfl⟩⟩
    exact Except.error.inj (h.symm.trans h')
  · rw [he, he']
    refine ⟨fun flat => ?_, ?_, fun f f' h h' => Or.inr ?_, fun offers h => ?_⟩
    · exact ⟨nofun, nofun⟩
    · exact ⟨fun _ => ⟨e', rfl⟩, fun _ => ⟨e, rfl⟩⟩
    · cases h
      cases h'
      exact hoffenders
    · cases h

/-- Two patterns that give one subpath, the later of them the more specific. -/
def colliding : List (String × Json) := [("./*", .string "./lib/*.js"), (".", .string "./index.js"),
  ("./*.min", .string "./min/*.js"), ("./b", .null)]

def collided : FileSet :=
  .ofPaths [.ofText "/pkg/lib/a.min.js", .ofText "/pkg/lib/b.js", .ofText "/pkg/min/a.js"]

theorem flatten_reordered_colliding :
    (flatten {} (.object colliding) { root? := some (.ofText "/pkg") } collided.view).toOption.map
        (fun flat => flat.toList) = some [(".", "./index.js"), ("./a.min", "./min/a.js")] ∧
      ∀ flat,
        flatten {} (.object colliding) { root? := some (.ofText "/pkg") } collided.view =
          .ok flat ↔
        flatten {} (.object colliding.reverse) { root? := some (.ofText "/pkg") } collided.view =
          .ok flat := by
  have hkeys : (Json.object colliding).NamesOnce := by
    rintro _ ⟨⟩
    decide
  refine ⟨by decide +kernel, ?_⟩
  exact (flatten_reordered {} _ _ colliding colliding.reverse hkeys (by decide)
    (List.reverse_perm colliding).symm).1

end Resolver

end EntryPoints
