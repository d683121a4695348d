import EntryPoints.Proofs.Expansion.Literal
import EntryPoints.Proofs.Resolver.Shape

/-!
# What a result keeps to

Whatever the files are called, a result has subpaths for keys and targets below the package for
values. The choice of the package itself gives no key but `.`, and a subpath whose choice is
withheld is no key of the result.
-/

set_option autoImplicit false

namespace EntryPoints

namespace Declaration
open Expansion

variable (conditions : ConditionSet)

theorem main_offers (choice : Choice) (offers : Table Offer)
    (h : (Declaration.main choice).offers conditions = .ok offers) (k : String) (offer : Offer)
    (hoffer : offers[k]? = some offer) : k = "." := by
  rw [Declaration.offers] at h
  cases hselect : choice.select conditions with
  | error e => simp [hselect, bind, Except.bind] at h
  | ok selection =>
    rw [hselect] at h
    cases selection with
    | target path =>
      cases h
      have hrow := Table.mem_of_ofRows _ k offer hoffer
      exact (Prod.mk.inj (List.mem_singleton.mp hrow)).1
    | unresolved | withheld =>
      cases h
      simp at hoffer

theorem withheld_offered (members : List (String × Json)) (entries : List (String × Choice))
    (offers : Table Offer) (hkeys : (members.map Prod.fst).Nodup)
    (hread : Choice.ofMembers members = .ok entries)
    (h : (Declaration.subpaths entries).offers conditions = .ok offers)
    (entry : String × Choice) (hentry : entry ∈ entries)
    (hwithheld : entry.2.select conditions = .ok .withheld) :
    offers[entry.1]? = some .withheld := by
  rw [offers_subpaths conditions members entries hread] at h
  split at h
  · simp at h
  · rw [← Except.ok.inj h, withheld_of_members conditions members hkeys]
    have hmem : (entry.1, Except.ok Selection.withheld) ∈ outcomes conditions members := by
      rw [← outcomes_of_members conditions members entries hread, ← hwithheld]
      exact List.mem_map_of_mem hentry
    obtain ⟨⟨k, v⟩, hmember, heq⟩ := List.mem_map.mp hmem
    obtain ⟨rfl, hv⟩ := Prod.mk.inj heq
    exact ⟨v, hmember, hv⟩

end Declaration

namespace Resolver
open Declaration Expansion

/-- What a declaration promises, under some conditions, of all that it comes to. -/
structure Honours (conditions : ConditionSet) (declaration : Declaration) (flat : Table String) :
    Prop where
  subpath : ∀ k ∈ flat, Text.startsWith "." k = true
  dotted : ∀ k t : String, flat[k]? = some t → Text.startsWith "./" t = true
  main : ∀ choice, declaration = .main choice → ∀ k ∈ flat, k = "."
  withheld : ∀ entries, declaration = .subpaths entries → ∀ entry ∈ entries,
    entry.2.select conditions = .ok .withheld → entry.1 ∉ flat

theorem subpaths_read (v : Json) (entries : List (String × Choice))
    (h : Declaration.ofJson v = .ok (.subpaths entries)) :
    ∃ members, v = .object members ∧ Choice.ofMembers members = .ok entries := by
  unfold Declaration.ofJson at h
  split at h
  · rename_i members
    split at h
    · obtain ⟨_, hread, ⟨⟩⟩ := (map_eq_ok _ _ _).mp h
      exact ⟨members, rfl, hread⟩
    · obtain ⟨_, _, ⟨⟩⟩ := (map_eq_ok _ _ _).mp h
  · obtain ⟨_, _, ⟨⟩⟩ := (map_eq_ok _ _ _).mp h

theorem declaration_of_offers (resolver : Resolver) (v : Json) (request : Request)
    (offers : Table Offer) (h : resolver.offers v request = .ok offers) :
    ∃ declaration, Declaration.ofJson v = .ok declaration ∧
      declaration.offers (resolver.conditionsFor request) = .ok offers := by
  rw [offers_shaped resolver v request (shaped_of_offers resolver v request offers h)] at h
  exact (bind_eq_ok _ _ _).mp h

/-- Every result keeps to what its declaration promises, with a root or without and whatever the
view holds. -/
theorem flatten_honours (resolver : Resolver) (v : Json) (request : Request) (view : FileView)
    (flat : Table String) (hkeys : v.NamesOnce)
    (h : resolver.flatten v request view = .ok flat) :
    ∃ declaration, Declaration.ofJson v = .ok declaration ∧
      Honours (resolver.conditionsFor request) declaration flat := by
  have hflat := presentable_of_flatten resolver v request view flat h
  obtain ⟨offers, hoffers, hexpand⟩ := flatten_ok resolver v request view flat h
  obtain ⟨declaration, hread, hdeclared⟩ := declaration_of_offers resolver v request offers hoffers
  refine ⟨declaration, hread, ?_, hflat.dotted, ?_, ?_⟩
  · intro k hk
    obtain ⟨t, ht⟩ := (Table.mem_iff flat k).mp hk
    exact hflat.subpath k t ht
  · rintro choice rfl k hk
    have hmain := main_offers _ choice offers hdeclared
    have hliteral : Literal offers := by
      intro k offer hoffer
      rw [hmain k offer hoffer]
      decide
    obtain ⟨t, ht⟩ := (Table.mem_iff flat k).mp hk
    rw [expand_literal offers hliteral, Except.ok.injEq] at hexpand
    rw [← hexpand, targets_get] at ht
    exact hmain k _ ht
  · rintro entries rfl entry hentry hwithheld
    obtain ⟨members, hobject, hmembers⟩ := subpaths_read v entries hread
    have hoffer := withheld_offered _ members entries offers (hkeys members hobject) hmembers
      hdeclared entry hentry hwithheld
    rw [Table.mem_iff, withheld_absent offers request.root? view flat hexpand entry.1 hoffer]
    simp

/-- A withheld pattern beside a wider one. -/
def fenced : Json := .object [("./*", .string "./lib/*"), ("./private/*", .null)]

/-- Files whose names spell the withheld pattern and a pattern of their own. -/
def spelled : FileSet :=
  .ofPaths [.ofText "/pkg/lib/private/*", .ofText "/pkg/lib/private/", .ofText "/pkg/lib/*"]

theorem flatten_honours_fenced :
    ∃ flat, flatten {} fenced { root? := some (.ofText "/pkg") } spelled.view = .ok flat ∧
      flat.toList = [("./*", "./lib/*"), ("./private", "./lib/private")] ∧
      ∃ declaration, Declaration.ofJson fenced = .ok declaration ∧
        Honours (conditionsFor {} { root? := some (.ofText "/pkg") }) declaration flat := by
  have hkeys : fenced.NamesOnce := by
    rintro _ ⟨⟩
    decide
  have hvalues : (flatten {} fenced { root? := some (.ofText "/pkg") } spelled.view).toOption.map
      (fun flat => flat.toList) =
        some [("./*", "./lib/*"), ("./private", "./lib/private")] := by
    decide +kernel
  obtain ⟨flat, hflat, hrows⟩ := ok_of_values _ _ _ hvalues
  exact ⟨flat, hflat, hrows, flatten_honours {} fenced _ _ flat hkeys hflat⟩

end Resolver

end EntryPoints
