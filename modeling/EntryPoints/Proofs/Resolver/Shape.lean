import EntryPoints.Proofs.Expansion.Directory
import EntryPoints.Proofs.Expansion.Passing
import EntryPoints.Proofs.Resolver.Stages

/-!
# The shape of a result

Every subpath that is offered is one by its first character, and every target points below the
package. Filling the stars of patterns keeps both, and gives a subpath as many stars as its target.
-/

set_option autoImplicit false

namespace EntryPoints.Resolver
open Declaration Expansion Pattern

/-- Subpaths and targets are such as declarations have, and a pattern has a pattern for target. -/
structure Presentable (flat : Table String) : Prop where
  subpath : ∀ k t : String, flat[k]? = some t → isSubpath k = true
  dotted : ∀ k t : String, flat[k]? = some t → Text.startsWith "./" t = true
  paired : ∀ k t : String, flat[k]? = some t → stars k = 1 → stars t = 1

theorem shaped_of_offers (resolver : Resolver) (v : Json) (request : Request)
    (offers : Table Offer) (h : resolver.offers v request = .ok offers) : Shaped v := by
  have hpresent : ¬Absent v := by
    intro habsent
    rw [Resolver.offers, if_pos ((isUndefined_iff v).mpr habsent)] at h
    simp at h
  rw [Resolver.offers, if_neg (mt (isUndefined_iff v).mp hpresent)] at h
  refine ⟨hpresent, fun hbare => ?_, fun key hmixed => ?_⟩
  · simp [check_bare v hbare, bind, Except.bind] at h
  · simp [check_mixed v key hmixed, bind, Except.bind] at h

theorem native_of_offers (resolver : Resolver) (v : Json) (request : Request)
    (offers : Table Offer) (hshape : Shaped v) (h : resolver.offers v request = .ok offers) :
    v.firstForeign? = none := by
  cases hforeign : v.firstForeign? with
  | none => rfl
  | some w =>
    rw [offers_shaped resolver v request hshape, ofJson_foreign v w hshape hforeign] at h
    simp [Except.bind] at h

theorem selected_dotted (conditions : ConditionSet) (v : Json) (target : String)
    (h : selected conditions v = .ok (.target target)) : Text.startsWith "./" target = true := by
  obtain ⟨choice, -, hselect⟩ := (bind_eq_ok _ _ _).mp h
  exact ((Choice.select_target_route conditions choice target).mp hselect).1

/-- What is offered under a key is what some value comes to, and the key is a subpath. -/
theorem offers_origin (resolver : Resolver) (v : Json) (request : Request) (offers : Table Offer)
    (h : resolver.offers v request = .ok offers) (k : String) (offer : Offer)
    (hoffer : offers[k]? = some offer) : isSubpath k = true ∧ ∃ value selection,
      selected (resolver.conditionsFor request) value = .ok selection ∧
        offered? selection = some offer := by
  have hshape := shaped_of_offers resolver v request offers h
  have hnative := native_of_offers resolver v request offers hshape h
  rw [offers_shaped resolver v request hshape] at h
  rcases whole_or_listed v hshape.uniform with hwhole | ⟨members, hlisted⟩
  · rw [offers_whole _ v hnative hwhole] at h
    cases hselected : selected (resolver.conditionsFor request) v with
    | error e => simp [hselected, Except.map] at h
    | ok selection =>
      rw [hselected] at h
      cases selection with
      | target path =>
        rw [← Except.ok.inj h] at hoffer
        have hrow := Table.mem_of_ofRows _ k offer hoffer
        simp only [List.mem_singleton, Prod.mk.injEq] at hrow
        obtain ⟨rfl, rfl⟩ := hrow
        exact ⟨by decide, v, _, hselected, rfl⟩
      | unresolved | withheld =>
        rw [← Except.ok.inj h] at hoffer
        simp at hoffer
  · rw [offers_listed _ v members hlisted hshape.filled hnative] at h
    split at h
    · simp at h
    · rw [← Except.ok.inj h] at hoffer
      have hrow := Table.mem_of_ofRows _ k offer hoffer
      obtain ⟨outcome, houtcome, hrow⟩ := List.mem_filterMap.mp hrow
      obtain ⟨member, hmember, rfl⟩ := List.mem_map.mp houtcome
      obtain ⟨rfl, selection, hselected, hoffer⟩ := (row_eq_some _ k offer).mp hrow
      exact ⟨hlisted.subpaths member hmember, member.2, selection, hselected, hoffer⟩

theorem offers_dotted (resolver : Resolver) (v : Json) (request : Request) (offers : Table Offer)
    (h : resolver.offers v request = .ok offers) : Dotted offers := by
  intro k target htarget
  obtain ⟨-, value, selection, hselected, hoffer⟩ :=
    offers_origin resolver v request offers h k _ htarget
  rw [offered_target] at hoffer
  rw [hoffer] at hselected
  exact selected_dotted _ value target hselected

theorem presentable_targets (resolver : Resolver) (v : Json) (request : Request)
    (offers : Table Offer) (h : resolver.offers v request = .ok offers)
    (hsound : firstDefect? offers = none) : Presentable (targets offers) where
  subpath k t ht := by
    rw [targets_get] at ht
    exact (offers_origin resolver v request offers h k _ ht).1
  dotted k t ht := by
    rw [targets_get] at ht
    exact offers_dotted resolver v request offers h k t ht
  paired k t ht := by
    rw [targets_get] at ht
    exact ((defect_none k _).mp ((firstDefect_none offers).mp hsound k _ ht)).2 t rfl

theorem presentable_of_refines (passed flat : Table String) (h : Presentable passed)
    (hrefines : Refines passed flat) : Presentable flat where
  subpath k v hv := by
    rcases hrefines.made k v hv with ⟨-, hpassed⟩ | ⟨rule, s, hmade⟩
    · exact h.subpath k v hpassed
    · rw [hmade.key]
      exact fill_starts rule.subpath "." s (by decide) (h.subpath _ _ hmade.row)
  dotted k v hv := by
    rcases hrefines.made k v hv with ⟨-, hpassed⟩ | ⟨rule, s, hmade⟩
    · exact h.dotted k v hpassed
    · rw [hmade.value]
      exact fill_starts rule.target "./" s (by decide) (h.dotted _ _ hmade.row)
  paired k v hv hstar := by
    rcases hrefines.made k v hv with ⟨hplain, -⟩ | ⟨rule, s, hmade⟩
    · omega
    · rw [hmade.key, stars_fill rule.subpath s hmade.subpath] at hstar
      rw [hmade.value, stars_fill rule.target s hmade.target, hstar]

theorem flatten_ok (resolver : Resolver) (v : Json) (request : Request) (view : FileView)
    (flat : Table String) (h : resolver.flatten v request view = .ok flat) :
    ∃ offers, resolver.offers v request = .ok offers ∧
      expand offers request.root? view = .ok flat :=
  (bind_eq_ok _ _ _).mp h

/-- Every result can be shown as a declaration. -/
theorem presentable_of_flatten (resolver : Resolver) (v : Json) (request : Request)
    (view : FileView) (flat : Table String) (h : resolver.flatten v request view = .ok flat) :
    Presentable flat := by
  obtain ⟨offers, hoffers, hexpand⟩ := flatten_ok resolver v request view flat h
  have hsound := sound_of_expand offers request.root? view flat hexpand
  have htargets := presentable_targets resolver v request offers hoffers hsound
  cases hroot : request.root? with
  | none =>
    rw [hroot, expand_unrooted, hsound] at hexpand
    rwa [← Except.ok.inj hexpand]
  | some root =>
    rw [hroot] at hexpand
    exact presentable_of_refines _ flat htargets (refines_of_expand offers root view flat hexpand)

end EntryPoints.Resolver
