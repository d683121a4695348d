import EntryPoints.FileSet
import EntryPoints.Proofs.Expansion.Literal
import EntryPoints.Proofs.Resolver.Shape

/-!
# Results as declarations

A result, written down as an object of its rows, is a declaration again. All its choices are plain
targets, so the conditions play no part, and what it comes to is the result itself: with any root
as long as no key has a star, and without a root as long as no key has two.
-/

set_option autoImplicit false

namespace EntryPoints.Resolver
open Declaration Expansion Pattern

def members (rows : List (String × String)) : List (String × Json) :=
  rows.map fun row => (row.1, .string row.2)

/-- The value is an object whose members are the rows of the table, in any order. -/
def Shows (v : Json) (flat : Table String) : Prop :=
  ∃ rows, rows.Perm flat.toList ∧ v = .object (members rows)

theorem shows_toJson (flat : Table String) : Shows flat.toJson flat :=
  ⟨flat.toList, List.Perm.refl _, rfl⟩

theorem mem_members (rows : List (String × String)) (k : String) (v : Json) :
    (k, v) ∈ members rows ↔ ∃ t, (k, t) ∈ rows ∧ v = .string t := by
  rw [members, List.mem_map]
  constructor
  · rintro ⟨⟨k, t⟩, hmem, ⟨⟩⟩
    exact ⟨t, hmem, rfl⟩
  · rintro ⟨t, hmem, rfl⟩
    exact ⟨(k, t), hmem, rfl⟩

theorem mem_rows (rows : List (String × String)) (flat : Table String)
    (h : rows.Perm flat.toList) (k t : String) : (k, t) ∈ rows ↔ flat[k]? = some t := by
  rw [h.mem_iff, Std.ExtTreeMap.mem_toList_iff_getElem?_eq_some]

theorem nodup_members (rows : List (String × String)) (flat : Table String)
    (h : rows.Perm flat.toList) : ((members rows).map Prod.fst).Nodup := by
  rw [members, List.map_map]
  apply (h.map Prod.fst).nodup_iff.mpr
  rw [List.Nodup, List.pairwise_map]
  apply flat.distinct_keys_toList.imp
  intro a b hne heq
  exact hne (by rw [heq]; exact Std.ReflCmp.compare_self)

theorem members_native (rows : List (String × String)) :
    (Json.object (members rows)).firstForeign? = none := by
  rw [Json.firstForeign?, Json.scalars, List.find?_eq_none]
  intro w hw
  obtain ⟨⟨k, v⟩, hmember, hw⟩ := (Json.mem_scalarsOfMembers _ w).mp hw
  obtain ⟨t, -, rfl⟩ := (mem_members rows k v).mp hmember
  rw [List.mem_singleton.mp hw]
  exact Bool.false_ne_true

theorem selected_string (conditions : ConditionSet) (t : String)
    (h : Text.startsWith "./" t = true) :
    selected conditions (.string t) = .ok (.target t) := by
  show Choice.select conditions (.target t) = _
  rw [Choice.select_target, if_pos h]

/-- The offers are the rows of the table and nothing else. -/
def OffersRows (offers : Table Offer) (flat : Table String) : Prop :=
  ∀ (k : String) (offer : Offer), offers[k]? = some offer ↔
    ∃ t, flat[k]? = some t ∧ offer = .target t

theorem offers_of_shown (resolver : Resolver) (v : Json) (request : Request) (flat : Table String)
    (hshown : Shows v flat) (hne : flat ≠ ∅) (h : Presentable flat) :
    ∃ offers, resolver.offers v request = .ok offers ∧ OffersRows offers flat := by
  obtain ⟨rows, hperm, rfl⟩ := hshown
  have hrow := mem_rows rows flat hperm
  have hmembers : members rows ≠ [] := by
    intro hempty
    rw [List.map_eq_nil_iff.mp hempty] at hperm
    exact hne (Std.ExtTreeMap.toList_eq_nil_iff.mp hperm.nil_eq.symm)
  have hselected : ∀ k t, (k, t) ∈ rows →
      selected (resolver.conditionsFor request) (.string t) = .ok (.target t) :=
    fun k t hmem => selected_string _ t (h.dotted k t ((hrow k t).mp hmem))
  have hlisted : Listed (.object (members rows)) (members rows) := by
    refine ⟨rfl, fun (k, v) hmember => ?_⟩
    obtain ⟨t, hmem, -⟩ := (mem_members rows k v).mp hmember
    exact h.subpath k t ((hrow k t).mp hmem)
  have hfailure : (outcomes (resolver.conditionsFor request) (members rows)).findSome?
      Outcome.failure? = none := by
    rw [no_failure_of_members]
    intro (k, v) hmember e
    obtain ⟨t, hmem, rfl⟩ := (mem_members rows k v).mp hmember
    simp [hselected k t hmem]
  have hshape := listed_shaped _ _ hlisted hmembers
  rw [offers_shaped resolver _ request hshape,
    offers_listed _ _ _ hlisted hshape.filled (members_native rows), hfailure]
  refine ⟨_, rfl, fun k offer => ?_⟩
  rw [rows_of_members _ _ (nodup_members rows flat hperm)]
  constructor
  · rintro ⟨v, selection, hmember, hv, hoffer⟩
    obtain ⟨t, hmem, rfl⟩ := (mem_members rows k v).mp hmember
    rw [hselected k t hmem, Except.ok.injEq] at hv
    subst hv
    exact ⟨t, (hrow k t).mp hmem, (Option.some_inj.mp hoffer).symm⟩
  · rintro ⟨t, ht, rfl⟩
    have hmem := (hrow k t).mpr ht
    exact ⟨.string t, .target t, (mem_members rows k _).mpr ⟨t, hmem, rfl⟩,
      hselected k t hmem, rfl⟩

theorem targets_of_rows (offers : Table Offer) (flat : Table String) (h : OffersRows offers flat) :
    targets offers = flat := by
  apply Std.ExtTreeMap.ext_getElem?
  intro k
  apply Option.ext
  intro t
  rw [targets_get, h]
  simp

theorem sound_of_rows (offers : Table Offer) (flat : Table String) (h : OffersRows offers flat)
    (hflat : Presentable flat) (hstars : ∀ k ∈ flat, stars k ≤ 1) :
    firstDefect? offers = none := by
  rw [firstDefect_none]
  intro k offer hoffer
  obtain ⟨t, ht, rfl⟩ := (h k offer).mp hoffer
  have hmem := (Table.mem_iff flat k).mpr ⟨t, ht⟩
  rw [defect_none]
  refine ⟨hstars k hmem, fun t' ht' hstar => ?_⟩
  cases ht'
  exact hflat.paired k t ht hstar

theorem literal_of_rows (offers : Table Offer) (flat : Table String) (h : OffersRows offers flat)
    (hstars : ∀ k ∈ flat, stars k = 0) : Literal offers := by
  intro k offer hoffer
  obtain ⟨t, ht, -⟩ := (h k offer).mp hoffer
  exact hstars k ((Table.mem_iff flat k).mpr ⟨t, ht⟩)

theorem expand_rows_unrooted (offers : Table Offer) (flat : Table String) (view : FileView)
    (h : OffersRows offers flat) (hflat : Presentable flat) (hstars : ∀ k ∈ flat, stars k ≤ 1) :
    expand offers none view = .ok flat := by
  rw [expand_unrooted, sound_of_rows offers flat h hflat hstars]
  exact congrArg Except.ok (targets_of_rows offers flat h)

theorem expand_rows_plain (offers : Table Offer) (flat : Table String) (root : Path)
    (view : FileView) (h : OffersRows offers flat) (hflat : Presentable flat)
    (hstars : ∀ k ∈ flat, stars k = 0) : expand offers (some root) view = .ok flat := by
  have hliteral := literal_of_rows offers flat h hstars
  have hsound := sound_of_rows offers flat h hflat fun k hk => by rw [hstars k hk]; omega
  rw [expand_unruled offers root view hsound (rules_of_literal offers hliteral),
    literals_of_literal offers hliteral, targets_of_rows offers flat h]

/-- A result that is not empty, shown as a declaration, comes to itself: whatever the request if
no key has a star, and without a root if no key has more than one. -/
theorem flatten_shown (resolver : Resolver) (v : Json) (request : Request) (view : FileView)
    (flat : Table String) (h : resolver.flatten v request view = .ok flat) (hne : flat ≠ ∅)
    (shown : Json) (hshown : Shows shown flat) :
    ((∀ k ∈ flat, stars k = 0) → ∀ (again : Resolver) (other : Request) (files : FileView),
      again.flatten shown other files = .ok flat) ∧
    ((∀ k ∈ flat, stars k ≤ 1) → ∀ (again : Resolver) (other : Request) (files : FileView),
      other.root? = none → again.flatten shown other files = .ok flat) := by
  have hflat := presentable_of_flatten resolver v request view flat h
  constructor
  · intro hstars again other files
    obtain ⟨offers, hoffers, hrows⟩ := offers_of_shown again shown other flat hshown hne hflat
    rw [flatten, hoffers]
    show expand offers other.root? files = .ok flat
    cases other.root? with
    | none =>
      exact expand_rows_unrooted offers flat files hrows hflat fun k hk => by
        rw [hstars k hk]; omega
    | some root => exact expand_rows_plain offers flat root files hrows hflat hstars
  · intro hstars again other files hroot
    obtain ⟨offers, hoffers, hrows⟩ := offers_of_shown again shown other flat hshown hne hflat
    rw [flatten, hoffers, hroot]
    exact expand_rows_unrooted offers flat files hrows hflat hstars

def patterned : Json := .object [("./*", .object [("default", .string "./lib/*.js")])]

/-- A file whose name has a star of its own. -/
def starred : FileSet := .ofPaths [.ofText "/pkg/lib/a*.js", .ofText "/pkg/lib/b.js"]

theorem flatten_shown_starred :
    ∃ flat, flatten {} patterned { root? := some (.ofText "/pkg") } starred.view = .ok flat ∧
      flat.toList = [("./a*", "./lib/a*.js"), ("./b", "./lib/b.js")] ∧
      flatten ⟨["browser"]⟩ flat.toJson {} FileSet.empty.view = .ok flat := by
  have hvalues : (flatten {} patterned { root? := some (.ofText "/pkg") } starred.view).toOption.map
      (fun flat => flat.toList) = some [("./a*", "./lib/a*.js"), ("./b", "./lib/b.js")] := by
    decide +kernel
  obtain ⟨flat, hflat, hrows⟩ := ok_of_values _ _ _ hvalues
  have hne : flat ≠ ∅ := by
    intro hempty
    rw [Std.ExtTreeMap.toList_eq_nil_iff.mpr hempty] at hrows
    exact absurd hrows (by simp)
  have hstars : ∀ k ∈ flat, stars k ≤ 1 := by
    intro k hk
    obtain ⟨t, ht⟩ := Option.isSome_iff_exists.mp (Std.ExtTreeMap.mem_iff_isSome_getElem?.mp hk)
    have hrow := (mem_rows _ flat (List.Perm.refl _) k t).mpr ht
    rw [hrows] at hrow
    simp only [List.mem_cons, Prod.mk.injEq, List.not_mem_nil, or_false] at hrow
    rcases hrow with ⟨rfl, -⟩ | ⟨rfl, -⟩ <;> decide
  have hagain := flatten_shown {} patterned _ _ flat hflat hne flat.toJson (shows_toJson flat)
  exact ⟨flat, hflat, hrows, hagain.2 hstars _ {} _ rfl⟩

end EntryPoints.Resolver
