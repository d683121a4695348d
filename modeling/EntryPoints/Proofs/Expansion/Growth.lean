import EntryPoints.Proofs.Expansion.Agreement
import EntryPoints.Proofs.Expansion.Confinement

/-!
# Adding files

More files make more rows. No directory disappears and nothing new is barred, so an expansion that
succeeds goes on succeeding and keeps its subpaths. New subpaths come from new files, and a target
changes only where a new file fits a more specific pattern.
-/

set_option autoImplicit false

namespace EntryPoints

theorem FileSet.contains_addAll (set : FileSet) (paths : List Path) (p : Path)
    (h : set.contains p = true) : (set.addAll paths).contains p = true := by
  obtain ⟨file, hfile, hprefix⟩ := (contains_iff set p).mp h
  exact (contains_iff _ p).mpr ⟨file, (mem_addAll set paths file).mpr (Or.inl hfile), hprefix⟩

namespace Expansion
open Pattern

/-- A file at the path gives the row under the rule. -/
def Rule.Makes (rule : Rule) (root p : Path) (k v : String) : Prop :=
  ∃ rest s, rest ≠ [] ∧ p.steps = (rule.directory root).steps ++ rest ∧
    Step.slashed rest = s ++ rule.target.back ∧ k = rule.subpath.fill s ∧ v = rule.target.fill s

theorem yields_of_makes (rule : Rule) (root : Path) (set : FileSet) (p : Path) (k v : String)
    (hp : p.steps ∈ set.files) (h : rule.Makes root p k v) : rule.Yields root set.view k v := by
  obtain ⟨rest, s, hne, hsteps, hrow⟩ := h
  rw [hsteps] at hp
  exact (yields_files rule root set k v).mpr ⟨rest, s, hne, hp, hrow⟩

theorem yields_addAll (rule : Rule) (root : Path) (set : FileSet) (paths : List Path)
    (k v : String) : rule.Yields root (set.addAll paths).view k v ↔
      rule.Yields root set.view k v ∨ ∃ p ∈ paths, rule.Makes root p k v := by
  rw [yields_files, yields_files]
  constructor
  · rintro ⟨rest, s, hne, hfile, hrow⟩
    rcases (FileSet.mem_addAll set paths _).mp hfile with hold | ⟨p, hp, hsteps⟩
    · exact Or.inl ⟨rest, s, hne, hold, hrow⟩
    · exact Or.inr ⟨p, hp, rest, s, hne, hsteps, hrow⟩
  · rintro (⟨rest, s, hne, hold, hrow⟩ | ⟨p, hp, rest, s, hne, hsteps, hrow⟩)
    · exact ⟨rest, s, hne, (FileSet.mem_addAll set paths _).mpr (Or.inl hold), hrow⟩
    · exact ⟨rest, s, hne, (FileSet.mem_addAll set paths _).mpr (Or.inr ⟨p, hp, hsteps⟩), hrow⟩

/-- What adding the files at some paths to a set does to an expansion. -/
structure Growth (offers : Table Offer) (root : Path) (set : FileSet) (paths : List Path)
    (flat grown : Table String) : Prop where
  kept : ∀ k ∈ flat, k ∈ grown
  fresh : ∀ k v : String, grown[k]? = some v → k ∉ flat → ∃ rule p,
    Leads offers root (set.addAll paths).view k rule v ∧ p ∈ paths ∧ p.steps ∉ set.files ∧
      rule.Makes root p k v
  moved : ∀ k v w : String, flat[k]? = some v → grown[k]? = some w → v ≠ w → ∃ rule other,
    Leads offers root set.view k rule v ∧ Leads offers root (set.addAll paths).view k other w ∧
      specificity other.subpath.text rule.subpath.text = .lt

variable (offers : Table Offer) (root : Path) (set : FileSet) (paths : List Path)
  (flat grown : Table String)

theorem expand_addAll (h : expand offers (some root) set.view = .ok flat) :
    ∃ grown, expand offers (some root) (set.addAll paths).view = .ok grown := by
  obtain ⟨hsound, hopen, -⟩ := expand_ok offers root set.view flat h
  refine (expand_files offers root _).mpr ⟨hsound, fun rule hrule => ?_⟩
  exact set.contains_addAll paths _ (contains_of_open root set.view rule (hopen rule hrule))

theorem growth_kept (h : expand offers (some root) set.view = .ok flat)
    (hgrown : expand offers (some root) (set.addAll paths).view = .ok grown) (k : String)
    (hk : k ∈ flat) : k ∈ grown := by
  rw [present_iff offers root _ grown hgrown]
  rcases (present_iff offers root _ flat h k).mp hk with hliteral | ⟨hfree, rule, v, hrule, hv⟩
  · exact Or.inl hliteral
  · exact Or.inr ⟨hfree, rule, v, hrule, (yields_addAll rule root set paths k v).mpr (Or.inl hv)⟩

theorem growth_fresh (h : expand offers (some root) set.view = .ok flat)
    (hgrown : expand offers (some root) (set.addAll paths).view = .ok grown) (k v : String)
    (hv : grown[k]? = some v) (hk : k ∉ flat) : ∃ rule p,
      Leads offers root (set.addAll paths).view k rule v ∧ p ∈ paths ∧ p.steps ∉ set.files ∧
        rule.Makes root p k v := by
  rw [present_iff offers root _ flat h, not_or] at hk
  obtain ⟨hnotliteral, hnorow⟩ := hk
  rcases source_of_expand offers root _ grown hgrown k v hv with hliteral | ⟨hother, rule, hleads⟩
  · exact absurd ⟨v, hliteral⟩ hnotliteral
  · have hmem : k ∈ grown := (Table.mem_iff grown k).mpr ⟨v, hv⟩
    obtain ⟨hfree, -⟩ := ((present_iff offers root _ grown hgrown k).mp hmem).resolve_left
      hnotliteral
    have hold : ¬rule.Yields root set.view k v := fun hyields =>
      hnorow ⟨hfree, rule, v, hleads.declared, hyields⟩
    obtain ⟨p, hp, hmakes⟩ :=
      ((yields_addAll rule root set paths k v).mp hleads.yields).resolve_left hold
    exact ⟨rule, p, hleads, hp,
      fun hfile => hold (yields_of_makes rule root set p k v hfile hmakes), hmakes⟩

theorem growth_moved (h : expand offers (some root) set.view = .ok flat)
    (hgrown : expand offers (some root) (set.addAll paths).view = .ok grown) (k v w : String)
    (hv : flat[k]? = some v) (hw : grown[k]? = some w) (hne : v ≠ w) : ∃ rule other,
      Leads offers root set.view k rule v ∧ Leads offers root (set.addAll paths).view k other w ∧
        specificity other.subpath.text rule.subpath.text = .lt := by
  rcases source_of_expand offers root _ flat h k v hv with ⟨hoffer, hplain⟩ | ⟨hother, rule, hrule⟩
  · rw [literal_kept offers root _ grown hgrown k v hoffer hplain] at hw
    exact absurd (Option.some_inj.mp hw) hne
  · rcases source_of_expand offers root _ grown hgrown k w hw with
      ⟨hoffer, hplain⟩ | ⟨-, other, hleads⟩
    · exact absurd hplain (hother w hoffer)
    · refine ⟨rule, other, hrule, hleads, ?_⟩
      -- The rule of before still gives its target, so another one can only lead by coming first.
      have hstill : rule.Yields root (set.addAll paths).view k v :=
        (yields_addAll rule root set paths k v).mpr (Or.inl hrule.yields)
      rcases hleads.first rule v hrule.declared hstill with rfl | hbefore
      · exact absurd (yields_unique rule root _ k v w hstill hleads.yields) hne
      · exact (before_iff _ _).mpr hbefore

/-- After files are added an expansion still succeeds, with no subpath less. -/
theorem expand_grows (h : expand offers (some root) set.view = .ok flat) :
    ∃ grown, expand offers (some root) (set.addAll paths).view = .ok grown ∧
      Growth offers root set paths flat grown := by
  obtain ⟨grown, hgrown⟩ := expand_addAll offers root set paths flat h
  exact ⟨grown, hgrown, growth_kept offers root set paths flat grown h hgrown,
    growth_fresh offers root set paths flat grown h hgrown,
    growth_moved offers root set paths flat grown h hgrown⟩

def sparse : FileSet := .ofPaths [.ofText "/pkg/lib/lib-a", .ofText "/pkg/dist/z"]

/-- One file fits a more specific pattern than before, one is barred, and one is new. -/
def additions : List Path :=
  [.ofText "/pkg/dist/a", .ofText "/pkg/lib/private/b", .ofText "/pkg/lib/c"]

theorem expand_grows_overlapping :
    ∃ flat grown, expand overlapping (some (.ofText "/pkg")) sparse.view = .ok flat ∧
      flat.toList =
        [("./lib-a", "./lib/lib-a"), ("./lib-z", "./dist/z"), ("./x", "./x.js")] ∧
      expand overlapping (some (.ofText "/pkg")) (sparse.addAll additions).view = .ok grown ∧
      grown.toList = [("./c", "./lib/c"), ("./lib-a", "./dist/a"), ("./lib-z", "./dist/z"),
        ("./x", "./x.js")] ∧
      Growth overlapping (.ofText "/pkg") sparse additions flat grown := by
  have hvalues : (expand overlapping (some (.ofText "/pkg")) sparse.view).toOption.map
      (fun flat => flat.toList) =
        some [("./lib-a", "./lib/lib-a"), ("./lib-z", "./dist/z"), ("./x", "./x.js")] := by
    decide +kernel
  have hmore : (expand overlapping (some (.ofText "/pkg"))
      (sparse.addAll additions).view).toOption.map (fun grown => grown.toList) =
        some [("./c", "./lib/c"), ("./lib-a", "./dist/a"), ("./lib-z", "./dist/z"),
          ("./x", "./x.js")] := by
    decide +kernel
  obtain ⟨flat, hflat, hrows⟩ := ok_of_values _ _ _ hvalues
  obtain ⟨grown, hgrown, hmorerows⟩ := ok_of_values _ _ _ hmore
  obtain ⟨other, hother, hgrowth⟩ :=
    expand_grows overlapping (.ofText "/pkg") sparse additions flat hflat
  rw [hgrown, Except.ok.injEq] at hother
  exact ⟨flat, grown, hflat, hrows, hgrown, hmorerows, hother ▸ hgrowth⟩

end Expansion

end EntryPoints
