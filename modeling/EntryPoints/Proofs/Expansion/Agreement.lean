import Mathlib.Data.List.Basic
import EntryPoints.Proofs.Expansion.Meaning

/-!
# Views that agree

Expansion asks a view whether the directories of its rules exist and which files lie below them.
Two views that agree on this give the same result, whatever the order of their listings and
whatever they list besides files.
-/

set_option autoImplicit false

namespace EntryPoints

/-- Both views have the path or neither has it, and if they do, the same files lie below it. -/
structure FileView.Agree (view other : FileView) (path : Path) : Prop where
  contains : view.contains path = other.contains path
  below : view.contains path = true → ∃ listing listing', view.below path = .ok listing ∧
    other.below path = .ok listing' ∧
    ∀ found : Found, found.isFile = true → (found ∈ listing ↔ found ∈ listing')

namespace Expansion

variable (root : Path) (view other : FileView)

theorem contains_of_open (rule : Rule) (h : rule.refusal? root view = none) :
    view.contains (rule.directory root) = true := by
  by_contra hmissing
  simp [Rule.refusal?, Rule.rows, hmissing] at h

theorem refusal_agree (rule : Rule) (h : view.Agree other (rule.directory root)) :
    rule.refusal? root view = rule.refusal? root other := by
  rw [Rule.refusal?, Rule.refusal?, Rule.rows, Rule.rows, ← h.contains]
  by_cases hdir : view.contains (rule.directory root) = true
  · obtain ⟨listing, listing', hlisting, hlisting', -⟩ := h.below hdir
    simp only [if_pos hdir, hlisting, hlisting', Except.map]
  · simp only [if_neg hdir]

theorem yields_agree (rule : Rule) (h : view.Agree other (rule.directory root))
    (hopen : rule.refusal? root view = none) (k v : String) :
    rule.Yields root view k v ↔ rule.Yields root other k v := by
  obtain ⟨listing, listing', hlisting, hlisting', hfiles⟩ :=
    h.below (contains_of_open root view rule hopen)
  simp only [Rule.Yields, hlisting, hlisting', Except.ok.injEq, exists_eq_left']
  apply exists_congr
  intro found
  constructor
  · rintro ⟨hfound, hfile, hrow⟩
    exact ⟨(hfiles found hfile).mp hfound, hfile, hrow⟩
  · rintro ⟨hfound, hfile, hrow⟩
    exact ⟨(hfiles found hfile).mpr hfound, hfile, hrow⟩

variable (offers : Table Offer)

theorem leads_agree
    (h : ∀ rule ∈ rules offers, ∀ k v, rule.Yields root view k v ↔ rule.Yields root other k v)
    (k : String) (rule : Rule) (v : String) :
    Leads offers root view k rule v ↔ Leads offers root other k rule v := by
  have hyields : ∀ r, Declares offers r → ∀ w,
      (r.Yields root view k w ↔ r.Yields root other k w) := by
    intro r hr w
    exact h r ((mem_rules offers r).mpr hr) k w
  constructor
  · rintro ⟨hrule, hv, hfirst⟩
    exact ⟨hrule, (hyields rule hrule v).mp hv,
      fun r w hr hw => hfirst r w hr ((hyields r hr w).mpr hw)⟩
  · rintro ⟨hrule, hv, hfirst⟩
    exact ⟨hrule, (hyields rule hrule v).mpr hv,
      fun r w hr hw => hfirst r w hr ((hyields r hr w).mp hw)⟩

theorem given_agree (h : ∀ rule ∈ rules offers, view.Agree other (rule.directory root))
    (hopen : ∀ rule ∈ rules offers, rule.refusal? root view = none) :
    addNew ∅ (given offers root view) = addNew ∅ (given offers root other) := by
  have hopen' : ∀ rule ∈ rules offers, rule.refusal? root other = none := by
    intro rule hrule
    rw [← refusal_agree root view other rule (h rule hrule), hopen rule hrule]
  have hyields : ∀ rule ∈ rules offers, ∀ k v,
      rule.Yields root view k v ↔ rule.Yields root other k v := by
    intro rule hrule
    exact yields_agree root view other rule (h rule hrule) (hopen rule hrule)
  -- The listings may be ordered differently, so the rows are compared by what they are looked up.
  apply Std.ExtTreeMap.ext_getElem?
  intro k
  rw [addNew_get, addNew_get]
  congr 1
  apply Option.ext
  intro v
  rw [lookup_given_offers offers root view k v hopen,
    lookup_given_offers offers root other k v hopen']
  exact exists_congr fun rule => leads_agree root view other offers hyields k rule v

theorem expand_agree (h : ∀ rule ∈ rules offers, view.Agree other (rule.directory root)) :
    expand offers (some root) view = expand offers (some root) other := by
  have hrefusal : (rules offers).findSome? (fun rule => rule.refusal? root view) =
      (rules offers).findSome? fun rule => rule.refusal? root other := by
    rw [← List.head?_filterMap, ← List.head?_filterMap]
    congr 1
    apply List.filterMap_congr
    intro rule hrule
    exact refusal_agree root view other rule (h rule hrule)
  rw [expand_eq, expand_eq, ← hrefusal]
  cases hfirst : (rules offers).findSome? fun rule => rule.refusal? root view with
  | some e => rfl
  | none => rw [given_agree root view other offers h (List.findSome?_eq_none_iff.mp hfirst)]

end Expansion

end EntryPoints
