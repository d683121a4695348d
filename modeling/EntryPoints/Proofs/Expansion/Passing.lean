import EntryPoints.Proofs.Expansion.Meaning

/-!
# Expansion against passing through

Without a root the targets of the offers stand as declared. With a root nothing is refused less,
literal subpaths keep their targets, and what else there is are instances of the patterns that
would have stood: one string fills the star of a subpath and the star of its target.
-/

set_option autoImplicit false

namespace EntryPoints.Expansion
open Pattern

theorem expand_unrooted (offers : Table Offer) (view : FileView) : expand offers none view =
    match firstDefect? offers with
    | some e => .error e
    | none => .ok (targets offers) := rfl

theorem sound_of_expand (offers : Table Offer) (root? : Option Path) (view : FileView)
    (flat : Table String) (h : expand offers root? view = .ok flat) :
    firstDefect? offers = none := by
  unfold expand at h
  cases hdefect : firstDefect? offers with
  | none => rfl
  | some e => simp [hdefect] at h

/-- The row is made from a row with one star on either side, by one string for both stars. -/
structure Instance (passed : Table String) (k v : String) (rule : Rule) (s : String) : Prop where
  subpath : rule.subpath.Proper
  target : rule.target.Proper
  row : passed[rule.subpath.text]? = some rule.target.text
  key : k = rule.subpath.fill s
  value : v = rule.target.fill s

/-- The literal rows of a table with patterns are kept, and all other rows are instances. -/
structure Refines (passed flat : Table String) : Prop where
  kept : ∀ k t : String, stars k = 0 → passed[k]? = some t → flat[k]? = some t
  made : ∀ k v : String, flat[k]? = some v → (stars k = 0 ∧ passed[k]? = some v) ∨
    ∃ rule s, Instance passed k v rule s

theorem instance_of_leads (offers : Table Offer) (root : Path) (view : FileView) (k v : String)
    (rule : Rule) (h : Leads offers root view k rule v) :
    ∃ s, Instance (targets offers) k v rule s := by
  obtain ⟨hsubpath, htarget, hoffer⟩ := h.declared
  obtain ⟨_, _, _, _, _, s, _, hk, hv⟩ := h.yields
  exact ⟨s, hsubpath, htarget, (targets_get offers _ _).mpr hoffer, hk, hv⟩

theorem refines_of_expand (offers : Table Offer) (root : Path) (view : FileView)
    (flat : Table String) (h : expand offers (some root) view = .ok flat) :
    Refines (targets offers) flat where
  kept k t hplain ht :=
    literal_kept offers root view flat h k t ((targets_get offers k t).mp ht) hplain
  made k v hv := by
    rcases source_of_expand offers root view flat h k v hv with
      ⟨hoffer, hplain⟩ | ⟨-, rule, hleads⟩
    · exact Or.inl ⟨hplain, (targets_get offers k v).mpr hoffer⟩
    · exact Or.inr ⟨rule, instance_of_leads offers root view k v rule hleads⟩

/-- Without a root the files play no part, the refusals are refusals with any root as well, and the
targets of the offers are the result. Whatever a root makes of the offers refines that result. -/
theorem expand_refines (offers : Table Offer) (root : Path) (view : FileView) :
    (∀ other, expand offers none other = expand offers none view) ∧
    (∀ e, expand offers none view = .error e → expand offers (some root) view = .error e) ∧
    (∀ passed, expand offers none view = .ok passed →
      ∀ k t : String, passed[k]? = some t ↔ offers[k]? = some (.target t)) ∧
    (∀ flat, expand offers (some root) view = .ok flat →
      ∃ passed, expand offers none view = .ok passed ∧ Refines passed flat) := by
  cases hdefect : firstDefect? offers with
  | some e =>
    have hnone (other : FileView) : expand offers none other = .error e := by
      rw [expand_unrooted, hdefect]
    have hsome : expand offers (some root) view = .error e := by
      rw [expand_eq, hdefect]
    simp [hnone, hsome]
  | none =>
    have hnone (other : FileView) : expand offers none other = .ok (targets offers) := by
      rw [expand_unrooted, hdefect]
    refine ⟨fun other => by rw [hnone, hnone], fun e he => ?_, fun passed hpassed k t => ?_,
      fun flat hflat => ?_⟩
    · simp [hnone] at he
    · rw [hnone, Except.ok.injEq] at hpassed
      rw [← hpassed, targets_get]
    · exact ⟨_, hnone view, refines_of_expand offers root view flat hflat⟩

end EntryPoints.Expansion
