import EntryPoints.Proofs.Expansion.Passing

/-!
# Literal and withheld subpaths

Offers without a star ask for no directory, so their targets are the result whatever the root and
the files. A withheld subpath is in no result: it bars itself, even as the text of a pattern that
some file spells out.
-/

set_option autoImplicit false

namespace EntryPoints.Expansion
open Pattern

/-- No subpath has a star. -/
def Literal (offers : Table Offer) : Prop :=
  ∀ (k : String) (offer : Offer), offers[k]? = some offer → stars k = 0

variable (offers : Table Offer)

theorem rules_of_literal (h : Literal offers) : rules offers = [] := by
  rw [List.eq_nil_iff_forall_not_mem]
  intro rule hrule
  have hplain := h _ _ ((mem_rules offers rule).mp hrule).offer
  rw [stars_text] at hplain
  omega

theorem sound_of_literal (h : Literal offers) : firstDefect? offers = none := by
  rw [firstDefect_none]
  intro k offer hoffer
  have hplain := h k offer hoffer
  rw [defect_none]
  exact ⟨by omega, fun t _ hstar => by omega⟩

theorem literals_of_literal (h : Literal offers) : literals offers = targets offers := by
  apply Std.ExtTreeMap.ext_getElem?
  intro k
  apply Option.ext
  intro t
  rw [literals_get, targets_get, and_iff_left_iff_imp]
  exact h k _

/-- Where there is no rule, the literal offers are the result. -/
theorem expand_unruled (root : Path) (view : FileView) (hsound : firstDefect? offers = none)
    (hrules : rules offers = []) : expand offers (some root) view = .ok (literals offers) := by
  obtain ⟨flat, hflat⟩ : ∃ flat, expand offers (some root) view = .ok flat := by
    rw [expand_eq, hsound, hrules]
    exact ⟨_, rfl⟩
  obtain ⟨-, -, hget⟩ := expand_ok offers root view flat hflat
  rw [hflat]
  refine congrArg Except.ok (Std.ExtTreeMap.ext_getElem? fun k => ?_)
  rw [hget, given, hrules, List.flatMap_nil, List.lookup_nil, ite_self, Option.or_none]

theorem expand_literal (h : Literal offers) (root? : Option Path) (view : FileView) :
    expand offers root? view = .ok (targets offers) := by
  have hsound := sound_of_literal offers h
  cases root? with
  | none => rw [expand_unrooted, hsound]
  | some root =>
    rw [expand_unruled offers root view hsound (rules_of_literal offers h),
      literals_of_literal offers h]

/-- Withheld subpaths without a star come to nothing. -/
theorem expand_nothing (h : Literal offers)
    (hnone : ∀ k t : String, offers[k]? ≠ some (.target t)) (root? : Option Path)
    (view : FileView) : expand offers root? view = .ok ∅ := by
  have hempty : targets offers = ∅ := by
    apply Std.ExtTreeMap.ext_getElem?
    intro k
    rw [Std.ExtTreeMap.getElem?_empty, Option.eq_none_iff_forall_ne_some]
    intro t ht
    exact hnone k t ((targets_get offers k t).mp ht)
  rw [expand_literal offers h, hempty]

theorem bars_self (name : String) (h : stars name ≤ 1) : Bars name name := by
  by_cases hplain : stars name = 0
  · exact Or.inl ⟨hplain, rfl⟩
  · obtain ⟨p, hp, rfl⟩ := exists_text name (by omega)
    have hstar : "*".utf8ByteSize = 1 := by decide
    refine Or.inr ⟨p, hp, rfl, ⟨"*" ++ p.back, String.append_assoc ..⟩, ⟨p.front ++ "*", rfl⟩, ?_⟩
    rw [text, String.utf8ByteSize_append, String.utf8ByteSize_append, hstar]
    omega

/-- What is withheld is left out, with a root and without. -/
theorem withheld_absent (root? : Option Path) (view : FileView) (flat : Table String)
    (h : expand offers root? view = .ok flat) (k : String) (hk : offers[k]? = some .withheld) :
    flat[k]? = none := by
  have hsound := sound_of_expand offers root? view flat h
  cases root? with
  | none =>
    rw [expand_unrooted, hsound, Except.ok.injEq] at h
    rw [← h, Option.eq_none_iff_forall_ne_some]
    intro t ht
    simp [(targets_get offers k t).mp ht] at hk
  | some root =>
    have hstars := ((defect_none k _).mp ((firstDefect_none offers).mp hsound k _ hk)).1
    have hbarred : Meaning offers root view k none :=
      .barred (fun t ht => by simp [hk] at ht) ⟨k, hk, bars_self k hstars⟩
    have hmeaning := meaning_of_expand offers root view flat h k
    exact meaning_unique offers root view k _ _ hmeaning hbarred

end EntryPoints.Expansion
