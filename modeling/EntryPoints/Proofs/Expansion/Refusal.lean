import EntryPoints.Proofs.Expansion.Directory
import EntryPoints.Proofs.Expansion.Passing

/-!
# Why an expansion is refused

Offers are refused for themselves, with the fault of the first faulty subpath in the order of
bytes, whatever the root and the files. Sound offers are refused with a root alone, when the
directory of some rule is missing; the most specific such rule is named, even if none of its rows
could have made it into the result.
-/

set_option autoImplicit false

namespace EntryPoints.Expansion
open Pattern

section First
variable {α β : Type} (order : String → String → Ordering) [Std.OrientedCmp order]
  (key : α → String) (f : α → Option β)

/-- In a list with ascending keys, what is found first comes from the least key that has it. -/
theorem findSome_least (l : List α) (hl : l.Pairwise fun a b => order (key a) (key b) = .lt)
    (v : β) : l.findSome? f = some v ↔
      ∃ a ∈ l, f a = some v ∧ ∀ b ∈ l, f b ≠ none → b = a ∨ order (key a) (key b) = .lt := by
  induction l with
  | nil => simp
  | cons a l ih =>
    obtain ⟨hfirst, hrest⟩ := List.pairwise_cons.mp hl
    rw [List.findSome?_cons]
    cases ha : f a with
    | some w =>
      constructor
      · intro hw
        refine ⟨a, List.mem_cons_self, ha.trans hw, fun b hb _ => ?_⟩
        exact (List.mem_cons.mp hb).imp_right (hfirst b)
      · rintro ⟨b, hb, hv, hleast⟩
        rcases hleast a List.mem_cons_self (by simp [ha]) with rfl | hbefore
        · exact ha.symm.trans hv
        · rcases List.mem_cons.mp hb with rfl | hb
          · exact ha.symm.trans hv
          · exact absurd hbefore (Std.OrientedCmp.not_lt_of_lt (hfirst b hb))
    | none =>
      rw [ih hrest]
      simp [ha]

end First

/-- What is wrong with an offer by itself: too many stars in its subpath, or none or too many in
the target of a pattern. -/
inductive Faulty (k : String) : Offer → Error → Prop
  | crowded {offer : Offer} (subpath : 1 < stars k) : Faulty k offer (.invalidSubpathPattern k)
  | unmatched {t : String} (subpath : stars k = 1) (target : stars t ≠ 1) :
      Faulty k (.target t) (.unsupportedWildcardTarget k t)

variable (offers : Table Offer)

/-- No offer has a fault. -/
def Sound : Prop :=
  ∀ (k : String) (offer : Offer) (e : Error), offers[k]? = some offer → ¬Faulty k offer e

/-- Why some offers are refused with a set of files. -/
inductive Refused (root? : Option Path) (set : FileSet) : Error → Prop
  | faulty {k : String} {offer : Offer} {e : Error} (declared : offers[k]? = some offer)
      (fault : Faulty k offer e)
      (first : ∀ (other : String) (offer' : Offer) (e' : Error), offers[other]? = some offer' →
        Faulty other offer' e' → other = k ∨ Text.byteOrder k other = .lt) :
      Refused root? set e
  | missing {root : Path} {rule : Rule} (sound : Sound offers) (rooted : root? = some root)
      (declared : Declares offers rule) (missing : set.contains (rule.directory root) = false)
      (first : ∀ other, Declares offers other → set.contains (other.directory root) = false →
        other = rule ∨ Before rule.subpath.text other.subpath.text) :
      Refused root? set (.directoryNotFound (rule.directory root))

theorem defect_iff (k : String) (offer : Offer) (e : Error) :
    defect? k offer = some e ↔ Faulty k offer e := by
  constructor
  · intro h
    unfold defect? at h
    split at h
    · rename_i hcrowded
      cases h
      exact .crowded hcrowded
    · cases offer with
      | withheld => simp at h
      | target t =>
        dsimp only at h
        split at h
        · rename_i hstars
          cases h
          exact .unmatched hstars.1 hstars.2
        · simp at h
  · rintro (hcrowded | ⟨hsubpath, htarget⟩)
    · unfold defect?
      exact if_pos hcrowded
    · have hstars : ¬1 < stars k := by omega
      unfold defect?
      rw [if_neg hstars]
      exact if_pos ⟨hsubpath, htarget⟩

theorem sound_iff : firstDefect? offers = none ↔ Sound offers := by
  rw [firstDefect_none]
  constructor
  · intro h k offer e hoffer hfault
    rw [← defect_iff, h k offer hoffer] at hfault
    simp at hfault
  · intro h k offer hoffer
    rw [Option.eq_none_iff_forall_ne_some]
    intro e he
    exact h k offer e hoffer ((defect_iff k offer e).mp he)

theorem firstDefect_some (e : Error) : firstDefect? offers = some e ↔
    ∃ (k : String) (offer : Offer), offers[k]? = some offer ∧ Faulty k offer e ∧
      ∀ (other : String) (offer' : Offer) (e' : Error), offers[other]? = some offer' →
        Faulty other offer' e' → other = k ∨ Text.byteOrder k other = .lt := by
  rw [firstDefect?, findSome_least Text.byteOrder Prod.fst _ _ offers.ordered_keys_toList]
  constructor
  · rintro ⟨⟨k, offer⟩, hmem, hdefect, hfirst⟩
    rw [Std.ExtTreeMap.mem_toList_iff_getElem?_eq_some] at hmem
    refine ⟨k, offer, hmem, (defect_iff k offer e).mp hdefect,
      fun other offer' e' hother hfault => ?_⟩
    have hdefect' := (defect_iff other offer' e').mpr hfault
    have hmem' := Std.ExtTreeMap.mem_toList_iff_getElem?_eq_some.mpr hother
    exact (hfirst (other, offer') hmem' (by simp [hdefect'])).imp_left (congrArg Prod.fst)
  · rintro ⟨k, offer, hoffer, hfault, hfirst⟩
    refine ⟨(k, offer), Std.ExtTreeMap.mem_toList_iff_getElem?_eq_some.mpr hoffer,
      (defect_iff k offer e).mpr hfault, ?_⟩
    rintro ⟨other, offer'⟩ hmem hdefect
    rw [Std.ExtTreeMap.mem_toList_iff_getElem?_eq_some] at hmem
    obtain ⟨e', he'⟩ := Option.ne_none_iff_exists'.mp hdefect
    rcases hfirst other offer' e' hmem ((defect_iff other offer' e').mp he') with rfl | hlt
    · rw [hmem, Option.some_inj] at hoffer
      exact Or.inl (by rw [hoffer])
    · exact Or.inr hlt

theorem firstRefusal_some (root : Path) (set : FileSet) (e : Error) :
    (rules offers).findSome? (fun rule => rule.refusal? root set.view) = some e ↔
      ∃ rule, Declares offers rule ∧ set.contains (rule.directory root) = false ∧
        (∀ other, Declares offers other → set.contains (other.directory root) = false →
          other = rule ∨ Before rule.subpath.text other.subpath.text) ∧
        e = .directoryNotFound (rule.directory root) := by
  have hrefusal (rule : Rule) : rule.refusal? root set.view ≠ none ↔
      set.contains (rule.directory root) = false := by
    rw [refusal_files]
    cases set.contains (rule.directory root) <;> simp
  rw [findSome_least specificity (fun rule => rule.subpath.text) _ _ (rules_ordered offers)]
  simp only [mem_rules, hrefusal, before_iff]
  apply exists_congr
  intro rule
  apply and_congr_right
  intro _
  rw [refusal_files]
  by_cases hdir : set.contains (rule.directory root) = true
  · simp [hdir]
  · rw [if_neg hdir, Option.some_inj, Bool.eq_false_iff.mpr hdir, eq_comm, and_comm]
    simp

theorem expand_error (root? : Option Path) (set : FileSet) (e : Error) :
    expand offers root? set.view = .error e ↔ firstDefect? offers = some e ∨
      (firstDefect? offers = none ∧ ∃ root, root? = some root ∧
        (rules offers).findSome? (fun rule => rule.refusal? root set.view) = some e) := by
  cases root? with
  | none =>
    rw [expand_unrooted]
    cases firstDefect? offers <;> simp
  | some root =>
    rw [expand_eq]
    cases firstDefect? offers with
    | some d => simp
    | none =>
      cases hfirst : (rules offers).findSome? fun rule => rule.refusal? root set.view <;>
        simp [hfirst]

theorem expand_succeeds (root? : Option Path) (set : FileSet) :
    (∃ flat, expand offers root? set.view = .ok flat) ↔ Sound offers ∧ ∀ root, root? = some root →
      ∀ rule, Declares offers rule → set.contains (rule.directory root) = true := by
  rw [← sound_iff]
  simp only [← mem_rules]
  cases root? with
  | none =>
    rw [expand_unrooted]
    cases firstDefect? offers <;> simp
  | some root => simp [expand_files]

/-- An expansion fails for these reasons and no others, and succeeds exactly when the offers are
sound and, with a root, the directories of all rules are there. -/
theorem expand_refused (root? : Option Path) (set : FileSet) :
    (∀ e, expand offers root? set.view = .error e ↔ Refused offers root? set e) ∧
    ((∃ flat, expand offers root? set.view = .ok flat) ↔
      Sound offers ∧ ∀ root, root? = some root →
        ∀ rule, Declares offers rule → set.contains (rule.directory root) = true) := by
  refine ⟨fun e => ?_, expand_succeeds offers root? set⟩
  rw [expand_error, firstDefect_some, sound_iff]
  simp only [firstRefusal_some]
  constructor
  · rintro (⟨k, offer, hoffer, hfault, hfirst⟩ |
      ⟨hsound, root, hroot, rule, hrule, hmissing, hfirst, rfl⟩)
    · exact .faulty hoffer hfault hfirst
    · exact .missing hsound hroot hrule hmissing hfirst
  · rintro (⟨hoffer, hfault, hfirst⟩ | ⟨hsound, hroot, hrule, hmissing, hfirst⟩)
    · exact Or.inl ⟨_, _, hoffer, hfault, hfirst⟩
    · exact Or.inr ⟨hsound, _, hroot, _, hrule, hmissing, hfirst, rfl⟩

end EntryPoints.Expansion
