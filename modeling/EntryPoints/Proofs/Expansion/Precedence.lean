import EntryPoints.Proofs.Expansion.Meaning

/-!
# Which pattern goes first

The more specific of two patterns is the longer one, so specificity looks at texts alone. It agrees
with what the patterns capture: a pattern that captures nothing but what another one does has the
other's front at its own front and the other's back at its own back, and is longer. Where both give
a subpath, the run of the rules comes to the narrower one first, and the wider one finds the subpath
taken.
-/

set_option autoImplicit false

namespace EntryPoints

namespace Pattern

/-- All that the other pattern captures, the pattern captures too. -/
def Covers (p other : Pattern) : Prop :=
  ∀ k, (other.capture? k).isSome = true → (p.capture? k).isSome = true

theorem captures_iff (p : Pattern) (k : String) :
    (p.capture? k).isSome = true ↔ ∃ s, k = p.fill s := by
  rw [Option.isSome_iff_exists]
  exact exists_congr fun s => capture?_eq_some_iff

/-- A pattern captures the text of another only if it captures the star in it, and then the two
ends lie around that star. -/
theorem ends_of_covers (p other : Pattern) (hp : p.Proper) (hother : other.Proper)
    (h : p.Covers other) :
    ∃ before after, other.front = p.front ++ before ∧ other.back = after ++ p.back := by
  obtain ⟨s, hs⟩ := (captures_iff p other.text).mp
    (h other.text ((captures_iff other other.text).mpr ⟨"*", rfl⟩))
  have hstar : stars s = 1 := by
    rw [← stars_fill p s hp, ← hs, stars_text, hother.1, hother.2]
  obtain ⟨middle, hmiddle, rfl⟩ := exists_text s hstar
  have hsplit : other.text = text ⟨p.front ++ middle.front, middle.back ++ p.back⟩ := by
    rw [hs]
    simp only [fill, text, String.append_assoc]
  have hproper : Proper ⟨p.front ++ middle.front, middle.back ++ p.back⟩ := by
    simp [Proper, stars_append, hp.1, hp.2, hmiddle.1, hmiddle.2]
  rw [text_inj other _ hother hproper hsplit]
  exact ⟨middle.front, middle.back, rfl, rfl⟩

theorem covers_iff (p other : Pattern) (hp : p.Proper) (hother : other.Proper) :
    p.Covers other ↔
      ∃ before after, other.front = p.front ++ before ∧ other.back = after ++ p.back := by
  constructor
  · exact ends_of_covers p other hp hother
  · rintro ⟨before, after, hfront, hback⟩ k hk
    obtain ⟨s, rfl⟩ := (captures_iff other k).mp hk
    refine (captures_iff p _).mpr ⟨before ++ s ++ after, ?_⟩
    simp only [fill, hfront, hback, String.append_assoc]

theorem size_text (p : Pattern) :
    p.text.utf8ByteSize = p.front.utf8ByteSize + 1 + p.back.utf8ByteSize := by
  rw [text, String.utf8ByteSize_append, String.utf8ByteSize_append]
  rfl

theorem specificity_of_covers (p other : Pattern) (hp : p.Proper) (hother : other.Proper)
    (hne : other ≠ p) (h : p.Covers other) : specificity other.text p.text = .lt := by
  obtain ⟨before, after, hfront, hback⟩ := ends_of_covers p other hp hother h
  have hlonger : before ≠ "" ∨ after ≠ "" := by
    by_contra hempty
    rw [not_or, not_ne_iff, not_ne_iff] at hempty
    apply hne
    rw [Pattern.mk.injEq, hfront, hback, hempty.1, hempty.2, String.append_empty,
      String.empty_append]
    exact ⟨rfl, rfl⟩
  have hsize : before.utf8ByteSize ≠ 0 ∨ after.utf8ByteSize ≠ 0 :=
    hlonger.imp (mt String.utf8ByteSize_eq_zero_iff.mp) (mt String.utf8ByteSize_eq_zero_iff.mp)
  apply (Expansion.before_iff _ _).mpr
  left
  rw [size_text, size_text, hfront, hback, String.utf8ByteSize_append, String.utf8ByteSize_append]
  omega

/-- A comparison that puts strings in one order, with no tie but that of a string with itself. -/
structure Linear (order : String → String → Ordering) : Prop where
  tied : ∀ s t, order s t = .eq ↔ s = t
  mirrored : ∀ s t, order t s = (order s t).swap
  chained : ∀ s t u, (order s t).isLE = true → (order t u).isLE = true → (order s u).isLE = true

theorem linear_specificity : Linear specificity where
  tied _ _ := Std.LawfulEqCmp.compare_eq_iff_eq
  mirrored _ _ := Std.OrientedCmp.eq_swap
  chained _ _ _ := Std.TransCmp.isLE_trans

section Sorting
variable {α : Type} (pattern : α → String)

/-- The item with the more specific pattern goes first. -/
def precedes (a b : α) : Bool := (specificity (pattern a) (pattern b)).isLE

/-- Sorts items by a pattern that each of them has. -/
def sortBy (items : List α) : List α := items.mergeSort (precedes pattern)

theorem sortBy_ordered (items : List α) :
    (sortBy pattern items).Pairwise fun a b => precedes pattern a b = true := by
  apply List.pairwise_mergeSort
  · intro a b c hab hbc
    exact Std.TransCmp.isLE_trans hab hbc
  · intro a b
    have hswap := linear_specificity.mirrored (pattern a) (pattern b)
    rw [precedes, precedes, hswap]
    cases specificity (pattern a) (pattern b) <;> rfl

/-- Items that are told apart by their patterns have one arrangement in order. -/
theorem arranged_unique (items others : List α)
    (hinj : ∀ a ∈ items, ∀ b ∈ items, pattern a = pattern b → a = b) (hperm : others.Perm items)
    (hitems : items.Pairwise fun a b => precedes pattern a b = true)
    (hothers : others.Pairwise fun a b => precedes pattern a b = true) : others = items := by
  apply List.Perm.eq_of_pairwise _ hothers hitems hperm
  intro a b ha hb hab hba
  apply hinj a (hperm.mem_iff.mp ha) b hb
  exact Std.LawfulEqCmp.eq_of_compare (Std.OrientedCmp.isLE_antisymm hab hba)

theorem sorted_unique (patterns : List String) : ∃! sorted : List String,
    sorted.Perm patterns ∧ sorted.Pairwise fun s t => precedes id s t = true := by
  have hperm : (sortBy id patterns).Perm patterns := List.mergeSort_perm _ _
  refine ⟨sortBy id patterns, ⟨hperm, sortBy_ordered id patterns⟩, ?_⟩
  rintro others ⟨hothers, hordered⟩
  exact arranged_unique id _ others (fun _ _ _ _ h => h) (hothers.trans hperm.symm)
    (sortBy_ordered id patterns) hordered

end Sorting

end Pattern

namespace Expansion
open Pattern

variable (offers : Table Offer)

theorem declares_inj (rule other : Rule) (hrule : Declares offers rule)
    (hother : Declares offers other) (h : rule.subpath.text = other.subpath.text) :
    rule = other := by
  have hoffer := hrule.offer
  rw [h, hother.offer, Option.some_inj, Offer.target.injEq] at hoffer
  have hsubpath := text_inj _ _ hrule.subpath hother.subpath h
  have htarget := text_inj _ _ hother.target hrule.target hoffer
  rw [Rule.mk.injEq]
  exact ⟨hsubpath, htarget.symm⟩

/-- The rules of some offers, in any order, are sorted into the order in which they are applied. -/
theorem sortBy_rules (rs : List Rule) (h : rs.Perm (rules offers)) :
    sortBy (fun rule => rule.subpath.text) rs = rules offers := by
  have hordered : (rules offers).Pairwise fun rule other =>
      precedes (fun rule : Rule => rule.subpath.text) rule other = true := by
    apply (rules_ordered offers).imp
    intro rule other hlt
    exact Ordering.isLE_of_eq_lt hlt
  refine arranged_unique _ _ _ ?_ ((List.mergeSort_perm _ _).trans h) hordered
    (sortBy_ordered _ rs)
  intro rule hrule other hother hsame
  exact declares_inj offers rule other ((mem_rules offers rule).mp hrule)
    ((mem_rules offers other).mp hother) hsame

variable (root : Path) (view : FileView)

/-- The rule gives the subpath the target that the run of the rules keeps for it: no rule that is
applied before it has given the subpath one. -/
def Assigns (rule : Rule) (k v : String) : Prop :=
  ∃ before after taken, rules offers = before ++ rule :: after ∧
    applyRules root view before ∅ = .ok taken ∧ k ∉ taken ∧ rule.Yields root view k v

theorem mem_applied (rs : List Rule) (taken : Table String)
    (h : applyRules root view rs ∅ = .ok taken) (k : String) :
    k ∈ taken ↔ ∃ rule ∈ rs, ∃ v, rule.Yields root view k v := by
  rw [applyRules_eq] at h
  cases hrefusal : rs.findSome? fun rule => rule.refusal? root view with
  | some e => simp [hrefusal] at h
  | none =>
    rw [hrefusal] at h
    have hopen := List.findSome?_eq_none_iff.mp hrefusal
    have hrows (v : String) : (k, v) ∈ rs.flatMap (fun rule => rule.given root view) ↔
        ∃ rule ∈ rs, rule.Yields root view k v := by
      rw [List.mem_flatMap]
      apply exists_congr
      intro rule
      apply and_congr_right
      intro hrule
      exact mem_given rule root view k v (hopen rule hrule)
    rw [← Except.ok.inj h, Std.ExtTreeMap.mem_iff_isSome_getElem?, addNew_get,
      Std.ExtTreeMap.getElem?_empty, Option.none_or, List.lookup_isSome_iff]
    constructor
    · rintro ⟨⟨k', v⟩, hrow, hk⟩
      obtain rfl : k = k' := beq_iff_eq.mp hk
      obtain ⟨rule, hrule, hv⟩ := (hrows v).mp hrow
      exact ⟨rule, hrule, v, hv⟩
    · rintro ⟨rule, hrule, v, hv⟩
      exact ⟨(k, v), (hrows v).mpr ⟨rule, hrule, hv⟩, beq_self_eq_true k⟩

/-- A rule that leads is the one that assigns: of the rules before it none gives the subpath. -/
theorem assigns_of_leads (hopen : ∀ rule ∈ rules offers, rule.refusal? root view = none)
    (k : String) (rule : Rule) (v : String) (h : Leads offers root view k rule v) :
    Assigns offers root view rule k v := by
  obtain ⟨before, after, hsplit⟩ :=
    List.append_of_mem ((mem_rules offers rule).mpr h.declared)
  have hmem : ∀ other ∈ before, other ∈ rules offers := by
    intro other hother
    rw [hsplit]
    exact List.mem_append_left _ hother
  have hrefusal : before.findSome? (fun other => other.refusal? root view) = none :=
    List.findSome?_eq_none_iff.mpr fun other hother => hopen other (hmem other hother)
  have happlied := applyRules_eq root view before ∅
  rw [hrefusal] at happlied
  refine ⟨before, after, _, hsplit, happlied, ?_, h.yields⟩
  rw [mem_applied root view before _ happlied]
  rintro ⟨other, hother, w, hw⟩
  have hordered := rules_ordered offers
  rw [hsplit, List.pairwise_append] at hordered
  have hearlier := (before_iff _ _).mp (hordered.2.2 other hother rule List.mem_cons_self)
  rcases h.first other w ((mem_rules offers other).mp (hmem other hother)) hw with rfl | hlater
  · exact not_before_before _ _ hearlier hearlier
  · exact not_before_before _ _ hearlier hlater

theorem not_assigns_of_covers (rule other : Rule) (k v : String) (hrule : Declares offers rule)
    (hne : rule.subpath ≠ other.subpath) (hcovers : other.subpath.Covers rule.subpath)
    (hv : rule.Yields root view k v) (w : String) : ¬Assigns offers root view other k w := by
  rintro ⟨before, after, taken, hsplit, happlied, hfree, -⟩
  have hother : other ∈ rules offers := by
    rw [hsplit]
    exact List.mem_append_right _ List.mem_cons_self
  have hfirst := specificity_of_covers other.subpath rule.subpath
    ((mem_rules offers other).mp hother).subpath hrule.subpath hne hcovers
  have hordered := rules_ordered offers
  rw [hsplit, List.pairwise_append] at hordered
  have hmem := (mem_rules offers rule).mpr hrule
  rw [hsplit, List.mem_append, List.mem_cons] at hmem
  apply hfree
  rw [mem_applied root view before taken happlied]
  rcases hmem with hbefore | rfl | hafter
  · exact ⟨rule, hbefore, v, hv⟩
  · exact absurd rfl hne
  · have hlater := (List.pairwise_cons.mp hordered.2.1).1 rule hafter
    exact absurd hlater (Std.OrientedCmp.not_lt_of_lt hfirst)

theorem assigned_elsewhere (flat : Table String)
    (h : expand offers (some root) view = .ok flat) (other : Rule) (k : String)
    (hnever : ∀ w, ¬Assigns offers root view other k w) (value : String)
    (hvalue : flat[k]? = some value) : (offers[k]? = some (.target value) ∧ stars k = 0) ∨
      ∃ leader, leader ≠ other ∧ Assigns offers root view leader k value := by
  obtain ⟨-, hopen, -⟩ := expand_ok offers root view flat h
  rcases source_of_expand offers root view flat h k value hvalue with hliteral | ⟨-, leader, hleads⟩
  · exact Or.inl hliteral
  · have hassigns := assigns_of_leads offers root view hopen k leader value hleads
    right
    refine ⟨leader, ?_, hassigns⟩
    rintro rfl
    exact hnever value hassigns

/-- Specificity orders all strings, without ties, so patterns can be sorted in one way, which is the
way in which an expansion goes through its rules. Of two patterns the one that captures less comes
first, and where it gives a subpath, the other one does not come to assign it. -/
theorem narrower_first :
    Linear specificity ∧
    (∀ patterns : List String, ∃! sorted : List String,
      sorted.Perm patterns ∧ sorted.Pairwise fun s t => precedes id s t = true) ∧
    (∀ (offers : Table Offer) (rs : List Rule), rs.Perm (rules offers) →
      sortBy (fun rule => rule.subpath.text) rs = rules offers) ∧
    (∀ (s t : String) (p q : Pattern), parse? s = some p → parse? t = some q → s ≠ t →
      q.Covers p → specificity s t = .lt) ∧
    (∀ (offers : Table Offer) (root : Path) (view : FileView) (flat : Table String),
      expand offers (some root) view = .ok flat →
      ∀ (rule other : Rule) (k v : String), Declares offers rule →
        rule.subpath ≠ other.subpath → other.subpath.Covers rule.subpath →
        rule.Yields root view k v →
          (∀ w, ¬Assigns offers root view other k w) ∧
          ∀ value, flat[k]? = some value → (offers[k]? = some (.target value) ∧ stars k = 0) ∨
            ∃ leader, leader ≠ other ∧ Assigns offers root view leader k value) := by
  refine ⟨linear_specificity, sorted_unique, sortBy_rules, ?_, ?_⟩
  · intro s t p q hs ht hne hcovers
    obtain ⟨rfl, hp⟩ := (parse?_eq_some_iff s p).mp hs
    obtain ⟨rfl, hq⟩ := (parse?_eq_some_iff t q).mp ht
    exact specificity_of_covers q p hq hp (fun hsame => hne (by rw [hsame])) hcovers
  · intro offers root view flat h rule other k v hrule hne hcovers hv
    have hnever := not_assigns_of_covers offers root view rule other k v hrule hne hcovers hv
    exact ⟨hnever, assigned_elsewhere offers root view flat h other k hnever⟩

def wide : Rule := ⟨⟨"./", ""⟩, ⟨"./lib/", ""⟩⟩

def narrow : Rule := ⟨⟨"./lib-", ""⟩, ⟨"./dist/", ""⟩⟩

/-- The file `lib-a` in `lib` and the file `a` in `dist` give one subpath. -/
theorem narrower_first_overlapping :
    [narrow, wide].Perm (rules overlapping) ∧
    sortBy (fun rule => rule.subpath.text) [wide, narrow] = [narrow, wide] ∧
    wide.subpath.Covers narrow.subpath ∧ specificity "./lib-*" "./*" = .lt ∧
    ∃ flat, expand overlapping (some (.ofText "/pkg")) overlappingView = .ok flat ∧
      narrow.Yields (.ofText "/pkg") overlappingView "./lib-a" "./dist/a" ∧
      wide.Yields (.ofText "/pkg") overlappingView "./lib-a" "./lib/lib-a" ∧
      (∀ w, ¬Assigns overlapping (.ofText "/pkg") overlappingView wide "./lib-a" w) ∧
      flat["./lib-a"]? = some "./dist/a" := by
  have hrules : rules overlapping = [narrow, wide] := by decide +kernel
  have hperm : [wide, narrow].Perm (rules overlapping) := by
    rw [hrules]
    exact List.Perm.swap narrow wide []
  have hcovers : wide.subpath.Covers narrow.subpath :=
    (covers_iff _ _ ⟨by decide, by decide⟩ ⟨by decide, by decide⟩).mpr ⟨"lib-", "", rfl, rfl⟩
  have hgives (rule : Rule) (v : String)
      (hopen : rule.refusal? (.ofText "/pkg") overlappingView = none)
      (hrow : ("./lib-a", v) ∈ rule.given (.ofText "/pkg") overlappingView) :
      rule.Yields (.ofText "/pkg") overlappingView "./lib-a" v :=
    (mem_given rule _ _ _ _ hopen).mp hrow
  have hnarrow := hgives narrow "./dist/a" (by decide +kernel) (by decide +kernel)
  have hwide := hgives wide "./lib/lib-a" (by decide +kernel) (by decide +kernel)
  have hvalue : ((expand overlapping (some (.ofText "/pkg")) overlappingView).toOption.map
      fun flat => flat["./lib-a"]?) = some (some "./dist/a") := by decide +kernel
  obtain ⟨flat, hflat, hread⟩ := ok_of_values _ _ _ hvalue
  have hdeclared : Declares overlapping narrow :=
    (mem_rules overlapping narrow).mp (by rw [hrules]; exact List.mem_cons_self)
  obtain ⟨-, -, hsorted, hless, hassigned⟩ := narrower_first
  have hfirst := hassigned overlapping (.ofText "/pkg") overlappingView flat hflat narrow wide
    "./lib-a" "./dist/a" hdeclared (by decide) hcovers hnarrow
  refine ⟨by rw [hrules], (hsorted _ _ hperm).trans hrules, hcovers, ?_, flat, hflat, hnarrow,
    hwide, hfirst.1, hread⟩
  exact hless "./lib-*" "./*" narrow.subpath wide.subpath (by decide) (by decide) (by decide)
    hcovers

end Expansion

end EntryPoints
