import EntryPoints.Expansion
import EntryPoints.Proofs.Pattern

/-!
# What expansion is made of

Lookups in the tables that expansion builds, the rules of a table of offers with their order, and
the rows that a list of rules gives in a view. Applying the rules in turn is adding the rows of all
of them at once, unless a rule is refused; the first refused one is then the outcome.
-/

set_option autoImplicit false

namespace EntryPoints.Expansion
open Pattern

theorem targets_get (offers : Table Offer) (k t : String) :
    (targets offers)[k]? = some t ↔ offers[k]? = some (.target t) := by
  rw [targets, Std.ExtTreeMap.getElem?_filterMap', Option.bind_eq_some_iff]
  constructor
  · rintro ⟨offer, hoffer, ht⟩
    cases offer with
    | target path => rw [hoffer, ← Option.some_inj.mp ht]
    | withheld => simp at ht
  · intro h
    exact ⟨.target t, h, rfl⟩

theorem literals_get (offers : Table Offer) (k t : String) :
    (literals offers)[k]? = some t ↔ offers[k]? = some (.target t) ∧ stars k = 0 := by
  rw [literals, Std.ExtTreeMap.getElem?_filter', Option.filter_eq_some_iff, targets_get,
    beq_iff_eq]

theorem mem_withheld (offers : Table Offer) (name : String) :
    name ∈ withheld offers ↔ offers[name]? = some .withheld := by
  simp [withheld, Std.ExtTreeMap.mem_toList_iff_getElem?_eq_some]

theorem defect_none (k : String) (offer : Offer) :
    defect? k offer = none ↔
      stars k ≤ 1 ∧ ∀ t, offer = .target t → stars k = 1 → stars t = 1 := by
  cases offer <;> simp only [defect?] <;> grind

theorem firstDefect_none (offers : Table Offer) :
    firstDefect? offers = none ↔ ∀ k offer, offers[k]? = some offer → defect? k offer = none := by
  simp [firstDefect?, List.findSome?_eq_none_iff, Std.ExtTreeMap.mem_toList_iff_getElem?_eq_some]

/-- The offers hold the pair of patterns, each with one star, as a subpath and its target. -/
structure Declares (offers : Table Offer) (rule : Rule) : Prop where
  subpath : rule.subpath.Proper
  target : rule.target.Proper
  offer : offers[rule.subpath.text]? = some (.target rule.target.text)

theorem ofTexts_eq_some (s t : String) (rule : Rule) : Rule.ofTexts? s t = some rule ↔
    parse? s = some rule.subpath ∧ parse? t = some rule.target := by
  simp only [Rule.ofTexts?, Option.bind_eq_bind, Option.bind_eq_some_iff]
  constructor
  · rintro ⟨p, hp, q, hq, h⟩
    cases h
    exact ⟨hp, hq⟩
  · rintro ⟨hp, hq⟩
    exact ⟨rule.subpath, hp, rule.target, hq, rfl⟩

def bySpecificity (offers : Table Offer) : Std.ExtTreeMap String String specificity :=
  .ofList (targets offers).toList specificity

theorem mem_bySpecificity (offers : Table Offer) (k t : String) :
    (k, t) ∈ (bySpecificity offers).toList ↔ offers[k]? = some (.target t) := by
  have hdistinct : (targets offers).toList.Pairwise fun a b => specificity a.1 b.1 ≠ .eq := by
    apply (targets offers).distinct_keys_toList.imp
    intro a b hab heq
    apply hab
    rw [Std.LawfulEqCmp.eq_of_compare heq]
    exact Std.ReflCmp.compare_self
  rw [Std.ExtTreeMap.mem_toList_iff_getElem?_eq_some, bySpecificity,
    Table.get_ofList specificity _ hdistinct, Std.ExtTreeMap.mem_toList_iff_getElem?_eq_some,
    targets_get]

theorem mem_rules (offers : Table Offer) (rule : Rule) :
    rule ∈ rules offers ↔ Declares offers rule := by
  show rule ∈ (bySpecificity offers).toList.filterMap _ ↔ _
  rw [List.mem_filterMap]
  constructor
  · rintro ⟨⟨s, t⟩, hmem, h⟩
    obtain ⟨hs, ht⟩ := (ofTexts_eq_some s t rule).mp h
    obtain ⟨rfl, hsubpath⟩ := (parse?_eq_some_iff s rule.subpath).mp hs
    obtain ⟨rfl, htarget⟩ := (parse?_eq_some_iff t rule.target).mp ht
    exact ⟨hsubpath, htarget, (mem_bySpecificity offers _ _).mp hmem⟩
  · rintro ⟨hsubpath, htarget, hoffer⟩
    exact ⟨(rule.subpath.text, rule.target.text), (mem_bySpecificity offers _ _).mpr hoffer,
      (ofTexts_eq_some _ _ rule).mpr ⟨parse?_text _ hsubpath, parse?_text _ htarget⟩⟩

theorem rules_ordered (offers : Table Offer) : (rules offers).Pairwise fun rule other =>
    specificity rule.subpath.text other.subpath.text = .lt := by
  apply List.Pairwise.filterMap _ _ (bySpecificity offers).ordered_keys_toList
  intro (s, t) (s', t') hlt rule hrule other hother
  obtain ⟨rfl, -⟩ := (parse?_eq_some_iff s rule.subpath).mp
    ((ofTexts_eq_some s t rule).mp hrule).1
  obtain ⟨rfl, -⟩ := (parse?_eq_some_iff s' other.subpath).mp
    ((ofTexts_eq_some s' t' other).mp hother).1
  exact hlt

theorem row_eq_some (rule : Rule) (found : Found) (k v : String) :
    rule.row? found = some (k, v) ↔ found.isFile ∧ ∃ s, found.place = s ++ rule.target.back ∧
      k = rule.subpath.fill s ∧ v = rule.target.fill s := by
  unfold Rule.row?
  split
  · rename_i hfile
    simp only [Option.map_eq_some_iff, Text.before?_eq_some_iff, Prod.mk.injEq, hfile, true_and]
    simp only [eq_comm]
  · rename_i hfile
    simp [hfile]

def Rule.given (rule : Rule) (root : Path) (view : FileView) : List (String × String) :=
  match rule.rows root view with
  | .ok rows => rows
  | .error _ => []

def Rule.refusal? (rule : Rule) (root : Path) (view : FileView) : Option Error :=
  match rule.rows root view with
  | .ok _ => none
  | .error e => some e

/-- A file below the rule's directory fits the target, and what the target captures of it fills
the subpath as well. -/
def Rule.Yields (rule : Rule) (root : Path) (view : FileView) (k v : String) : Prop :=
  ∃ listing, view.below (rule.directory root) = .ok listing ∧
    ∃ found ∈ listing, found.isFile ∧ ∃ s, found.place = s ++ rule.target.back ∧
      k = rule.subpath.fill s ∧ v = rule.target.fill s

theorem mem_given (rule : Rule) (root : Path) (view : FileView) (k v : String)
    (h : rule.refusal? root view = none) :
    (k, v) ∈ rule.given root view ↔ rule.Yields root view k v := by
  unfold Rule.refusal? at h
  unfold Rule.given Rule.Yields
  unfold Rule.rows at h ⊢
  by_cases hdir : view.contains (rule.directory root) = true
  · simp only [hdir, if_true] at h ⊢
    cases hlist : view.below (rule.directory root) with
    | error e => simp [hlist, Except.map] at h
    | ok listing => simp [Except.map, List.mem_filterMap, row_eq_some]
  · simp [hdir] at h

/-- A subpath tells what filled it, so a rule gives no subpath two targets. -/
theorem yields_unique (rule : Rule) (root : Path) (view : FileView) (k v w : String)
    (hv : rule.Yields root view k v) (hw : rule.Yields root view k w) : v = w := by
  obtain ⟨_, _, _, _, _, s, _, hs, rfl⟩ := hv
  obtain ⟨_, _, _, _, _, t, _, ht, rfl⟩ := hw
  rw [fill_inj rule.subpath s t (hs.symm.trans ht)]

theorem lookup_given (rule : Rule) (root : Path) (view : FileView) (k v : String)
    (h : rule.refusal? root view = none) :
    (rule.given root view).lookup k = some v ↔ rule.Yields root view k v := by
  rw [← mem_given rule root view k v h]
  constructor
  · intro hlookup
    obtain ⟨before, after, hrows, -⟩ := List.lookup_eq_some_iff.mp hlookup
    simp [hrows]
  · intro hmem
    cases hlookup : (rule.given root view).lookup k with
    | none => simpa using List.lookup_eq_none_iff.mp hlookup (k, v) hmem
    | some w =>
      obtain ⟨before, after, hrows, -⟩ := List.lookup_eq_some_iff.mp hlookup
      have hw : (k, w) ∈ rule.given root view := by simp [hrows]
      rw [mem_given rule root view _ _ h] at hmem hw
      rw [yields_unique rule root view k v w hmem hw]

theorem addNew_append (flat : Table String) (rows rest : List (String × String)) :
    addNew flat (rows ++ rest) = addNew (addNew flat rows) rest :=
  List.foldl_append

theorem addNew_get (flat : Table String) (rows : List (String × String)) (k : String) :
    (addNew flat rows)[k]? = flat[k]?.or (rows.lookup k) := by
  induction rows generalizing flat with
  | nil => simp [addNew]
  | cons row rows ih =>
    obtain ⟨s, t⟩ := row
    show (addNew (flat.insertIfNew s t) rows)[k]? = _
    rw [ih, Std.ExtTreeMap.getElem?_insertIfNew, List.lookup_cons]
    by_cases hk : s = k
    · subst hk
      have hself : Text.byteOrder s s = .eq := Std.ReflCmp.compare_self
      cases hflat : flat[s]? <;>
        simp [hself, hflat, Std.ExtTreeMap.mem_iff_isSome_getElem?]
    · have hne : Text.byteOrder s k ≠ .eq := fun h => hk (Std.LawfulEqCmp.eq_of_compare h)
      have hbeq : (k == s) = false := by simpa using Ne.symm hk
      rw [if_neg fun h => hne h.1, hbeq]

/-- The first rule that is refused stops the run. Otherwise it adds the rows of all rules, the
earlier ones first. -/
theorem applyRules_eq (root : Path) (view : FileView) (rs : List Rule) (flat : Table String) :
    applyRules root view rs flat =
      match rs.findSome? fun rule => rule.refusal? root view with
      | some e => .error e
      | none => .ok (addNew flat (rs.flatMap fun rule => rule.given root view)) := by
  induction rs generalizing flat with
  | nil => rfl
  | cons rule rs ih =>
    rw [applyRules, List.findSome?_cons, List.flatMap_cons, addNew_append, Rule.refusal?,
      Rule.given]
    cases rule.rows root view with
    | error e => rfl
    | ok rows => exact ih (addNew flat rows)

/-- All rows that the rules of some offers give, those of the most specific rule first. -/
def given (offers : Table Offer) (root : Path) (view : FileView) : List (String × String) :=
  (rules offers).flatMap fun rule => rule.given root view

theorem expand_eq (offers : Table Offer) (root : Path) (view : FileView) :
    expand offers (some root) view =
      match firstDefect? offers with
      | some e => .error e
      | none =>
        match (rules offers).findSome? fun rule => rule.refusal? root view with
        | some e => .error e
        | none => .ok (((addNew ∅ (given offers root view)).filter fun subpath _ =>
            !vetoed offers subpath) ∪ literals offers) := by
  rw [expand]
  cases firstDefect? offers with
  | some e => rfl
  | none =>
    simp only [applyRules_eq]
    cases (rules offers).findSome? fun rule => rule.refusal? root view <;> rfl

theorem expand_ok (offers : Table Offer) (root : Path) (view : FileView) (flat : Table String)
    (h : expand offers (some root) view = .ok flat) :
    firstDefect? offers = none ∧ (∀ rule ∈ rules offers, rule.refusal? root view = none) ∧
      ∀ k, flat[k]? = (literals offers)[k]?.or
        (if vetoed offers k then none else (given offers root view).lookup k) := by
  rw [expand_eq] at h
  cases hdefect : firstDefect? offers with
  | some e => simp [hdefect] at h
  | none =>
    cases hrefusal : (rules offers).findSome? fun rule => rule.refusal? root view with
    | some e => simp [hdefect, hrefusal] at h
    | none =>
      rw [hdefect, hrefusal] at h
      refine ⟨rfl, List.findSome?_eq_none_iff.mp hrefusal, fun k => ?_⟩
      rw [← Except.ok.inj h, Std.ExtTreeMap.getElem?_union, Std.ExtTreeMap.getElem?_filter',
        addNew_get, Std.ExtTreeMap.getElem?_empty, Option.none_or]
      congr 1
      cases vetoed offers k <;> cases (given offers root view).lookup k <;> rfl

theorem ok_of_values {α : Type} (result : Except Error (Table String)) (read : Table String → α)
    (value : α) (h : result.toOption.map read = some value) :
    ∃ flat, result = .ok flat ∧ read flat = value := by
  cases result with
  | error e => simp [Except.toOption] at h
  | ok flat => exact ⟨flat, rfl, Option.some_inj.mp h⟩

end EntryPoints.Expansion
