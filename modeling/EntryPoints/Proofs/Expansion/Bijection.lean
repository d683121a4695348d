import Mathlib.Data.List.Nodup
import Mathlib.Data.Set.Function
import EntryPoints.Proofs.Expansion.Agreement

/-!
# Files and entries of one rule

A rule by itself turns the files that fit its target into the entries of the result, one entry for
each file: what fills the star can be read off the subpath, and off the target, so that neither is
shared by two files. Nothing else in the listing has a part in the result.
-/

set_option autoImplicit false

namespace EntryPoints.Expansion
open Pattern

namespace Rule

/-- The offers that declare this rule and nothing else. -/
def offers (rule : Rule) : Table Offer := .ofRows [(rule.subpath.text, .target rule.target.text)]

def fits (rule : Rule) (found : Found) : Bool :=
  found.isFile && (Text.before? rule.target.back found.place).isSome

/-- What fills the star for a file that fits: its place less the back of the target. -/
def filling (rule : Rule) (found : Found) : String :=
  (Text.before? rule.target.back found.place).getD ""

def entry (rule : Rule) (found : Found) : String × String :=
  (rule.subpath.fill (rule.filling found), rule.target.fill (rule.filling found))

def fitting (rule : Rule) (listing : List Found) : Set Found :=
  {found | found ∈ listing ∧ rule.fits found = true}

theorem fits_iff (rule : Rule) (found : Found) : rule.fits found = true ↔
    found.isFile = true ∧ found.place = rule.filling found ++ rule.target.back := by
  rw [fits, filling, Bool.and_eq_true]
  apply and_congr_right
  intro _
  cases h : Text.before? rule.target.back found.place with
  | some s => simpa using Text.before?_eq_some_iff.mp h
  | none =>
    refine iff_of_false (by simp) fun hplace => ?_
    rw [Text.before?_eq_some_iff.mpr hplace] at h
    simp at h

theorem filling_of_place (rule : Rule) (found : Found) (s : String)
    (h : found.place = s ++ rule.target.back) : rule.filling found = s := by
  rw [filling, Text.before?_eq_some_iff.mpr h, Option.getD_some]

theorem entry_of_place (rule : Rule) (found : Found) (s : String)
    (h : found.place = s ++ rule.target.back) :
    rule.entry found = (rule.subpath.fill s, rule.target.fill s) := by
  rw [entry, rule.filling_of_place found s h]

theorem mem_fitting (rule : Rule) (listing : List Found) (found : Found) :
    found ∈ rule.fitting listing ↔ found ∈ listing ∧ found.isFile = true ∧
      ∃ s, found.place = s ++ rule.target.back := by
  show found ∈ listing ∧ rule.fits found = true ↔ _
  rw [fits_iff]
  constructor
  · rintro ⟨hfound, hfile, hplace⟩
    exact ⟨hfound, hfile, _, hplace⟩
  · rintro ⟨hfound, hfile, s, hplace⟩
    exact ⟨hfound, hfile, by rw [rule.filling_of_place found s hplace, hplace]⟩

theorem filling_inj (rule : Rule) (found other : Found) (hfound : rule.fits found = true)
    (hother : rule.fits other = true) (h : rule.filling found = rule.filling other) :
    found = other := by
  obtain ⟨hfile, hplace⟩ := (rule.fits_iff found).mp hfound
  obtain ⟨hfile', hplace'⟩ := (rule.fits_iff other).mp hother
  rw [Found.mk.injEq, hplace, hplace', h, hfile, hfile']
  exact ⟨rfl, rfl⟩

theorem entry_inj (rule : Rule) (listing : List Found) :
    Set.InjOn (fun found => (rule.entry found).1) (rule.fitting listing) ∧
      Set.InjOn (fun found => (rule.entry found).2) (rule.fitting listing) := by
  constructor
  · intro found hfound other hother h
    exact rule.filling_inj found other hfound.2 hother.2 (fill_inj rule.subpath _ _ h)
  · intro found hfound other hother h
    exact rule.filling_inj found other hfound.2 hother.2 (fill_inj rule.target _ _ h)

theorem offers_get (rule : Rule) (k : String) (offer : Offer) :
    rule.offers[k]? = some offer ↔ k = rule.subpath.text ∧ offer = .target rule.target.text := by
  rw [offers, Table.ofRows, Table.get_ofList Text.byteOrder _ (List.pairwise_singleton _ _)]
  simp

theorem declares_offers (rule other : Rule) (hsubpath : rule.subpath.Proper)
    (htarget : rule.target.Proper) : Declares rule.offers other ↔ other = rule := by
  constructor
  · rintro ⟨hproper, hproper', hoffer⟩
    obtain ⟨hs, ht⟩ := (rule.offers_get _ _).mp hoffer
    have hsame := text_inj _ _ hproper hsubpath hs
    have hsame' := text_inj _ _ hproper' htarget (Offer.target.inj ht)
    rw [Rule.mk.injEq]
    exact ⟨hsame, hsame'⟩
  · rintro rfl
    exact ⟨hsubpath, htarget, (other.offers_get _ _).mpr ⟨rfl, rfl⟩⟩

theorem yields_iff (rule : Rule) (root : Path) (view : FileView) (listing : List Found)
    (h : view.below (rule.directory root) = .ok listing) (k v : String) :
    rule.Yields root view k v ↔ ∃ found ∈ rule.fitting listing, rule.entry found = (k, v) := by
  simp only [Yields, h, Except.ok.injEq, exists_eq_left', mem_fitting]
  constructor
  · rintro ⟨found, hfound, hfile, s, hplace, rfl, rfl⟩
    exact ⟨found, ⟨hfound, hfile, s, hplace⟩, rule.entry_of_place found s hplace⟩
  · rintro ⟨found, ⟨hfound, hfile, s, hplace⟩, hentry⟩
    rw [rule.entry_of_place found s hplace, Prod.mk.injEq] at hentry
    exact ⟨found, hfound, hfile, s, hplace, hentry.1.symm, hentry.2.symm⟩

end Rule

theorem listing_of_open (rule : Rule) (root : Path) (view : FileView)
    (h : rule.refusal? root view = none) :
    ∃ listing, view.below (rule.directory root) = .ok listing := by
  have hdir := contains_of_open root view rule h
  rw [Rule.refusal?, Rule.rows, if_pos hdir] at h
  cases hlisting : view.below (rule.directory root) with
  | ok listing => exact ⟨listing, rfl⟩
  | error e => simp [hlisting, Except.map] at h

def entries (flat : Table String) : Set (String × String) := {row | flat[row.1]? = some row.2}

section Alone
variable (rule : Rule) (hsubpath : rule.subpath.Proper) (htarget : rule.target.Proper)
  (root : Path) (view : FileView) (flat : Table String)
  (h : expand rule.offers (some root) view = .ok flat)
include hsubpath htarget h

theorem yields_of_get (k v : String) (hv : flat[k]? = some v) : rule.Yields root view k v := by
  rcases source_of_expand _ root view flat h k v hv with ⟨hoffer, hplain⟩ | ⟨-, other, hleads⟩
  · rw [((rule.offers_get k _).mp hoffer).1, stars_text] at hplain
    omega
  · obtain rfl := (rule.declares_offers other hsubpath htarget).mp hleads.declared
    exact hleads.yields

/-- With no other offers, what the rule yields is the result. -/
theorem get_alone (k v : String) : flat[k]? = some v ↔ rule.Yields root view k v := by
  refine ⟨yields_of_get rule hsubpath htarget root view flat h k v, fun hyields => ?_⟩
  have hdeclares := (rule.declares_offers rule hsubpath htarget).mpr rfl
  have hfree : ¬Barred rule.offers k := by
    rintro ⟨name, hname, -⟩
    have hoffer := ((rule.offers_get name _).mp hname).2
    simp at hoffer
  have hpresent := (present_iff _ root view flat h k).mpr
    (Or.inr ⟨hfree, rule, v, hdeclares, hyields⟩)
  obtain ⟨w, hw⟩ := (Table.mem_iff flat k).mp hpresent
  have hyields' := yields_of_get rule hsubpath htarget root view flat h k w hw
  rw [hw, yields_unique rule root view k v w hyields hyields']

theorem mem_entries_alone (listing : List Found)
    (hlisting : view.below (rule.directory root) = .ok listing) (row : String × String) :
    row ∈ entries flat ↔ ∃ found ∈ rule.fitting listing, rule.entry found = row :=
  (get_alone rule hsubpath htarget root view flat h row.1 row.2).trans
    (rule.yields_iff root view listing hlisting row.1 row.2)

theorem bijOn_entry (listing : List Found)
    (hlisting : view.below (rule.directory root) = .ok listing) :
    Set.BijOn rule.entry (rule.fitting listing) (entries flat) := by
  have hmem := mem_entries_alone rule hsubpath htarget root view flat h listing hlisting
  refine ⟨fun found hfound => ?_, ?_, fun row hrow => (hmem row).mp hrow⟩
  · exact (hmem _).mpr ⟨found, hfound, rfl⟩
  · intro found hfound other hother heq
    exact (rule.entry_inj listing).1 hfound hother (congrArg Prod.fst heq)

/-- A listing that names no place twice gives each entry once. -/
theorem perm_entries (listing : List Found)
    (hlisting : view.below (rule.directory root) = .ok listing)
    (hplaces : (listing.map Found.place).Nodup) :
    ((listing.filter rule.fits).map rule.entry).Perm flat.toList := by
  have hbij := bijOn_entry rule hsubpath htarget root view flat h listing hlisting
  have hfiles : ∀ found ∈ listing.filter rule.fits, found ∈ rule.fitting listing := by
    intro found hfound
    exact List.mem_filter.mp hfound
  have hmade : ((listing.filter rule.fits).map rule.entry).Nodup := by
    apply List.Nodup.map_on
    · intro found hfound other hother
      exact hbij.injOn (hfiles found hfound) (hfiles other hother)
    · exact (List.Nodup.of_map _ hplaces).filter _
  have hlisted : flat.toList.Nodup := by
    apply flat.distinct_keys_toList.imp
    rintro a b hne rfl
    exact hne Std.ReflCmp.compare_self
  rw [List.perm_ext_iff_of_nodup hmade hlisted]
  intro row
  rw [Std.ExtTreeMap.mem_toList_iff_getElem?_eq_some, List.mem_map]
  simp only [List.mem_filter]
  exact (mem_entries_alone rule hsubpath htarget root view flat h listing hlisting row).symm

end Alone

/-- The files of a listing that fit the target of a rule, each with an entry of its own in the
table, and no entry without a file. -/
structure Paired (rule : Rule) (listing : List Found) (flat : Table String) : Prop where
  fitting : ∀ found, found ∈ rule.fitting listing ↔ found ∈ listing ∧ found.isFile = true ∧
    ∃ s, found.place = s ++ rule.target.back
  entry : ∀ (found : Found) (s : String), found.place = s ++ rule.target.back →
    rule.entry found = (rule.subpath.fill s, rule.target.fill s)
  bijective : Set.BijOn rule.entry (rule.fitting listing) (entries flat)
  subpaths : Set.InjOn (fun found => (rule.entry found).1) (rule.fitting listing)
  targets : Set.InjOn (fun found => (rule.entry found).2) (rule.fitting listing)
  once : ((listing.filter rule.fits).map rule.entry).Perm flat.toList

/-- Expanding a single rule is a bijection from the files that fit its target to the entries. -/
theorem expand_bijective (rule : Rule) (hsubpath : rule.subpath.Proper)
    (htarget : rule.target.Proper) (root : Path) (view : FileView) (flat : Table String)
    (h : expand rule.offers (some root) view = .ok flat) :
    ∃ listing, view.below (rule.directory root) = .ok listing ∧
      ((listing.map Found.place).Nodup → Paired rule listing flat) := by
  have hrule : rule ∈ rules rule.offers :=
    (mem_rules _ rule).mpr ((rule.declares_offers rule hsubpath htarget).mpr rfl)
  obtain ⟨-, hopen, -⟩ := expand_ok rule.offers root view flat h
  obtain ⟨listing, hlisting⟩ := listing_of_open rule root view (hopen rule hrule)
  refine ⟨listing, hlisting, fun hplaces => ?_⟩
  exact {
    fitting := rule.mem_fitting listing
    entry := rule.entry_of_place
    bijective := bijOn_entry rule hsubpath htarget root view flat h listing hlisting
    subpaths := (rule.entry_inj listing).1
    targets := (rule.entry_inj listing).2
    once := perm_entries rule hsubpath htarget root view flat h listing hlisting hplaces }

/-- Ends on both sides of either star. -/
def scripts : Rule := ⟨⟨"./f/", ".x"⟩, ⟨"./dist/", ".js"⟩⟩

/-- A file that leaves the star empty, one that ends twice as the target does, one with a star of
its own, and what does not fit: a directory and a file of another sort. -/
def scriptsView : FileView := .ofAnswers [(.ofText "/pkg/dist", .ok [⟨".js", true⟩,
  ⟨"a.js.js", true⟩, ⟨"d.js", false⟩, ⟨"d.js/é*.js", true⟩, ⟨"readme.md", true⟩])]

theorem expand_bijective_scripts :
    ∃ flat listing, expand scripts.offers (some (.ofText "/pkg")) scriptsView = .ok flat ∧
      flat.toList = [("./f/.x", "./dist/.js"), ("./f/a.js.x", "./dist/a.js.js"),
        ("./f/d.js/é*.x", "./dist/d.js/é*.js")] ∧
      (listing.map Found.place).Nodup ∧ Paired scripts listing flat := by
  have hvalues : (expand scripts.offers (some (.ofText "/pkg")) scriptsView).toOption.map
      (fun flat => flat.toList) = some [("./f/.x", "./dist/.js"), ("./f/a.js.x", "./dist/a.js.js"),
        ("./f/d.js/é*.x", "./dist/d.js/é*.js")] := by decide +kernel
  obtain ⟨flat, hflat, hrows⟩ := ok_of_values _ _ _ hvalues
  have hsubpath : scripts.subpath.Proper := ⟨by decide, by decide⟩
  have htarget : scripts.target.Proper := ⟨by decide, by decide⟩
  obtain ⟨listing, hlisting, hpaired⟩ :=
    expand_bijective scripts hsubpath htarget (.ofText "/pkg") scriptsView flat hflat
  have hplaces : (listing.map Found.place).Nodup := by
    have hknown : scriptsView.below (scripts.directory (.ofText "/pkg")) = .ok [⟨".js", true⟩,
      ⟨"a.js.js", true⟩, ⟨"d.js", false⟩, ⟨"d.js/é*.js", true⟩, ⟨"readme.md", true⟩] := rfl
    rw [hknown, Except.ok.injEq] at hlisting
    rw [← hlisting]
    decide
  exact ⟨flat, listing, hflat, hrows, hplaces, hpaired hplaces⟩

end EntryPoints.Expansion
