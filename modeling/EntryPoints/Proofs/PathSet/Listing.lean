import EntryPoints.Proofs.Path.Shown
import EntryPoints.Proofs.PathSet

/-!
# Listings are complete

A path exists when it is a file or has something to list. If only names come after it in the files
below it, all of them texts, the listing gives each of these files once: put after the path again,
every place in it leads back to its file. The places ascend name by name, which is not the order of
their texts. Names that are not texts are listed as what is shown of them, which may be the same for
two files and lead to neither.
-/

set_option autoImplicit false

namespace EntryPoints

namespace Path
open Step

/-- Names that stand for themselves are read back from the path that they make. -/
theorem steps_names (names : List Bytes) (h : ∀ name ∈ names, Plain name) :
    (ofSegments names).steps = names.map .name := by
  have hunbroken : ∀ name ∈ names, separator ∉ name := fun name hname => (h name hname).unbroken
  have hloud : ∀ name, names.head? = some name → isSilent name = false := by
    intro name hhead
    have hname := h name (List.mem_of_head? hhead)
    rw [Bool.eq_false_iff, ne_eq, isSilent_iff]
    simp [hname.nonempty, hname.not_here]
  rw [steps_join_loud names hunbroken hloud, made, filterMap_names names h]

theorem steps_join_names (p : Path) (names : List Bytes) (h : ∀ name ∈ names, Plain name) :
    (p.join (ofSegments names)).steps = p.steps ++ names.map .name := by
  have hrelative := relative_names names h
  by_cases hempty : p.bytes = []
  · rw [join, hrelative, if_neg Bool.false_ne_true, if_pos (Or.inl hempty), hempty,
      List.nil_append, steps_of_empty p hempty, List.nil_append]
    exact steps_names names h
  · rw [steps_join p _ hempty hrelative, inner_names names h]

end Path

namespace FileSet

theorem contains_iff_listed (set : FileSet) (p : Path) :
    set.contains p = true ↔ p.steps ∈ set.files ∨ set.below p ≠ [] := by
  have hlisted : set.below p ≠ [] ↔ ∃ rest, rest ≠ [] ∧ p.steps ++ rest ∈ set.files := by
    rw [below, ne_eq, List.map_eq_nil_iff, List.eq_nil_iff_forall_not_mem, not_forall_not]
    exact exists_congr (mem_remainders set p)
  rw [contains_iff, hlisted]
  -- Below or at the path: a file of which nothing remains has the steps of the path itself.
  constructor
  · rintro ⟨file, hfile, rest, rfl⟩
    by_cases hempty : rest = []
    · rw [hempty, List.append_nil] at hfile
      exact Or.inl hfile
    · exact Or.inr ⟨rest, hempty, hfile⟩
  · rintro (hfile | ⟨rest, -, hfile⟩)
    · exact ⟨_, hfile, List.prefix_refl _⟩
    · exact ⟨_, hfile, List.prefix_append _ _⟩

theorem listOrder_append (lead rest more : List Step) :
    Step.listOrder (lead ++ rest) (lead ++ more) = Step.listOrder rest more := by
  induction lead with
  | nil => rfl
  | cons step lead ih =>
    have hself : Step.order step step = .eq := Std.ReflCmp.compare_self
    rw [List.cons_append, List.cons_append, Step.listOrder, List.compareLex_cons_cons, hself,
      Ordering.then]
    exact ih

theorem remainders_ascending (set : FileSet) (p : Path) :
    (set.remainders p).Pairwise fun rest more => Step.listOrder rest more = .lt := by
  apply List.Pairwise.filter
  apply List.Pairwise.filterMap _ _ set.files.ordered_toList
  intro file other hlt rest hrest more hmore
  rw [Affix.after?_eq_some_iff.mp hrest, Affix.after?_eq_some_iff.mp hmore,
    listOrder_append] at hlt
  exact hlt

/-- What is told apart by steps that ascend does not repeat. -/
theorem nodup_of_ascending {α β : Type} (items : List α) (key : α → List Step) (f : α → β)
    (h : items.Pairwise fun a b => Step.listOrder (key a) (key b) = .lt)
    (hkey : ∀ a b, f a = f b → key a = key b) : (items.map f).Nodup := by
  rw [List.nodup_iff_pairwise_ne, List.pairwise_map]
  apply h.imp
  intro a b hlt hsame
  rw [hkey a b hsame] at hlt
  exact Std.OrientedCmp.not_lt_of_lt hlt hlt

/-- What comes after the path in the files below it is names that stand for themselves, all of them
texts. -/
def LegibleBelow (set : FileSet) (p : Path) : Prop :=
  ∀ rest ∈ set.remainders p,
    Step.Legible rest ∧ ∀ name, .name name ∈ rest → Step.Plain name

theorem steps_place (set : FileSet) (p : Path) (h : LegibleBelow set p) (rest : List Step)
    (hrest : rest ∈ set.remainders p) :
    (Path.ofText (Step.slashed rest)).steps = rest ∧
      (p.join (.ofText (Step.slashed rest))).steps = p.steps ++ rest := by
  obtain ⟨hlegible, hplain⟩ := h rest hrest
  obtain ⟨names, rfl, hplace⟩ := hlegible.slashed_names
  have hnames : ∀ name ∈ names, Step.Plain name :=
    fun name hname => hplain name (List.mem_map_of_mem hname)
  rw [hplace]
  exact ⟨Path.steps_names names hnames, p.steps_join_names names hnames⟩

theorem below_ascending (set : FileSet) (p : Path) (h : LegibleBelow set p) :
    (set.below p).Pairwise fun found other =>
      Step.listOrder ((Path.ofText found.place).steps) ((Path.ofText other.place).steps) = .lt := by
  rw [below, List.pairwise_map]
  apply (remainders_ascending set p).imp_of_mem
  intro rest more hrest hmore hlt
  rw [(steps_place set p h rest hrest).1, (steps_place set p h more hmore).1]
  exact hlt

theorem joined_below (set : FileSet) (p : Path) (h : LegibleBelow set p) :
    (set.below p).map (fun found => (p.join (.ofText found.place)).steps) =
      (set.remainders p).map fun rest => p.steps ++ rest := by
  rw [below, List.map_map]
  apply List.map_congr_left
  intro rest hrest
  exact (steps_place set p h rest hrest).2

end FileSet

namespace PathSet

/-- In every file that starts with the path nothing but names comes after it. -/
def NamedBelow (additions : List Addition) (p : Path) : Prop :=
  ∀ rest, p.steps ++ rest ∈ Addition.files additions → ∃ names : List Bytes, rest = names.map .name

/-- In every file that starts with the path nothing but names comes after it, all of them texts. -/
def LegibleBelow (additions : List Addition) (p : Path) : Prop :=
  ∀ rest, p.steps ++ rest ∈ Addition.files additions → Step.Legible rest

/-- The places below a path, each apart and in the order of their steps, lead from the path to the
files strictly below it, to each of them once. -/
structure Listed (additions : List Addition) (p : Path) (listing : List Found) : Prop where
  distinct : (listing.map Found.place).Nodup
  ascending : listing.Pairwise fun found other =>
    Step.listOrder ((Path.ofText found.place).steps) ((Path.ofText other.place).steps) = .lt
  once : (listing.map fun found => (p.join (.ofText found.place)).steps).Nodup
  exact : ∀ file, file ∈ listing.map (fun found => (p.join (.ofText found.place)).steps) ↔
    file ∈ Addition.files additions ∧ ∃ rest, rest ≠ [] ∧ file = p.steps ++ rest

theorem legibleBelow_built (additions : List Addition) (p : Path)
    (h : LegibleBelow additions p) : (FileSet.built additions).LegibleBelow p := by
  intro rest hrest
  rw [FileSet.mem_remainders, FileSet.mem_built] at hrest
  obtain ⟨addition, -, hmember⟩ := List.mem_flatMap.mp hrest.2
  obtain ⟨q, -, hsteps⟩ := List.mem_map.mp hmember
  refine ⟨h rest hrest.2, fun name hname => ?_⟩
  apply Step.plain_of_mem_steps q name
  rw [hsteps]
  exact List.mem_append_right _ hname

theorem listed_of_legible (additions : List Addition) (p : Path) (h : LegibleBelow additions p) :
    Listed additions p ((FileSet.built additions).below p) := by
  have hplain := legibleBelow_built additions p h
  have hjoined := FileSet.joined_below _ p hplain
  have hascending := FileSet.below_ascending _ p hplain
  -- The places are apart as steps, which ascend; the joined paths are apart in what follows `p`.
  refine ⟨?_, hascending, ?_, ?_⟩
  · apply FileSet.nodup_of_ascending _ _ _ hascending
    intro found other hsame
    rw [hsame]
  · rw [hjoined]
    apply FileSet.nodup_of_ascending _ id _ (FileSet.remainders_ascending _ p)
    intro rest more hsame
    exact List.append_cancel_left hsame
  · intro file
    simp only [hjoined, List.mem_map, FileSet.mem_remainders, FileSet.mem_built]
    constructor
    · rintro ⟨rest, ⟨hne, hfile⟩, rfl⟩
      exact ⟨hfile, rest, hne, rfl⟩
    · rintro ⟨hfile, rest, hne, rfl⟩
      exact ⟨rest, ⟨hne, hfile⟩, rfl⟩

/-- A path exists in a set if and only if it is a file or lists something, and the listing is
complete where names alone come after the path, all of them texts. -/
theorem listing_complete (additions : List Addition) (p : Path) :
    ((built additions).contains p = true ↔
      p.steps ∈ Addition.files additions ∨ (built additions).below p ≠ []) ∧
    (LegibleBelow additions p → Listed additions p ((built additions).below p)) := by
  have hspells := spells_built additions
  rw [hspells.contains, hspells.below, FileSet.contains_iff_listed, FileSet.mem_built]
  exact ⟨Iff.rfl, listed_of_legible additions p⟩

/-- A directory that is itself a file, a sibling whose name starts with its name, and a name that
comes after another one though its text comes before. -/
def crowded : List Addition :=
  [.several [.ofText "/pkg/dist/a-b", .ofText "/pkg/dist2/c", .ofText "/pkg//dist/a/b/"],
    .one (.ofText "/pkg/dist")]

def crowdedPlace : Path := .ofText "/pkg/dist/"

theorem listing_complete_crowded :
    (built crowded).below crowdedPlace = [⟨"a/b", true⟩, ⟨"a-b", true⟩] ∧
    LegibleBelow crowded crowdedPlace ∧
    ((built crowded).contains (.ofText "/pkg/dis") = false ∧
      (built crowded).below (.ofText "/pkg/dis") = []) ∧
    Listed crowded crowdedPlace ((built crowded).below crowdedPlace) := by
  have hlegible : LegibleBelow crowded crowdedPlace := by
    intro rest hfile
    have hall : ∀ file ∈ Addition.files crowded, ∀ left ∈ Affix.after? crowdedPlace.steps file,
        left = (Step.shownNames left).map .ofText := by decide +kernel
    exact ⟨_, hall _ hfile rest (Affix.after?_eq_some_iff.mpr rfl)⟩
  exact ⟨by decide +kernel, hlegible, ⟨by decide +kernel, by decide +kernel⟩,
    (listing_complete crowded crowdedPlace).2 hlegible⟩

/-- Two files whose names are no texts and are shown alike. -/
def illegible : List Addition :=
  [.one ⟨Text.bytes "/p/" ++ [0xFE]⟩, .one ⟨Text.bytes "/p/" ++ [0xFF]⟩]

/-- Both are listed under one place, which leads to neither of them. -/
theorem illegible_unlisted :
    ¬∀ (additions : List Addition) (p : Path), NamedBelow additions p →
      Listed additions p ((built additions).below p) := by
  intro hlisted
  have hnamed : NamedBelow illegible (.ofText "/p") := by
    intro rest hfile
    have hall : ∀ file ∈ Addition.files illegible,
        ∀ left ∈ Affix.after? (Path.ofText "/p").steps file,
          left = (left.map Step.label).map .name := by decide +kernel
    exact ⟨_, hall _ hfile rest (Affix.after?_eq_some_iff.mpr rfl)⟩
  have hplaces : ((built illegible).below (.ofText "/p")).map Found.place =
      ["\uFFFD", "\uFFFD"] := by decide +kernel
  have hdistinct := (hlisted illegible (.ofText "/p") hnamed).distinct
  rw [hplaces] at hdistinct
  simp at hdistinct

end PathSet

end EntryPoints
