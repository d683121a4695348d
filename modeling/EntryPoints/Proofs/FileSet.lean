import EntryPoints.FileSet
import EntryPoints.Proofs.Path

/-!
# Sets of files by membership

What a set of files answers depends only on the files at or below the path it is asked about.
Two sets that hold the same files there answer alike, listings in the same order included.
-/

set_option autoImplicit false

namespace EntryPoints.FileSet

theorem mem_addAll (set : FileSet) (paths : List Path) (file : List Step) :
    file ∈ (set.addAll paths).files ↔ file ∈ set.files ∨ ∃ p ∈ paths, p.steps = file := by
  induction paths generalizing set with
  | nil => simp [addAll]
  | cons p paths ih =>
    show file ∈ ((set.add p).addAll paths).files ↔ _
    rw [ih, add, Std.ExtTreeSet.mem_insert, Std.LawfulEqCmp.compare_eq_iff_eq]
    simp only [List.mem_cons, exists_eq_or_imp, or_assoc, or_left_comm]

theorem mem_ofPaths (paths : List Path) (file : List Step) :
    file ∈ (ofPaths paths).files ↔ ∃ p ∈ paths, p.steps = file := by
  simp [ofPaths, mem_addAll, empty]

theorem after?_isSome (lead file : List Step) :
    (Affix.after? lead file).isSome = true ↔ lead <+: file := by
  rw [Option.isSome_iff_exists]
  exact exists_congr fun rest => Affix.after?_eq_some_iff.trans eq_comm

theorem contains_iff (set : FileSet) (p : Path) :
    set.contains p = true ↔ ∃ file ∈ set.files, p.steps <+: file := by
  simp only [contains, List.any_eq_true, Std.ExtTreeSet.mem_toList, after?_isSome]

theorem mem_remainders (set : FileSet) (p : Path) (rest : List Step) :
    rest ∈ set.remainders p ↔ rest ≠ [] ∧ p.steps ++ rest ∈ set.files := by
  simp only [remainders, List.mem_filter, List.mem_filterMap, Std.ExtTreeSet.mem_toList,
    Affix.after?_eq_some_iff, Bool.not_eq_true', List.isEmpty_eq_false_iff]
  constructor
  · rintro ⟨⟨_, hfile, rfl⟩, hne⟩
    exact ⟨hne, hfile⟩
  · rintro ⟨hne, hfile⟩
    exact ⟨⟨_, hfile, rfl⟩, hne⟩

theorem mem_below (set : FileSet) (p : Path) (found : Found) : found ∈ set.below p ↔
    ∃ rest, rest ≠ [] ∧ p.steps ++ rest ∈ set.files ∧ found = ⟨Step.slashed rest, true⟩ := by
  simp only [below, List.mem_map, mem_remainders, and_assoc, eq_comm]

/-- The same files at or below a path. -/
def AgreeBelow (root : Path) (set other : FileSet) : Prop :=
  ∀ file, root.steps <+: file → (file ∈ set.files ↔ file ∈ other.files)

theorem contains_congr (root p : Path) (set other : FileSet) (h : AgreeBelow root set other)
    (hp : root.steps <+: p.steps) : set.contains p = other.contains p := by
  rw [Bool.eq_iff_iff, contains_iff, contains_iff]
  exact exists_congr fun file => and_congr_left fun hprefix => h file (hp.trans hprefix)

def under (set : FileSet) (p : Path) : Std.ExtTreeSet (List Step) Step.listOrder :=
  set.files.filter fun file => (Affix.after? p.steps file).isSome

theorem mem_under (set : FileSet) (p : Path) (file : List Step) :
    file ∈ set.under p ↔ file ∈ set.files ∧ p.steps <+: file := by
  rw [under, ← Std.ExtTreeSet.mem_toList, Std.ExtTreeSet.toList_filter, List.mem_filter,
    Std.ExtTreeSet.mem_toList, after?_isSome]

theorem remainders_eq (set : FileSet) (p : Path) : set.remainders p =
    ((set.under p).toList.filterMap (Affix.after? p.steps)).filter fun rest => !rest.isEmpty := by
  rw [remainders, under, Std.ExtTreeSet.toList_filter, List.filterMap_filter]
  congr 2
  funext file
  cases Affix.after? p.steps file <;> rfl

theorem below_congr (root p : Path) (set other : FileSet) (h : AgreeBelow root set other)
    (hp : root.steps <+: p.steps) : set.below p = other.below p := by
  -- A listing keeps the order of the set, so the files it looks at are compared as sets.
  have hunder : set.under p = other.under p := by
    apply Std.ExtTreeSet.ext_mem
    intro file
    rw [mem_under, mem_under]
    exact and_congr_left fun hprefix => h file (hp.trans hprefix)
  rw [below, below, remainders_eq, remainders_eq, hunder]

end EntryPoints.FileSet
