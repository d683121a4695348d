import Mathlib.Data.List.Sort
import EntryPoints.Proofs.FileSet
import EntryPoints.Proofs.Path.Remainder

/-!
# Files under their spellings as a set of files

A set that keeps the spelling of each file answers as the set of the files' steps does. Which of two
spellings was kept cannot be told from any answer, so neither can the order of the additions, nor
how they were grouped or repeated.
-/

set_option autoImplicit false

namespace EntryPoints

/-- One way to put files into a set: one at a time or several together. -/
inductive Addition where
  | one (path : Path)
  | several (paths : List Path)

namespace Addition

def paths : Addition → List Path
  | one path => [path]
  | several paths => paths

/-- The files that are put into a set, told by their steps. -/
def files (additions : List Addition) : List (List Step) :=
  additions.flatMap fun addition => addition.paths.map Path.steps

/-- The same files are put into a set, in whatever order and however they are spelled. -/
def Same (additions others : List Addition) : Prop :=
  ∀ file, file ∈ files additions ↔ file ∈ files others

end Addition

namespace FileSet

def extend (set : FileSet) : Addition → FileSet
  | .one path => set.add path
  | .several paths => set.addAll paths

def extendAll (set : FileSet) (additions : List Addition) : FileSet := additions.foldl extend set

def built (additions : List Addition) : FileSet := empty.extendAll additions

theorem ext_files (set other : FileSet) (h : ∀ file, file ∈ set.files ↔ file ∈ other.files) :
    set = other := by
  obtain ⟨files⟩ := set
  obtain ⟨files'⟩ := other
  exact congrArg FileSet.mk (Std.ExtTreeSet.ext_mem fun {file} => h file)

theorem extend_eq (set : FileSet) (addition : Addition) :
    set.extend addition = set.addAll addition.paths := by
  cases addition <;> rfl

theorem mem_extendAll (set : FileSet) (additions : List Addition) (file : List Step) :
    file ∈ (set.extendAll additions).files ↔
      file ∈ set.files ∨ file ∈ Addition.files additions := by
  induction additions generalizing set with
  | nil => simp [extendAll, Addition.files]
  | cons addition rest ih =>
    show file ∈ ((set.extend addition).extendAll rest).files ↔ _
    rw [ih, extend_eq, mem_addAll, or_assoc]
    simp [Addition.files]

theorem mem_built (additions : List Addition) (file : List Step) :
    file ∈ (built additions).files ↔ file ∈ Addition.files additions := by
  rw [built, mem_extendAll]
  exact or_iff_right Std.ExtTreeSet.not_mem_empty

theorem built_same (additions others : List Addition) (h : Addition.Same additions others) :
    built additions = built others := by
  apply ext_files
  intro file
  rw [mem_built, mem_built, h file]

end FileSet

namespace PathSet

def extend (set : PathSet) : Addition → PathSet
  | .one path => set.add path
  | .several paths => set.addAll paths

def extendAll (set : PathSet) (additions : List Addition) : PathSet := additions.foldl extend set

def built (additions : List Addition) : PathSet := empty.extendAll additions

theorem order_eq_iff (p q : Path) : Path.order p q = .eq ↔ p.steps = q.steps := by
  rw [Path.order, Std.LawfulEqCmp.compare_eq_iff_eq]

/-- Paths are in a set as soon as one with the same steps has been kept there. -/
theorem mem_iff_steps (files : Std.ExtTreeSet Path Path.order) (p : Path) :
    p ∈ files ↔ ∃ file ∈ files.toList, file.steps = p.steps := by
  let bySteps : BEq Path := ⟨fun p q => Path.order p q == .eq⟩
  have hlawful : @Std.LawfulBEqCmp Path bySteps Path.order :=
    @Std.LawfulBEqCmp.mk _ bySteps _ (beq_iff_eq (a := Path.order _ _) (b := .eq)).symm
  rw [← Std.ExtTreeSet.contains_iff_mem,
    ← @Std.ExtTreeSet.contains_toList _ _ _ bySteps hlawful, List.contains_iff_exists_mem_beq]
  apply exists_congr
  intro file
  apply and_congr_right
  intro _
  rw [← hlawful.compare_eq_iff_beq, order_eq_iff, eq_comm]

theorem mem_add (set : PathSet) (p : Path) (steps : List Step) :
    (∃ file ∈ (set.add p).files.toList, file.steps = steps) ↔
      p.steps = steps ∨ ∃ file ∈ set.files.toList, file.steps = steps := by
  have hadd (q : Path) : (∃ file ∈ (set.add p).files.toList, file.steps = q.steps) ↔
      p.steps = q.steps ∨ ∃ file ∈ set.files.toList, file.steps = q.steps := by
    rw [← mem_iff_steps, ← mem_iff_steps, ← order_eq_iff]
    exact Std.ExtTreeSet.mem_insert
  constructor
  · rintro ⟨file, hfile, rfl⟩
    exact (hadd file).mp ⟨file, hfile, rfl⟩
  · rintro (rfl | ⟨file, hfile, rfl⟩)
    · exact (hadd p).mpr (Or.inl rfl)
    · exact (hadd file).mpr (Or.inr ⟨file, hfile, rfl⟩)

/-- Two ascending lists with the same members are one list. -/
theorem ascending_ext (files others : List (List Step))
    (hfiles : files.Pairwise fun a b => Step.listOrder a b = .lt)
    (hothers : others.Pairwise fun a b => Step.listOrder a b = .lt)
    (h : ∀ file, file ∈ files ↔ file ∈ others) : files = others := by
  have hirrefl : Std.Irrefl fun a b : List Step => Step.listOrder a b = .lt :=
    ⟨fun a hlt => Std.OrientedCmp.not_lt_of_lt hlt hlt⟩
  have hantisymm : Std.Antisymm fun a b : List Step => Step.listOrder a b = .lt :=
    ⟨fun a b hab hba => absurd hba (Std.OrientedCmp.not_lt_of_lt hab)⟩
  exact hfiles.eq_of_mem_iff hothers h

/-- The spellings in the set are those of the files in the set of files, in its order. -/
def Spells (set : PathSet) (files : FileSet) : Prop :=
  set.files.toList.map Path.steps = files.files.toList

theorem Spells.add {set : PathSet} {files : FileSet} (h : Spells set files) (p : Path) :
    Spells (set.add p) (files.add p) := by
  apply ascending_ext
  · exact List.pairwise_map.mpr (set.add p).files.ordered_toList
  · exact (files.add p).files.ordered_toList
  · intro file
    rw [List.mem_map, mem_add, ← List.mem_map, h, Std.ExtTreeSet.mem_toList,
      Std.ExtTreeSet.mem_toList, FileSet.add, Std.ExtTreeSet.mem_insert,
      Std.LawfulEqCmp.compare_eq_iff_eq]

theorem Spells.addAll {set : PathSet} {files : FileSet} (h : Spells set files)
    (paths : List Path) : Spells (set.addAll paths) (files.addAll paths) := by
  induction paths generalizing set files with
  | nil => exact h
  | cons p rest ih => exact ih (h.add p)

theorem Spells.extendAll {set : PathSet} {files : FileSet} (h : Spells set files)
    (additions : List Addition) :
    Spells (set.extendAll additions) (files.extendAll additions) := by
  induction additions generalizing set files with
  | nil => exact h
  | cons addition rest ih =>
    cases addition with
    | one p => exact ih (h.add p)
    | several paths => exact ih (h.addAll paths)

theorem Spells.contains {set : PathSet} {files : FileSet} (h : Spells set files) (p : Path) :
    set.contains p = files.contains p := by
  rw [PathSet.contains, FileSet.contains, ← h, List.any_map]
  rfl

theorem Spells.below {set : PathSet} {files : FileSet} (h : Spells set files) (p : Path) :
    set.below p = files.below p := by
  -- A remainder is empty as bytes just when it has no steps, and it is listed by its steps alone.
  have hsteps : (set.remainders p).map Path.steps = files.remainders p := by
    have hempty : (fun rest : Path => rest.bytes != []) =
        (fun rest => !rest.isEmpty) ∘ Path.steps := by
      funext rest
      rw [Function.comp_apply, Bool.eq_iff_iff]
      simp [Path.bytes_eq_nil_iff]
    rw [remainders, FileSet.remainders, hempty, ← List.filter_map, List.map_filterMap, ← h,
      List.filterMap_map]
    congr 2
    funext file
    exact file.steps_strip? p
  rw [PathSet.below, FileSet.below, ← hsteps, List.map_map]
  rfl

theorem Spells.view {set : PathSet} {files : FileSet} (h : Spells set files) :
    set.view = files.view := by
  rw [PathSet.view, FileSet.view, FileView.mk.injEq]
  exact ⟨funext h.contains, funext fun p => congrArg Except.ok (h.below p)⟩

theorem spells_built (additions : List Addition) :
    Spells (built additions) (FileSet.built additions) := by
  have hempty : Spells empty FileSet.empty := rfl
  exact hempty.extendAll additions

/-- Of two spellings the first is kept. -/
example : (built [.one (.ofText "/a//b"), .several [.ofText "/a/b/", .ofText "a"]]).files.toList =
    [.ofText "/a//b", .ofText "a"] := by decide +kernel

end PathSet

end EntryPoints
