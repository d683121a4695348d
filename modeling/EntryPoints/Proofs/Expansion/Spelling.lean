import EntryPoints.Proofs.Expansion.Directory
import EntryPoints.Proofs.PathSet

/-!
# Other spellings

Neither the way in which the files of a set are spelled and added nor the spelling of a path that
it is asked about has a part in the answers. A root hands its spelling on to the directories below
it, which messages show; an expansion therefore comes to the same table, or to an error of the same
code.
-/

set_option autoImplicit false

namespace EntryPoints

theorem Path.steps_join_congr (base other rel : Path) (h : base.steps = other.steps) :
    (base.join rel).steps = (other.join rel).steps := by
  by_cases habsolute : rel.isAbsolute = true
  · rw [join, join, if_pos habsolute, if_pos habsolute]
  rw [Bool.not_eq_true] at habsolute
  by_cases hempty : base.bytes = []
  · have hother : other.bytes = [] := by
      rw [bytes_eq_nil_iff, ← h, ← bytes_eq_nil_iff, hempty]
    rw [join, join, hempty, hother]
  · have hother : other.bytes ≠ [] := by
      rwa [ne_eq, bytes_eq_nil_iff, ← h, ← bytes_eq_nil_iff]
    rw [steps_join base rel hempty habsolute, steps_join other rel hother habsolute, h]

namespace FileSet

theorem contains_respelled (set : FileSet) (p q : Path) (h : p.steps = q.steps) :
    set.contains p = set.contains q := by
  rw [contains, contains, h]

theorem below_respelled (set : FileSet) (p q : Path) (h : p.steps = q.steps) :
    set.below p = set.below q := by
  rw [below, below, remainders, remainders, h]

end FileSet

namespace Expansion

/-- The same result, or two errors of one code. -/
def Alike {α : Type} (result other : Except Error α) : Prop :=
  result.mapError Error.code = other.mapError Error.code

theorem Alike.bind {α β : Type} {result other : Except Error α} (h : Alike result other)
    (f g : α → Except Error β) (hrest : ∀ a, Alike (f a) (g a)) :
    Alike (result.bind f) (other.bind g) := by
  unfold Alike at h
  cases result with
  | error e =>
    cases other with
    | error e' => exact congrArg Except.error (Except.error.inj h)
    | ok a => simp [Except.mapError] at h
  | ok a =>
    cases other with
    | error e => simp [Except.mapError] at h
    | ok b =>
      obtain rfl : a = b := Except.ok.inj h
      exact hrest a

theorem alike_missing {α : Type} (p q : Path) : Alike (α := α)
    (.error (.directoryNotFound p)) (.error (.directoryNotFound q)) := rfl

variable (p q : Path) (set : FileSet)

theorem directory_respelled (front : String) (h : p.steps = q.steps) :
    (directory p front).steps = (directory q front).steps := by
  rw [directory_eq, directory_eq]
  split
  · exact h
  · exact Path.steps_join_congr p q _ h

theorem rows_respelled (rule : Rule) (h : p.steps = q.steps) :
    Alike (rule.rows p set.view) (rule.rows q set.view) := by
  have hdirectory : (rule.directory p).steps = (rule.directory q).steps :=
    directory_respelled p q _ h
  rw [rows_files, rows_files, set.contains_respelled _ _ hdirectory,
    set.below_respelled _ _ hdirectory]
  split
  · exact rfl
  · exact alike_missing _ _

theorem applyRules_respelled (rs : List Rule) (flat : Table String) (h : p.steps = q.steps) :
    Alike (applyRules p set.view rs flat) (applyRules q set.view rs flat) := by
  induction rs generalizing flat with
  | nil => exact rfl
  | cons rule rs ih =>
    rw [applyRules, applyRules]
    exact (rows_respelled p q set rule h).bind _ _ fun rows => ih (addNew flat rows)

theorem expand_respelled (offers : Table Offer) (h : p.steps = q.steps) :
    Alike (expand offers (some p) set.view) (expand offers (some q) set.view) := by
  rw [expand, expand]
  cases firstDefect? offers with
  | some e => exact rfl
  | none => exact (applyRules_respelled p q set (rules offers) ∅ h).bind _ _ fun _ => rfl

end Expansion

namespace PathSet
open Expansion

/-- Two histories that add the same files make sets that answer alike: whatever spellings each of
them has kept, and however the path or the root is spelled, both answer as the set of the steps of
those files does. -/
theorem answers_respelled (additions others : List Addition)
    (hsame : Addition.Same additions others) (p q : Path) (h : p.steps = q.steps) :
    (built additions).view = (FileSet.built additions).view ∧
    (built additions).contains p = (built others).contains q ∧
    (built additions).below p = (built others).below q ∧
    ∀ offers, Alike (expand offers (some p) (built additions).view)
      (expand offers (some q) (built others).view) := by
  have hadditions := spells_built additions
  have hothers := spells_built others
  rw [FileSet.built_same additions others hsame] at hadditions ⊢
  refine ⟨hadditions.view, ?_, ?_, fun offers => ?_⟩
  · rw [hadditions.contains, hothers.contains, FileSet.contains_respelled _ p q h]
  · rw [hadditions.below, hothers.below, FileSet.below_respelled _ p q h]
  · rw [hadditions.view, hothers.view]
    exact expand_respelled p q _ offers h

/-- A file added twice, under texts with doubled, inner and trailing separators. -/
def loose : List Addition :=
  [.one (.ofText "/pkg//dist/a.js"),
    .several [.ofText "/pkg/./dist/sub/b.js/", .ofText "/pkg/dist/a.js"]]

def tidy : List Addition := [.several [.ofText "/pkg/dist/sub/b.js", .ofText "/pkg/dist/a.js"]]

def loosePlace : Path := .ofText "//pkg/dist/."

def tidyPlace : Path := .ofText "/pkg/dist/"

theorem answers_respelled_loose :
    Addition.Same loose tidy ∧ loosePlace.steps = tidyPlace.steps ∧
    (built loose).contains loosePlace = (built tidy).contains tidyPlace ∧
    (built tidy).contains tidyPlace = true ∧
    (built loose).below loosePlace = (built tidy).below tidyPlace ∧
    (built tidy).below tidyPlace = [⟨"a.js", true⟩, ⟨"sub/b.js", true⟩] ∧
    ∀ offers, Alike (expand offers (some loosePlace) (built loose).view)
      (expand offers (some tidyPlace) (built tidy).view) := by
  have hforth : ∀ file ∈ Addition.files loose, file ∈ Addition.files tidy := by decide +kernel
  have hback : ∀ file ∈ Addition.files tidy, file ∈ Addition.files loose := by decide +kernel
  have hsame : Addition.Same loose tidy := fun file => ⟨hforth file, hback file⟩
  have hsteps : loosePlace.steps = tidyPlace.steps := by decide +kernel
  obtain ⟨-, hcontains, hbelow, hexpand⟩ := answers_respelled loose tidy hsame _ _ hsteps
  exact ⟨hsame, hsteps, hcontains, by decide +kernel, hbelow, by decide +kernel, hexpand⟩

end PathSet

end EntryPoints
