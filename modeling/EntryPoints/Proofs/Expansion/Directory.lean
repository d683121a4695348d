import EntryPoints.Proofs.Expansion.Rows
import EntryPoints.Proofs.FileSet
import EntryPoints.Proofs.Path.Spelled

/-!
# The directory of a target

Where the files of a rule are looked for. The front of a target names a directory below the root
unless a second slash follows its leading `./`: joined to the root, an absolute path replaces it.
-/

set_option autoImplicit false

namespace EntryPoints.Expansion

/-- Every target starts as those that a choice yields do. -/
def Dotted (offers : Table Offer) : Prop :=
  ∀ k t : String, offers[k]? = some (.target t) → Text.startsWith "./" t = true

theorem dotted_row (k t : String) (h : Text.startsWith "./" t = true) :
    Dotted (.ofRows [(k, .target t)]) := by
  intro k' t' ht
  have hrow := (Table.get_ofList Text.byteOrder _ (List.pairwise_singleton _ _) k' _).mp ht
  simp only [List.mem_singleton, Prod.mk.injEq, Offer.target.injEq] at hrow
  rw [hrow.2]
  exact h

/-- What the front of a target names, taken from the root. -/
def relative (front : String) : String :=
  Text.trimEnd '/' ((Text.after? "./" front).getD front)

theorem directory_eq (root : Path) (front : String) : directory root front =
    if relative front = "" then root else root.join (.ofText (relative front)) := rfl

theorem relative_lead (rest : String) : relative ("./" ++ rest) = Text.trimEnd '/' rest := by
  rw [relative, Text.after?_eq_some_iff.mpr rfl, Option.getD_some]

/-- The front names an absolute path, so the root has no part in the directory. -/
def Escapes (front : String) : Prop := (Path.ofText (relative front)).isAbsolute = true

instance (front : String) : Decidable (Escapes front) := inferInstanceAs (Decidable (_ = true))

theorem relative_ne_empty (front : String) (h : Escapes front) : relative front ≠ "" := by
  intro hempty
  rw [Escapes, hempty] at h
  exact absurd h (by decide)

/-- A second slash follows the leading `./`, and later something else does. -/
theorem directory_of_escapes (root : Path) (front : String) (h : Escapes front) :
    directory root front = .ofText (relative front) := by
  rw [directory_eq, if_neg (relative_ne_empty front h), Path.join]
  exact if_pos h

theorem prefix_directory (root : Path) (front : String) (h : ¬Escapes front) :
    root.steps <+: (directory root front).steps := by
  rw [directory_eq]
  split
  · exact List.prefix_refl _
  · exact Path.steps_prefix_join root (.ofText (relative front)) (Bool.eq_false_iff.mpr h)

theorem steps_directory (root : Path) (rest : String) (hroot : root.bytes ≠ [])
    (h : ¬Escapes ("./" ++ rest)) :
    (directory root ("./" ++ rest)).steps = root.steps ++ Path.spelled ("./" ++ rest) := by
  rw [Escapes, relative_lead] at h
  rw [directory_eq, relative_lead, Path.spelled_lead, ← Path.spelled_trimEnd rest]
  split
  · rename_i hempty
    rw [hempty, Path.spelled_empty, List.append_nil]
  · exact Path.steps_join root (.ofText _) hroot (Bool.eq_false_iff.mpr h)

theorem rows_files (rule : Rule) (root : Path) (set : FileSet) :
    rule.rows root set.view =
      if set.contains (rule.directory root) = true then
        .ok ((set.below (rule.directory root)).filterMap rule.row?)
      else .error (.directoryNotFound (rule.directory root)) := rfl

theorem refusal_files (rule : Rule) (root : Path) (set : FileSet) :
    rule.refusal? root set.view =
      if set.contains (rule.directory root) = true then none
      else some (.directoryNotFound (rule.directory root)) := by
  rw [Rule.refusal?, rows_files]
  by_cases hdir : set.contains (rule.directory root) = true
  · simp only [if_pos hdir]
  · simp only [if_neg hdir]

/-- Sound offers are expanded with a set of files as soon as all their directories exist. -/
theorem expand_files (offers : Table Offer) (root : Path) (set : FileSet) :
    (∃ flat, expand offers (some root) set.view = .ok flat) ↔ firstDefect? offers = none ∧
      ∀ rule ∈ rules offers, set.contains (rule.directory root) = true := by
  have hopen : (rules offers).findSome? (fun rule => rule.refusal? root set.view) = none ↔
      ∀ rule ∈ rules offers, set.contains (rule.directory root) = true := by
    simp [List.findSome?_eq_none_iff, refusal_files]
  rw [expand_eq, ← hopen]
  cases firstDefect? offers with
  | some e => simp
  | none => cases (rules offers).findSome? fun rule => rule.refusal? root set.view <;> simp

theorem yields_files (rule : Rule) (root : Path) (set : FileSet) (k v : String) :
    rule.Yields root set.view k v ↔ ∃ rest s, rest ≠ [] ∧
      (rule.directory root).steps ++ rest ∈ set.files ∧
      Step.slashed rest = s ++ rule.target.back ∧
      k = rule.subpath.fill s ∧ v = rule.target.fill s := by
  constructor
  · rintro ⟨listing, hlisting, found, hfound, -, s, hs⟩
    obtain rfl : set.below (rule.directory root) = listing := Except.ok.inj hlisting
    obtain ⟨rest, hne, hfile, rfl⟩ := (FileSet.mem_below set _ found).mp hfound
    exact ⟨rest, s, hne, hfile, hs⟩
  · rintro ⟨rest, s, hne, hfile, hs⟩
    exact ⟨_, rfl, ⟨Step.slashed rest, true⟩,
      (FileSet.mem_below set _ _).mpr ⟨rest, hne, hfile, rfl⟩, rfl, s, hs⟩

end EntryPoints.Expansion
