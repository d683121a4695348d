import EntryPoints.Proofs.Path.Shown

/-!
# Slashed paths are a normal form

The names of a path with separators between them: tidy whatever the path, the same when slashed once
more, the same for all spellings of the steps, and the names of a joined path are those of the base
and those of what was joined to it.
-/

set_option autoImplicit false

namespace EntryPoints.Path
open Step

theorem parts_slashed (p : Path) : parts p.slashed = shownNames p.steps :=
  parts_names _ (plain_of_mem_shownNames p)

/-- Any path is slashed to a tidy text, which is left as it is when it is slashed again. The text
depends on the steps of the path alone, and a relative path that is joined to it adds its parts at
the end. -/
theorem slashed_normal (p : Path) :
    Tidy p.slashed ∧
    (ofText p.slashed).slashed = p.slashed ∧
    (∀ q : Path, q.steps = p.steps → q.slashed = p.slashed) ∧
    ∀ q : Path, q.isAbsolute = false →
      parts (p.join q).slashed = parts p.slashed ++ parts q.slashed := by
  refine ⟨tidy_names _ (plain_of_mem_shownNames p),
    slashed_intercalate _ (plain_of_mem_shownNames p), ?_, ?_⟩
  · intro q hsteps
    rw [slashed, slashed, hsteps]
  · intro q hrelative
    rw [parts_slashed, parts_slashed, parts_slashed, shownNames_join p q hrelative]

/-- A path with a name that is not UTF-8. -/
def stray : Path := ⟨Text.bytes "/a//" ++ 0xFF :: Text.bytes "/./../b/"⟩

def strayAgain : Path := ⟨Text.bytes "//a/./" ++ 0xFF :: Text.bytes "/../b"⟩

def further : Path := .ofText "./..//c"

theorem slashed_normal_stray :
    (stray.slashed = "a/\uFFFD/b" ∧ Tidy stray.slashed) ∧
    (strayAgain.bytes ≠ stray.bytes ∧ strayAgain.steps = stray.steps ∧
      strayAgain.slashed = stray.slashed) ∧
    (further.isAbsolute = false ∧
      parts (stray.join further).slashed = parts stray.slashed ++ parts further.slashed) := by
  have hsteps : strayAgain.steps = stray.steps := by decide +kernel
  have hrelative : further.isAbsolute = false := by decide +kernel
  obtain ⟨htidy, -, hrespelled, hjoined⟩ := slashed_normal stray
  exact ⟨⟨by decide +kernel, htidy⟩,
    ⟨by decide +kernel, hsteps, hrespelled strayAgain hsteps⟩,
    hrelative, hjoined further hrelative⟩

end EntryPoints.Path
