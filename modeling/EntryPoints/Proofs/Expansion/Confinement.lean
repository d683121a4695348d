import EntryPoints.Proofs.Expansion.Directory

/-!
# Files outside the root

Expansion looks at files through the directories of its rules alone. Where all of them lie below
the root, the files outside it have no influence. A target that names an absolute path is looked up
outside, and then files that appear there change the result: the two cases are told apart exactly.
-/

set_option autoImplicit false

namespace EntryPoints.Expansion
open FileSet

theorem rows_congr (rule : Rule) (root : Path) (set other : FileSet)
    (h : AgreeBelow root set other) (hdir : root.steps <+: (rule.directory root).steps) :
    rule.rows root set.view = rule.rows root other.view := by
  rw [rows_files, rows_files, contains_congr root _ set other h hdir,
    below_congr root _ set other h hdir]

theorem applyRules_congr (root : Path) (view other : FileView) (rs : List Rule)
    (flat : Table String) (h : ∀ rule ∈ rs, rule.rows root view = rule.rows root other) :
    applyRules root view rs flat = applyRules root other rs flat := by
  induction rs generalizing flat with
  | nil => rfl
  | cons rule rs ih =>
    obtain ⟨hrule, hrest⟩ := List.forall_mem_cons.mp h
    rw [applyRules, applyRules, hrule]
    exact bind_congr fun rows => ih (addNew flat rows) hrest

theorem expand_congr (offers : Table Offer) (root : Path) (set other : FileSet)
    (h : AgreeBelow root set other)
    (hdirs : ∀ rule ∈ rules offers, root.steps <+: (rule.directory root).steps) :
    expand offers (some root) set.view = expand offers (some root) other.view := by
  have hrows : ∀ rule ∈ rules offers, rule.rows root set.view = rule.rows root other.view :=
    fun rule hrule => rows_congr rule root set other h (hdirs rule hrule)
  unfold expand
  simp only [applyRules_congr root set.view other.view (rules offers) ∅ hrows]

/-- Whatever the files, those that do not lie below the root are without influence. -/
def Confined (offers : Table Offer) (root : Path) : Prop :=
  ∀ paths others : List Path, AgreeBelow root (.ofPaths paths) (.ofPaths others) →
    expand offers (some root) (FileSet.ofPaths paths).view =
      expand offers (some root) (FileSet.ofPaths others).view

theorem confined_of_defect (offers : Table Offer) (root : Path) (h : firstDefect? offers ≠ none) :
    Confined offers root := by
  intro paths others _
  obtain ⟨e, he⟩ := Option.ne_none_iff_exists'.mp h
  rw [expand_eq, expand_eq, he]

theorem confined_of_below (offers : Table Offer) (root : Path)
    (h : ∀ rule ∈ rules offers, root.steps <+: (rule.directory root).steps) :
    Confined offers root := by
  intro paths others hagree
  exact expand_congr offers root _ _ hagree h

theorem comparable_of_confined (offers : Table Offer) (root : Path)
    (hsound : firstDefect? offers = none) (h : Confined offers root) (rule : Rule)
    (hrule : rule ∈ rules offers) :
    root.steps <+: (rule.directory root).steps ∨ (rule.directory root).steps <+: root.steps := by
  by_contra hapart
  -- Files at all directories of the rules, against those of them that lie below the root.
  let inside := (directories offers root).filter fun p => decide (root.steps <+: p.steps)
  have hagree : AgreeBelow root (.ofPaths inside) (.ofPaths (directories offers root)) := by
    intro file hfile
    rw [mem_ofPaths, mem_ofPaths]
    constructor
    · rintro ⟨p, hp, rfl⟩
      exact ⟨p, (List.mem_filter.mp hp).1, rfl⟩
    · rintro ⟨p, hp, rfl⟩
      exact ⟨p, List.mem_filter.mpr ⟨hp, decide_eq_true hfile⟩, rfl⟩
  have hmissing : (FileSet.ofPaths inside).contains (rule.directory root) = false := by
    rw [Bool.eq_false_iff, ne_eq, contains_iff]
    rintro ⟨file, hfile, hdir⟩
    obtain ⟨p, hp, rfl⟩ := (mem_ofPaths inside file).mp hfile
    have hroot := of_decide_eq_true (List.mem_filter.mp hp).2
    exact hapart (List.prefix_or_prefix_of_prefix hroot hdir)
  have hpresent : ∀ r ∈ rules offers,
      (FileSet.ofPaths (directories offers root)).contains (r.directory root) = true := by
    intro r hr
    have hmem : r.directory root ∈ directories offers root := List.mem_map_of_mem hr
    exact (contains_iff _ _).mpr ⟨_, (mem_ofPaths _ _).mpr ⟨_, hmem, rfl⟩, List.prefix_refl _⟩
  have hlisted := (expand_files offers root _).mpr ⟨hsound, hpresent⟩
  rw [← h _ _ hagree, expand_files] at hlisted
  have hfound := hlisted.2 rule hrule
  rw [hmissing] at hfound
  simp at hfound

/-- A relative root, apart from all absolute paths. -/
def elsewhere : Path := .ofText "elsewhere"

theorem escapes_apart (rule : Rule) (h : Escapes rule.target.front) :
    ¬(elsewhere.steps <+: (rule.directory elsewhere).steps ∨
      (rule.directory elsewhere).steps <+: elsewhere.steps) := by
  have hsteps : elsewhere.steps = [.ofText "elsewhere"] := by decide +kernel
  rw [Rule.directory, directory_of_escapes _ _ h, Path.steps_of_isAbsolute _ h, hsteps]
  simp [Step.ofText, List.cons_prefix_cons]

/-- The files outside the root are without influence on the expansion of some offers, whatever the
root, exactly when the offers are refused for themselves or none of their targets names an absolute
path. -/
theorem confined_iff (offers : Table Offer) : (∀ root, Confined offers root) ↔
    firstDefect? offers ≠ none ∨ ∀ rule, Declares offers rule → ¬Escapes rule.target.front := by
  constructor
  · intro hconfined
    by_cases hsound : firstDefect? offers = none
    · right
      intro rule hrule hescapes
      apply escapes_apart rule hescapes
      exact comparable_of_confined offers elsewhere hsound (hconfined elsewhere) rule
        ((mem_rules offers rule).mpr hrule)
    · exact Or.inl hsound
  · rintro (hdefect | hstays) root
    · exact confined_of_defect offers root hdefect
    · apply confined_of_below offers root
      intro rule hrule
      exact prefix_directory root _ (hstays rule ((mem_rules offers rule).mp hrule))

/-- A target whose second slash makes the rest of it an absolute path. -/
def outsider : Table Offer := .ofRows [("./*", .target ".//etc/*")]

/-- A file below `/etc` is listed from the root `/pkg`. -/
theorem outsider_not_confined :
    ¬∀ (offers : Table Offer) (root : Path), Dotted offers → Confined offers root := by
  intro hconfined
  have hagree : AgreeBelow (.ofText "/pkg") (.ofPaths [.ofText "/pkg/index.js"])
      (.ofPaths [.ofText "/pkg/index.js", .ofText "/etc/passwd"]) := by
    intro file hfile
    rw [mem_ofPaths, mem_ofPaths]
    constructor
    · rintro ⟨p, hp, rfl⟩
      exact ⟨p, List.mem_append_left [_] hp, rfl⟩
    · rintro ⟨p, hp, rfl⟩
      rcases List.mem_cons.mp hp with rfl | hp
      · exact ⟨_, List.mem_singleton_self _, rfl⟩
      · rw [List.mem_singleton.mp hp] at hfile
        exact absurd hfile (by decide +kernel)
  have hsame := hconfined outsider (.ofText "/pkg") (dotted_row _ _ (by decide)) _ _ hagree
  have hmissing : (expand outsider (some (.ofText "/pkg"))
      (FileSet.ofPaths [.ofText "/pkg/index.js"]).view).toOption.isSome = false := by decide +kernel
  have hlisted : (expand outsider (some (.ofText "/pkg")) (FileSet.ofPaths
      [.ofText "/pkg/index.js", .ofText "/etc/passwd"]).view).toOption.isSome = true := by
    decide +kernel
  rw [hsame, hlisted] at hmissing
  exact absurd hmissing (by decide)

end EntryPoints.Expansion
