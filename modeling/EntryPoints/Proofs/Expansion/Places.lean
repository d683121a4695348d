import EntryPoints.Proofs.Expansion.Directory
import EntryPoints.Proofs.Expansion.Meaning
import EntryPoints.Proofs.Path.Shown

/-!
# Where expanded targets lead

An entry made from a pattern comes from a file below the directory that its target names. Joined
to the root, the target leads to that file when the star stands right after a separator and the
names below the directory are texts. Otherwise the part of a name before the star is taken for a
directory, which the target does not show, or it shows names that the file does not have.
-/

set_option autoImplicit false

namespace EntryPoints.Expansion
open Pattern

theorem steps_join_fill (root : Path) (target : Pattern) (s : String) (hroot : root.Normal)
    (hfront : ∃ after, target.front = "./" ++ after) :
    (root.join (.ofText (target.fill s))).steps = root.steps ++ Path.spelled (target.fill s) := by
  obtain ⟨after, hafter⟩ := hfront
  have hrel : (Path.ofText (target.fill s)).isAbsolute = false := by
    rw [fill, hafter, String.append_assoc, String.append_assoc, Path.relative_dotted]
  exact Path.steps_join root _ (root.bytes_ne_nil hroot) hrel

theorem spelled_fill_slash (target : Pattern) (s : String) :
    Path.spelled (target.fill ("/" ++ s)) =
      Path.spelled target.front ++ Path.spelled (s ++ target.back) := by
  have hsplit : target.fill ("/" ++ s) = target.front ++ "/" ++ (s ++ target.back) := by
    rw [fill, ← String.append_assoc, String.append_assoc]
  rw [hsplit, Path.spelled_append]

theorem spelled_fill (target : Pattern) (s lead : String) (h : target.front = lead ++ "/") :
    Path.spelled (target.fill s) =
      Path.spelled target.front ++ Path.spelled (s ++ target.back) := by
  have hsplit : target.fill s = lead ++ "/" ++ (s ++ target.back) := by
    rw [fill, h, String.append_assoc]
  rw [hsplit, Path.spelled_append, h, Path.spelled_separator]

/-- What remains of a file below a directory is read back from what is shown of it. -/
theorem steps_place (root p : Path) (front : String) (rest : List Step) (hroot : root.Normal)
    (hfront : ∃ after, front = "./" ++ after) (hstays : ¬Escapes front)
    (hsteps : p.steps = (directory root front).steps ++ rest) (hlegible : Step.Legible rest) :
    root.steps ++ (Path.spelled front ++ Path.spelled (Step.slashed rest)) =
      (directory root front).steps ++ rest := by
  obtain ⟨after, rfl⟩ := hfront
  have hrest : Path.spelled (Step.slashed rest) = rest := by
    apply hlegible.spelled_slashed
    intro name hname
    apply Step.plain_of_mem_steps p name
    rw [hsteps]
    exact List.mem_append_right _ hname
  rw [hrest, steps_directory root after (root.bytes_ne_nil hroot) hstays, List.append_assoc]

/-- The entry comes from the rule, with a file for it, of which `rest` remains below the rule's
directory. If that is names of texts, the target leads from the root to the file once a separator is
put before what fills its star, and as it is where the front ends in one. -/
structure Placed (offers : Table Offer) (root : Path) (set : FileSet) (k v : String) (rule : Rule)
    (s : String) (rest : List Step) : Prop where
  leads : Leads offers root set.view k rule v
  subpath : k = rule.subpath.fill s
  target : v = rule.target.fill s
  below : rest ≠ []
  file : (rule.directory root).steps ++ rest ∈ set.files
  shown : Step.slashed rest = s ++ rule.target.back
  parted : ¬Escapes rule.target.front → Step.Legible rest →
    (root.join (.ofText (rule.target.fill ("/" ++ s)))).steps =
      (rule.directory root).steps ++ rest
  joined : ¬Escapes rule.target.front → Step.Legible rest →
    ∀ lead, rule.target.front = lead ++ "/" →
      (root.join (.ofText v)).steps = (rule.directory root).steps ++ rest

theorem placed_of_leads (offers : Table Offer) (root : Path) (paths : List Path) (k v : String)
    (rule : Rule) (hroot : root.Normal) (hdotted : Dotted offers)
    (h : Leads offers root (FileSet.ofPaths paths).view k rule v) :
    ∃ s rest, Placed offers root (.ofPaths paths) k v rule s rest := by
  obtain ⟨rest, s, hbelow, hfile, hplace, hk, rfl⟩ := (yields_files rule root _ k v).mp h.yields
  obtain ⟨p, -, hsteps⟩ := (FileSet.mem_ofPaths paths _).mp hfile
  have hfront := front_starts rule.target "./" (by decide) (hdotted _ _ h.declared.offer)
  have hfound (hstays : ¬Escapes rule.target.front) (hlegible : Step.Legible rest) :
      root.steps ++ (Path.spelled rule.target.front ++ Path.spelled (s ++ rule.target.back)) =
        (rule.directory root).steps ++ rest := by
    rw [← hplace]
    exact steps_place root p _ rest hroot hfront hstays hsteps hlegible
  refine ⟨s, rest, h, hk, rfl, hbelow, hfile, hplace, fun hstays hlegible => ?_,
    fun hstays hlegible lead hlead => ?_⟩
  · rw [steps_join_fill root _ _ hroot hfront, spelled_fill_slash]
    exact hfound hstays hlegible
  · rw [steps_join_fill root _ _ hroot hfront, spelled_fill _ s lead hlead]
    exact hfound hstays hlegible

/-- Every entry that comes from a pattern has a file. Its target, joined to the root, leads there
if the star of the pattern stands right after a separator and what is shown of the file is all of
it. -/
theorem expanded_placed (offers : Table Offer) (root : Path) (paths : List Path)
    (flat : Table String) (hroot : root.Normal) (hdotted : Dotted offers)
    (h : expand offers (some root) (FileSet.ofPaths paths).view = .ok flat) (k v : String)
    (hv : flat[k]? = some v) (hpattern : ∀ t, offers[k]? = some (.target t) → stars k ≠ 0) :
    ∃ rule s rest, Placed offers root (.ofPaths paths) k v rule s rest := by
  have hmeaning := meaning_of_expand offers root _ flat h k
  rw [hv] at hmeaning
  cases hmeaning with
  | literal offer plain => exact absurd plain (hpattern _ offer)
  | @expanded rule _ _ _ leads =>
    exact ⟨rule, placed_of_leads offers root paths k v rule hroot hdotted leads⟩

def package : Path := .ofText "/pkg"

theorem package_normal : package.Normal := ⟨[Text.bytes "pkg"], by decide +kernel⟩

/-- A target with two separators before its star. -/
def doubled : Table Offer := .ofRows [("./*", .target "./dist//*.js")]

theorem expanded_placed_doubled :
    ∃ flat, expand doubled (some package)
        (FileSet.ofPaths [.ofText "/pkg/dist/sub/a.js"]).view = .ok flat ∧
      flat["./sub/a"]? = some "./dist//sub/a.js" ∧
      ∃ rule s rest, Placed doubled package (.ofPaths [.ofText "/pkg/dist/sub/a.js"]) "./sub/a"
        "./dist//sub/a.js" rule s rest := by
  have habsent : doubled["./sub/a"]? = none := by decide +kernel
  have hvalue : ((expand doubled (some package)
      (FileSet.ofPaths [.ofText "/pkg/dist/sub/a.js"]).view).toOption.map fun flat =>
        flat["./sub/a"]?) = some (some "./dist//sub/a.js") := by decide +kernel
  obtain ⟨flat, hflat, hv⟩ := ok_of_values _ _ _ hvalue
  exact ⟨flat, hflat, hv, expanded_placed doubled package _ flat package_normal
    (dotted_row _ _ (by decide)) hflat _ _ hv (by simp [habsent])⟩

/-- The target of every entry that comes from a pattern leads from the root to a file. -/
def TargetsExist (offers : Table Offer) (root : Path) (paths : List Path) : Prop :=
  ∀ flat, expand offers (some root) (FileSet.ofPaths paths).view = .ok flat → ∀ k v : String,
    flat[k]? = some v → (∀ t, offers[k]? = some (.target t) → stars k ≠ 0) →
      (root.join (.ofText v)).steps ∈ (FileSet.ofPaths paths).files

/-- A target whose star stands inside a name. -/
def midName : Table Offer := .ofRows [("./f/*", .target "./dist/feat-*.js")]

/-- The part of the name before the star is taken for a directory, and the target has no file. -/
theorem midName_misplaced :
    ¬∀ (offers : Table Offer) (root : Path) (paths : List Path), root.Normal →
      (∀ p ∈ paths, p.Normal) → Dotted offers → TargetsExist offers root paths := by
  intro hplaced
  have hpaths : ∀ p ∈ [Path.ofText "/pkg/dist/feat-/a.js"], p.Normal :=
    List.forall_mem_singleton.mpr
      ⟨["pkg", "dist", "feat-", "a.js"].map Text.bytes, by decide +kernel⟩
  have habsent : midName["./f/a"]? = none := by decide +kernel
  have hvalue : ((expand midName (some package)
      (FileSet.ofPaths [.ofText "/pkg/dist/feat-/a.js"]).view).toOption.map fun flat =>
        flat["./f/a"]?) = some (some "./dist/feat-a.js") := by decide +kernel
  obtain ⟨flat, hflat, hv⟩ := ok_of_values _ _ _ hvalue
  have hfile := hplaced midName package _ package_normal hpaths (dotted_row _ _ (by decide)) flat
    hflat _ _ hv (by simp [habsent])
  obtain ⟨p, hp, hsteps⟩ := (FileSet.mem_ofPaths _ _).mp hfile
  rw [List.mem_singleton.mp hp] at hsteps
  exact absurd hsteps (by decide +kernel)

/-- A file whose name is no text. -/
def strayScript : Path := ⟨Text.bytes "/pkg/dist/" ++ 0xFF :: Text.bytes ".js"⟩

/-- The name is shown with a character that it does not have, and the target has no file. -/
theorem strayScript_misplaced :
    ¬TargetsExist (.ofRows [("./*", .target "./dist/*.js")]) package [strayScript] := by
  intro hplaced
  have habsent : (Table.ofRows [("./*", Offer.target "./dist/*.js")])["./\uFFFD"]? = none := by
    decide +kernel
  have hvalue : ((expand (.ofRows [("./*", .target "./dist/*.js")]) (some package)
      (FileSet.ofPaths [strayScript]).view).toOption.map fun flat =>
        flat["./\uFFFD"]?) = some (some "./dist/\uFFFD.js") := by decide +kernel
  obtain ⟨flat, hflat, hv⟩ := ok_of_values _ _ _ hvalue
  have hfile := hplaced flat hflat _ _ hv (by simp [habsent])
  obtain ⟨p, hp, hsteps⟩ := (FileSet.mem_ofPaths _ _).mp hfile
  rw [List.mem_singleton.mp hp] at hsteps
  exact absurd hsteps (by decide +kernel)

end EntryPoints.Expansion
