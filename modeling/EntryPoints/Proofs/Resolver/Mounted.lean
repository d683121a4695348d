import EntryPoints.Proofs.Disk.Tree
import EntryPoints.Proofs.Path.Tidy
import EntryPoints.Proofs.Resolver.Shape

/-!
# A tree on a disk and the set of its files

A declaration whose targets name their directories by plain names comes to the same whether it is
resolved over a disk, with the tree of a package below its root, or over the set of the paths of
the tree's files. The two list in different orders, and only the disk lists directories.
-/

set_option autoImplicit false

namespace EntryPoints.Resolver
open Expansion Step

/-- Between the leading `./` of a target and its star stand names, each with a separator after it,
and then perhaps the start of another. -/
def Direct (front : String) : Prop :=
  ∃ names last, front = "./" ++ "/".intercalate (names ++ [last]) ∧
    (∀ name ∈ names, Plain (Text.bytes name)) ∧ (last = "" ∨ Plain (Text.bytes last))

theorem trimEnd_names (names : List String) (h : ∀ name ∈ names, Plain (Text.bytes name)) :
    Text.trimEnd '/' ("/".intercalate names) = "/".intercalate names :=
  Text.trimEnd_of_getLast '/' _ (Path.tidy_names names h).unclosed

theorem relative_direct (front : String) (h : Direct front) :
    ∃ names : List String, (∀ name ∈ names, Plain (Text.bytes name)) ∧
      relative front = "/".intercalate names := by
  obtain ⟨names, last, rfl, hnames, hlast⟩ := h
  rw [relative_lead]
  rcases hlast with rfl | hlast
  · refine ⟨names, hnames, ?_⟩
    by_cases hnil : names = []
    · rw [hnil]
      decide
    · rw [String.intercalate_append_of_ne_nil hnil (by simp), String.intercalate_singleton,
        String.append_empty]
      exact (Text.trimEnd_singleton '/' _).trans (trimEnd_names names hnames)
  · have hall : ∀ name ∈ names ++ [last], Plain (Text.bytes name) :=
      List.forall_mem_append.mpr ⟨hnames, List.forall_mem_singleton.mpr hlast⟩
    exact ⟨names ++ [last], hall, trimEnd_names _ hall⟩

theorem directory_direct (root : Path) (front : String) (h : Direct front) :
    ∃ names, (∀ name ∈ names, Plain name) ∧ directory root front = root.under names := by
  obtain ⟨names, hnames, hrelative⟩ := relative_direct front h
  have hplain : ∀ name ∈ names.map Text.bytes, Plain name := by simpa using hnames
  refine ⟨names.map Text.bytes, hplain, ?_⟩
  rw [directory_eq, hrelative]
  by_cases hnil : names = []
  · rw [hnil]
    rfl
  · have hne : names.map Text.bytes ≠ [] := by simpa using hnil
    have hnonempty : "/".intercalate names ≠ "" := by
      intro hempty
      have hbytes := Path.bytes_intercalate names
      rw [hempty] at hbytes
      exact Path.names_ne_empty _ hne hplain hbytes.symm
    rw [if_neg hnonempty, Path.under_of_ne_nil root _ hne, Path.ofText_intercalate]

/-- Over a disk and over the set of the files of a tree on it, a declaration resolves to the same
table or is refused with the same error. -/
theorem flatten_mounted (resolver : Resolver) (v : Json) (request : Request) (disk : Disk)
    (cwd : Place) (root : Path) (base : Place) (hmounted : disk.Mounted cwd root base)
    (hroot : request.root? = some root)
    (hdirect : ∀ offers, resolver.offers v request = .ok offers →
      ∀ rule, Declares offers rule → Direct rule.target.front) :
    resolver.flatten v request (disk.view cwd) =
      resolver.flatten v request (FileSet.ofPaths (disk.files base root)).view := by
  rw [flatten, flatten]
  cases hoffers : resolver.offers v request with
  | error e => rfl
  | ok offers =>
    rw [hroot]
    apply expand_agree
    intro rule hrule
    obtain ⟨names, hnames, hdir⟩ := directory_direct root rule.target.front
      (hdirect offers hoffers rule ((mem_rules offers rule).mp hrule))
    rw [Rule.directory, hdir]
    exact hmounted.agree_under names hnames

/-- A package whose files lie in nested directories. -/
def nested : Disk := ⟨.ofList ([
  (["pkg"], .directory), (["pkg", "dist"], .directory), (["pkg", "dist", "a.js"], .file []),
  (["pkg", "dist", "sub"], .directory), (["pkg", "dist", "sub", "b.js"], .file []),
  (["pkg", "dist", "sub-b.js"], .file [])].map fun (names, entry) => (.ofTexts names, entry))
  Place.order⟩

def nestedRoot : Path := .ofText "/pkg"

def nestedBase : Place := .ofTexts ["pkg"]

def nestedExports : Json := .object [("./*", .string "./dist/*.js")]

theorem flatten_mounted_nested :
    (flatten {} nestedExports { root? := some nestedRoot } (nested.view [])).toOption.map
        (fun flat => flat.toList) = some [("./a", "./dist/a.js"),
          ("./sub-b", "./dist/sub-b.js"), ("./sub/b", "./dist/sub/b.js")] ∧
      flatten {} nestedExports { root? := some nestedRoot } (nested.view []) =
        flatten {} nestedExports { root? := some nestedRoot }
          (FileSet.ofPaths (nested.files nestedBase nestedRoot)).view := by
  refine ⟨by decide +kernel, flatten_mounted {} nestedExports _ nested [] nestedRoot nestedBase
    (by decide +kernel) rfl ?_⟩
  have hrules : (offers {} nestedExports { root? := some nestedRoot }).toOption.map rules =
      some [⟨⟨"./", ""⟩, ⟨"./dist/", ".js"⟩⟩] := by decide +kernel
  intro offers hoffers rule hrule
  rw [hoffers] at hrules
  have hmem := (mem_rules offers rule).mpr hrule
  rw [Option.some_inj.mp hrules, List.mem_singleton] at hmem
  exact ⟨["dist"], "", by rw [hmem]; decide, by decide +kernel, Or.inl rfl⟩

end EntryPoints.Resolver
