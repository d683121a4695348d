import EntryPoints.Proofs.Disk.Walk
import EntryPoints.Proofs.Expansion.Agreement
import EntryPoints.Proofs.FileSet
import EntryPoints.Proofs.Path.Under

/-!
# Trees on a disk

A tree of directories and files on a disk, and the set of the paths of its files. Names lead from
the root of the tree to the entry that stands at their place, so the disk and the set agree about
every path of names below the root: it exists for both or for neither, with the same files below.
-/

set_option autoImplicit false

namespace EntryPoints.Disk
open Step

/-- The root leads to a directory, and what lies below is a tree of directories and files, with a
file below every directory. What is there is found by its path, which has no name and no length
that a system refuses. -/
structure Mounted (disk : Disk) (cwd : Place) (root : Path) (base : Place) : Prop where
  leads : disk.resolve cwd root = .ok base
  directory : disk.entry? base = some .directory
  plain : ∀ names entry, disk.entry? (base ++ names) = some entry → ∀ name ∈ names, Plain name
  unlinked : ∀ names target, disk.entry? (base ++ names) ≠ some (.link target)
  filled : ∀ names, disk.entry? (base ++ names) = some .directory →
    ∃ rest content, disk.entry? (base ++ names ++ rest) = some (.file content)
  found : ∀ names entry, disk.entry? (base ++ names) = some entry →
    disk.contains cwd (root.under names) = true

/-- The paths of the files of a tree. -/
def files (disk : Disk) (base : Place) (root : Path) : List Path :=
  (disk.contents base).filterMap fun (names, entry) =>
    if entry.isFile then some (root.under names) else none

theorem mem_contents (disk : Disk) (place names : Place) (entry : Entry) :
    (names, entry) ∈ disk.contents place ↔
      names ≠ [] ∧ disk.entry? (place ++ names) = some entry := by
  have hentry (hne : names ≠ []) : disk.entry? (place ++ names) = disk.entries[place ++ names]? :=
    if_neg (by simp [hne])
  rw [contents, List.mem_filterMap]
  constructor
  · rintro ⟨⟨key, entry'⟩, hmem, hrow⟩
    cases hafter : Affix.after? place key with
    | none => simp [hafter] at hrow
    | some rest =>
      rw [Affix.after?_eq_some_iff.mp hafter] at hmem
      cases rest with
      | nil => simp [hafter] at hrow
      | cons name rest =>
        simp only [hafter, Option.some.injEq, Prod.mk.injEq] at hrow
        obtain ⟨rfl, rfl⟩ := hrow
        exact ⟨by simp, (hentry (by simp)).trans
          (Std.ExtTreeMap.mem_toList_iff_getElem?_eq_some.mp hmem)⟩
  · rintro ⟨hne, hget⟩
    rw [hentry hne] at hget
    refine ⟨(place ++ names, entry), Std.ExtTreeMap.mem_toList_iff_getElem?_eq_some.mpr hget, ?_⟩
    obtain ⟨name, rest, rfl⟩ := List.exists_cons_of_ne_nil hne
    have hafter : Affix.after? place (place ++ name :: rest) = some (name :: rest) :=
      Affix.after?_eq_some_iff.mpr rfl
    simp only [hafter]

theorem isFile_iff (entry : Entry) : entry.isFile = true ↔ ∃ content, entry = .file content := by
  cases entry <;> simp [Entry.isFile]

/-- A file strictly below a place, as listings show it. -/
def Shown (disk : Disk) (place : Place) (found : Found) : Prop :=
  ∃ more content, more ≠ [] ∧ disk.entry? (place ++ more) = some (.file content) ∧
    found = ⟨Step.slashed (more.map .name), true⟩

theorem mem_contents_found (disk : Disk) (place : Place) (found : Found)
    (hfile : found.isFile = true) :
    found ∈ (disk.contents place).map (fun (names, entry) => Disk.found names entry) ↔
      Shown disk place found := by
  rw [List.mem_map]
  constructor
  · rintro ⟨⟨more, entry⟩, hmem, rfl⟩
    obtain ⟨hne, hentry⟩ := (mem_contents disk place more entry).mp hmem
    obtain ⟨content, rfl⟩ := (isFile_iff entry).mp hfile
    exact ⟨more, content, hne, hentry, rfl⟩
  · rintro ⟨more, content, hne, hentry, rfl⟩
    exact ⟨(more, .file content), (mem_contents disk place more _).mpr ⟨hne, hentry⟩, rfl⟩

theorem resolve_eq_ok (disk : Disk) (cwd place : Place) (path : Path) :
    disk.resolve cwd path = .ok place ↔ acceptPath path = .ok () ∧
      disk.walk .followed linkLimit (origin cwd path) path.segments = .ok place := by
  rw [resolve]
  cases acceptPath path <;> simp [bind, Except.bind]

theorem contains_iff (disk : Disk) (cwd : Place) (path : Path) :
    disk.contains cwd path = true ↔
      ∃ place, disk.resolve cwd path = .ok place ∧ (disk.entry? place).isSome = true := by
  rw [contains, stat]
  cases hresolve : disk.resolve cwd path with
  | error fault => simp [bind, Except.bind]
  | ok place => cases hentry : disk.entry? place <;> simp [bind, Except.bind, hentry]

theorem acceptPath_ok (path : Path) (h : acceptPath path = .ok ()) :
    path.bytes ≠ [] ∧ path.bytes.length ≤ pathLimit := by
  unfold acceptPath at h
  split at h
  · simp at h
  split at h
  · simp at h
  split at h
  · simp at h
  · exact ⟨‹_›, by omega⟩

namespace Mounted

variable {disk : Disk} {cwd : Place} {root : Path} {base : Place}

theorem root_ne_empty (h : disk.Mounted cwd root base) : root.bytes ≠ [] :=
  (acceptPath_ok root ((resolve_eq_ok disk cwd base root).mp h.leads).1).1

/-- A path of names below the root is walked by its names from where the root leads. -/
theorem walk_under (h : disk.Mounted cwd root base) (names : List Bytes)
    (hnames : ∀ name ∈ names, Plain name) (place : Place)
    (hplace : disk.resolve cwd (root.under names) = .ok place) :
    ∃ links, disk.walk .followed links base names = .ok place := by
  by_cases hnil : names = []
  · rw [hnil, Path.under_nil, h.leads] at hplace
    rw [hnil, ← Except.ok.inj hplace]
    exact ⟨0, disk.walk_nil 0 base⟩
  have hrelative := Path.relative_names names hnames
  rw [Path.under_of_ne_nil root names hnil] at hplace
  obtain ⟨-, hwalk⟩ := (resolve_eq_ok disk cwd place _).mp hplace
  obtain ⟨-, hroot⟩ := (resolve_eq_ok disk cwd base root).mp h.leads
  obtain ⟨before, hsegments, hbefore⟩ :=
    Path.segments_join root (.ofSegments names) h.root_ne_empty hrelative
  rw [hsegments, Path.segments_names names hnil hnames, origin,
    Path.isAbsolute_join root _ h.root_ne_empty hrelative] at hwalk
  obtain ⟨mid, links, hmid, hrest⟩ :=
    disk.walk_split .followed linkLimit _ place before names (Or.inl rfl) hwalk
  -- The root's own walk may end in an empty segment more, which stays where it is.
  have hbase : base = mid := by
    rcases hbefore with hsame | htail
    · rw [hsame, origin, hmid] at hroot
      exact (Except.ok.inj hroot).symm
    · rw [htail] at hroot
      obtain ⟨mid', links', hmid', hlast⟩ :=
        disk.walk_split .followed linkLimit _ base before [[]] (Or.inl rfl) hroot
      rw [origin, hmid] at hmid'
      rw [disk.walk_empty links' mid' base hlast, ← Except.ok.inj hmid']
  exact ⟨links, hbase ▸ hrest⟩

theorem resolve_under (h : disk.Mounted cwd root base) (names : List Bytes)
    (hnames : ∀ name ∈ names, Plain name) (place : Place)
    (hplace : disk.resolve cwd (root.under names) = .ok place) :
    place = base ++ names ∧ (disk.entry? place).isSome = true := by
  obtain ⟨links, hwalk⟩ := h.walk_under names hnames place hplace
  exact disk.walk_names links base place names hnames h.unlinked (by simp [h.directory]) hwalk

theorem resolve_entry (h : disk.Mounted cwd root base) (names : List Bytes) (entry : Entry)
    (hentry : disk.entry? (base ++ names) = some entry) :
    disk.resolve cwd (root.under names) = .ok (base ++ names) := by
  obtain ⟨place, hplace, -⟩ := (contains_iff disk cwd _).mp (h.found names entry hentry)
  rw [hplace, (h.resolve_under names (h.plain names entry hentry) place hplace).1]

theorem contains_under (h : disk.Mounted cwd root base) (names : List Bytes)
    (hnames : ∀ name ∈ names, Plain name) :
    disk.contains cwd (root.under names) = (disk.entry? (base ++ names)).isSome := by
  rw [Bool.eq_iff_iff]
  constructor
  · intro hcontains
    obtain ⟨place, hplace, hentry⟩ := (contains_iff disk cwd _).mp hcontains
    rwa [← (h.resolve_under names hnames place hplace).1]
  · intro hsome
    obtain ⟨entry, hentry⟩ := Option.isSome_iff_exists.mp hsome
    exact h.found names entry hentry

/-- Whatever has something below it is a directory. -/
theorem directory_above (h : disk.Mounted cwd root base) (names rest : List Bytes)
    (entry : Entry) (hne : rest ≠ [])
    (hentry : disk.entry? (base ++ names ++ rest) = some entry) :
    disk.entry? (base ++ names) = some .directory := by
  rw [List.append_assoc] at hentry
  have hplain := h.plain _ entry hentry
  obtain ⟨links, hwalk⟩ := h.walk_under _ hplain _ (h.resolve_entry _ entry hentry)
  obtain ⟨mid, links', hmid, hrest⟩ :=
    disk.walk_split .followed links base _ names rest (Or.inl rfl) hwalk
  have hnames : ∀ name ∈ names, Plain name :=
    fun name hname => hplain name (List.mem_append_left _ hname)
  have hplace := disk.walk_names links base mid names hnames h.unlinked
    (by simp [h.directory]) hmid
  obtain ⟨name, rest, rfl⟩ := List.exists_cons_of_ne_nil hne
  rw [← hplace.1]
  exact disk.walk_start .followed links' mid _ name rest hrest

theorem isSome_iff_file (h : disk.Mounted cwd root base) (names : List Bytes) :
    (disk.entry? (base ++ names)).isSome = true ↔
      ∃ rest content, disk.entry? (base ++ names ++ rest) = some (.file content) := by
  constructor
  · intro hentry
    obtain ⟨entry, hentry⟩ := Option.isSome_iff_exists.mp hentry
    cases entry with
    | file content => exact ⟨[], content, by rwa [List.append_nil]⟩
    | directory => exact h.filled names hentry
    | link target => exact absurd hentry (h.unlinked names target)
  · rintro ⟨rest, content, hfile⟩
    by_cases hnil : rest = []
    · rw [hnil, List.append_nil] at hfile
      rw [hfile, Option.isSome_some]
    · rw [h.directory_above names rest _ hnil hfile, Option.isSome_some]

theorem mem_files (h : disk.Mounted cwd root base) (file : List Step) :
    file ∈ (FileSet.ofPaths (disk.files base root)).files ↔
      ∃ names content, disk.entry? (base ++ names) = some (.file content) ∧
        file = root.steps ++ names.map .name := by
  have hsteps (names : List Bytes) (content : Bytes)
      (hfile : disk.entry? (base ++ names) = some (.file content)) :
      (root.under names).steps = root.steps ++ names.map .name :=
    Path.steps_under root names h.root_ne_empty (h.plain names _ hfile)
  rw [FileSet.mem_ofPaths]
  constructor
  · rintro ⟨path, hpath, rfl⟩
    obtain ⟨⟨names, entry⟩, hmem, hrow⟩ := List.mem_filterMap.mp hpath
    rw [Option.ite_none_right_eq_some, isFile_iff] at hrow
    obtain ⟨⟨content, rfl⟩, hunder⟩ := hrow
    obtain rfl := Option.some_inj.mp hunder
    obtain ⟨-, hfile⟩ := (mem_contents disk base names _).mp hmem
    exact ⟨names, content, hfile, hsteps names content hfile⟩
  · rintro ⟨names, content, hfile, rfl⟩
    have hne : names ≠ [] := by
      rintro rfl
      rw [List.append_nil, h.directory] at hfile
      simp at hfile
    exact ⟨root.under names, List.mem_filterMap.mpr ⟨(names, .file content),
      (mem_contents disk base names _).mpr ⟨hne, hfile⟩, rfl⟩, hsteps names content hfile⟩

/-- The files of the set at or below a path of names are those of the tree. -/
theorem mem_files_under (h : disk.Mounted cwd root base) (names : List Bytes)
    (hnames : ∀ name ∈ names, Plain name) (rest : List Step) :
    (root.under names).steps ++ rest ∈ (FileSet.ofPaths (disk.files base root)).files ↔
      ∃ more content, disk.entry? (base ++ names ++ more) = some (.file content) ∧
        rest = more.map .name := by
  rw [Path.steps_under root names h.root_ne_empty hnames, h.mem_files, List.append_assoc]
  simp only [List.append_cancel_left_eq]
  constructor
  · rintro ⟨all, content, hfile, hall⟩
    obtain ⟨first, more, rfl, hfirst, rfl⟩ := List.map_eq_append_iff.mp hall.symm
    obtain rfl := List.map_injective_iff.mpr (fun _ _ => Step.name.inj) hfirst
    exact ⟨more, content, by rwa [List.append_assoc], rfl⟩
  · rintro ⟨more, content, hfile, rfl⟩
    exact ⟨names ++ more, content, by rwa [← List.append_assoc], List.map_append.symm⟩

theorem contains_files (h : disk.Mounted cwd root base) (names : List Bytes)
    (hnames : ∀ name ∈ names, Plain name) :
    (FileSet.ofPaths (disk.files base root)).contains (root.under names) =
      (disk.entry? (base ++ names)).isSome := by
  rw [Bool.eq_iff_iff, FileSet.contains_iff, h.isSome_iff_file]
  constructor
  · rintro ⟨file, hfile, rest, rfl⟩
    obtain ⟨more, content, hentry, -⟩ := (h.mem_files_under names hnames rest).mp hfile
    exact ⟨more, content, hentry⟩
  · rintro ⟨more, content, hentry⟩
    exact ⟨_, (h.mem_files_under names hnames _).mpr ⟨more, content, hentry, rfl⟩,
      List.prefix_append _ _⟩

theorem mem_below_files (h : disk.Mounted cwd root base) (names : List Bytes)
    (hnames : ∀ name ∈ names, Plain name) (found : Found) :
    found ∈ (FileSet.ofPaths (disk.files base root)).below (root.under names) ↔
      Shown disk (base ++ names) found := by
  rw [FileSet.mem_below]
  constructor
  · rintro ⟨rest, hne, hfile, rfl⟩
    obtain ⟨more, content, hentry, rfl⟩ := (h.mem_files_under names hnames rest).mp hfile
    exact ⟨more, content, by simpa using hne, hentry, rfl⟩
  · rintro ⟨more, content, hne, hentry, rfl⟩
    exact ⟨more.map .name, by simpa using hne,
      (h.mem_files_under names hnames _).mpr ⟨more, content, hentry, rfl⟩, rfl⟩

/-- No directory of the tree is refused for the length of its path. -/
theorem openable (h : disk.Mounted cwd root base) (names : List Bytes)
    (hnames : ∀ name ∈ names, Plain name) :
    ((disk.contents (base ++ names)).findSome? fun (more, entry) =>
      defect? (root.under names) more entry) = none := by
  rw [List.findSome?_eq_none_iff]
  rintro ⟨more, entry⟩ hmem
  obtain ⟨hne, hentry⟩ := (mem_contents disk _ more entry).mp hmem
  rw [List.append_assoc] at hentry
  have hmore : ∀ name ∈ more, Plain name :=
    fun name hname => h.plain _ entry hentry name (List.mem_append_right _ hname)
  obtain ⟨haccept, -⟩ := (resolve_eq_ok disk cwd _ _).mp (h.resolve_entry _ entry hentry)
  have hsize := (acceptPath_ok _ haccept).2
  show defect? (root.under names) more entry = none
  unfold defect?
  rw [Path.under_append root names more hnames hmore hne]
  exact if_neg (by omega)

theorem below_under (h : disk.Mounted cwd root base) (names : List Bytes)
    (hnames : ∀ name ∈ names, Plain name) (entry : Entry)
    (hentry : disk.entry? (base ++ names) = some entry) :
    ∃ listing, disk.below cwd (root.under names) = .ok listing ∧ ∀ found : Found,
      found.isFile = true → (found ∈ listing ↔ Shown disk (base ++ names) found) := by
  rw [below, h.resolve_entry names entry hentry]
  by_cases hdir : disk.entry? (base ++ names) = some .directory
  · simp only [if_pos hdir, h.openable names hnames]
    exact ⟨_, rfl, fun found hfile => mem_contents_found disk (base ++ names) found hfile⟩
  · -- The path of a file has an empty listing, and nothing lies below a file.
    simp only [if_neg hdir]
    refine ⟨[], rfl, fun found _ => ⟨fun hmem => by simp at hmem, ?_⟩⟩
    rintro ⟨more, content, hne, hfile, -⟩
    exact absurd (h.directory_above names more _ hne hfile) hdir

/-- About every path of names below the root, the disk and the set of files agree. -/
theorem agree_under (h : disk.Mounted cwd root base) (names : List Bytes)
    (hnames : ∀ name ∈ names, Plain name) :
    (disk.view cwd).Agree (FileSet.ofPaths (disk.files base root)).view (root.under names) where
  contains := (h.contains_under names hnames).trans (h.contains_files names hnames).symm
  below hcontains := by
    have hsome : (disk.entry? (base ++ names)).isSome = true := by
      rwa [← h.contains_under names hnames]
    obtain ⟨entry, hentry⟩ := Option.isSome_iff_exists.mp hsome
    obtain ⟨listing, hlisting, hfiles⟩ := h.below_under names hnames entry hentry
    refine ⟨listing, _, hlisting, rfl, fun found hfile => ?_⟩
    rw [hfiles found hfile, h.mem_below_files names hnames]

end Mounted

/-- The entries of a tree, its root among them. -/
theorem mem_tree (disk : Disk) (base names : Place) (entry : Entry)
    (h : disk.entry? base = some .directory) :
    (names, entry) ∈ ([], .directory) :: disk.contents base ↔
      disk.entry? (base ++ names) = some entry := by
  rw [List.mem_cons, Prod.mk.injEq, mem_contents]
  by_cases hnil : names = []
  · simp [hnil, h, eq_comm]
  · simp [hnil]

/-- Whether a tree is mounted is told by its finitely many entries. -/
theorem mounted_iff (disk : Disk) (cwd : Place) (root : Path) (base : Place) :
    disk.Mounted cwd root base ↔
      disk.resolve cwd root = .ok base ∧ disk.entry? base = some .directory ∧
      ∀ row ∈ ([], .directory) :: disk.contents base,
        (∀ name ∈ row.1, Plain name) ∧ (row.2 = .directory ∨ row.2.isFile = true) ∧
        (row.2 = .directory → ∃ below ∈ disk.contents (base ++ row.1), below.2.isFile = true) ∧
        disk.contains cwd (root.under row.1) = true := by
  constructor
  · intro h
    refine ⟨h.leads, h.directory, ?_⟩
    rintro ⟨names, entry⟩ hmem
    have hentry := (mem_tree disk base names entry h.directory).mp hmem
    refine ⟨h.plain names entry hentry, ?_, ?_, h.found names entry hentry⟩
    · cases entry with
      | file content => exact Or.inr rfl
      | directory => exact Or.inl rfl
      | link target => exact absurd hentry (h.unlinked names target)
    · rintro rfl
      obtain ⟨rest, content, hfile⟩ := h.filled names hentry
      have hne : rest ≠ [] := by
        rintro rfl
        rw [List.append_nil, hentry] at hfile
        simp at hfile
      exact ⟨(rest, .file content), (mem_contents disk _ rest _).mpr ⟨hne, hfile⟩, rfl⟩
  · rintro ⟨hleads, hdir, hrows⟩
    have hentries (names : Place) (entry : Entry)
        (hentry : disk.entry? (base ++ names) = some entry) :=
      hrows (names, entry) ((mem_tree disk base names entry hdir).mpr hentry)
    refine ⟨hleads, hdir, ?_, ?_, ?_, ?_⟩
    · intro names entry hentry
      exact (hentries names entry hentry).1
    · intro names target hentry
      obtain ⟨-, hkind, -⟩ := hentries names _ hentry
      simp [Entry.isFile] at hkind
    · intro names hentry
      obtain ⟨⟨rest, entry⟩, hmem, hfile⟩ := (hentries names _ hentry).2.2.1 rfl
      obtain ⟨content, rfl⟩ := (isFile_iff entry).mp hfile
      exact ⟨rest, content, ((mem_contents disk _ rest _).mp hmem).2⟩
    · intro names entry hentry
      exact (hentries names entry hentry).2.2.2

instance (disk : Disk) (cwd : Place) (root : Path) (base : Place) :
    Decidable (disk.Mounted cwd root base) :=
  decidable_of_iff _ (mounted_iff disk cwd root base).symm

end EntryPoints.Disk
