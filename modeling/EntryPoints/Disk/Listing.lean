import EntryPoints.Disk.Basic
import EntryPoints.FileView

/-!
# Listing a disk

What lies below a directory, each directory before its contents and the names of one directory in
the order of their bytes. Links are listed and not followed, the listed path itself excepted.
-/

set_option autoImplicit false

namespace EntryPoints.Disk

/-- The entries strictly below a place, each with the names that lead to it from there. -/
def contents (disk : Disk) (place : Place) : List (Place × Entry) :=
  disk.entries.toList.filterMap fun (key, entry) =>
    match Affix.after? place key with
    | none | some [] => none
    | some rest => some (rest, entry)

def found (names : Place) (entry : Entry) : Found :=
  ⟨Step.slashed (names.map .name), entry.isFile⟩

/-- Why an entry cannot be listed below a path. A directory is opened by a path of its own, which
may be too long even where the listed one is not. -/
def defect? (path : Path) (names : Place) (entry : Entry) : Option Error :=
  let opened := path.join (.ofSegments names)
  if entry = .directory ∧ pathLimit < opened.bytes.length then
    some (.listing opened .nameTooLong)
  else none

/-- Everything below a directory; nothing for a path that leads elsewhere. -/
def below (disk : Disk) (cwd : Place) (path : Path) : Except Error (List Found) :=
  match disk.resolve cwd path with
  | .error fault => .error (.listing path fault)
  | .ok place =>
    if disk.entry? place = some .directory then
      let contents := disk.contents place
      match contents.findSome? fun (names, entry) => defect? path names entry with
      | some e => .error e
      | none => .ok (contents.map fun (names, entry) => found names entry)
    else .ok []

def view (disk : Disk) (cwd : Place) : FileView := ⟨disk.contains cwd, disk.below cwd⟩

end EntryPoints.Disk
