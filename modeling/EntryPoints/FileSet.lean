import EntryPoints.FileView

/-!
# Sets of files

A file system given by the paths of its files alone. A directory exists when some file lies at or
below it. Two spellings of a path with the same steps are one file.
-/

set_option autoImplicit false

namespace EntryPoints

abbrev Step.listOrder : List Step → List Step → Ordering := List.compareLex Step.order

structure FileSet where
  files : Std.ExtTreeSet (List Step) Step.listOrder := ∅

namespace FileSet

def empty : FileSet := {}

def add (set : FileSet) (path : Path) : FileSet := ⟨set.files.insert path.steps⟩

def addAll (set : FileSet) (paths : List Path) : FileSet := paths.foldl add set

def ofPaths (paths : List Path) : FileSet := empty.addAll paths

def contains (set : FileSet) (path : Path) : Bool :=
  set.files.toList.any fun file => (Affix.after? path.steps file).isSome

/-- What remains of each file that lies strictly below a path, in order. -/
def remainders (set : FileSet) (path : Path) : List (List Step) :=
  (set.files.toList.filterMap (Affix.after? path.steps)).filter fun rest => !rest.isEmpty

def below (set : FileSet) (path : Path) : List Found :=
  (set.remainders path).map fun rest => ⟨Step.slashed rest, true⟩

def view (set : FileSet) : FileView := ⟨set.contains, fun path => .ok (set.below path)⟩

end FileSet

end EntryPoints
