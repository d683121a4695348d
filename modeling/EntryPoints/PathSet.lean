import EntryPoints.FileSet

/-!
# Files under their spellings

A file system given by paths as they were written down. Of two spellings of the same steps the one
that came first stays. What a directory leaves of a file below it is cut out of the spelling of the
file, and read as a path again.
-/

set_option autoImplicit false

namespace EntryPoints

namespace Path

/-- Paths compare by their steps, however they are spelled. -/
def order (p q : Path) : Ordering := Step.listOrder p.steps q.steps

instance : Std.TransCmp order where
  eq_swap := fun {p q} =>
    @Std.OrientedCmp.eq_swap (List Step) Step.listOrder _ p.steps q.steps
  isLE_trans := fun {p q r} =>
    @Std.TransCmp.isLE_trans (List Step) Step.listOrder _ p.steps q.steps r.steps

/-- The segments after the one that only the start of a path can make a step of. -/
def body (p : Path) : List Bytes := p.segments.drop p.lead.length

/-- The path without the segments at its end that make no step. -/
def trimmed (p : Path) : Path :=
  if p.isAbsolute then ⟨separator :: (ofSegments (trimSilent p.body)).bytes⟩
  else ofSegments (p.segments.take p.lead.length ++ trimSilent p.body)

/-- The segments that are left when some of them have made their steps. -/
def dropSteps : Nat → List Bytes → List Bytes
  | 0, segments => segments
  | _ + 1, [] => []
  | n + 1, segment :: rest => if isSilent segment then dropSteps (n + 1) rest else dropSteps n rest

/-- The path that is left when the first steps are taken off, between segments that make one. -/
def after (p : Path) : Nat → Path
  | 0 => p.trimmed
  | n + 1 =>
    let left := dropSteps (n + 1 - p.lead.length) p.body
    ofSegments (trimSilent (left.dropWhile isSilent))

/-- What another path leaves of a path that starts with its steps. -/
def strip? (p other : Path) : Option Path :=
  (Affix.after? other.steps p.steps).map fun _ => p.after other.steps.length

end Path

structure PathSet where
  files : Std.ExtTreeSet Path Path.order := ∅

namespace PathSet

def empty : PathSet := {}

/-- Adds a path, unless one with the same steps is there. -/
def add (set : PathSet) (path : Path) : PathSet := ⟨set.files.insert path⟩

def addAll (set : PathSet) (paths : List Path) : PathSet := paths.foldl add set

def contains (set : PathSet) (path : Path) : Bool :=
  set.files.toList.any fun file => (Affix.after? path.steps file.steps).isSome

/-- What the path leaves of each file below it, in order, unless nothing is left. -/
def remainders (set : PathSet) (path : Path) : List Path :=
  (set.files.toList.filterMap fun file => file.strip? path).filter fun rest => rest.bytes != []

def below (set : PathSet) (path : Path) : List Found :=
  (set.remainders path).map fun rest => ⟨rest.slashed, true⟩

def view (set : PathSet) : FileView := ⟨set.contains, fun path => .ok (set.below path)⟩

end PathSet

end EntryPoints
