import EntryPoints.Error

/-!
# Views of a file system

All that expansion asks of a file system: whether a path exists, and what lies below a directory.
-/

set_option autoImplicit false

namespace EntryPoints

/-- Something below a listed directory, with its place relative to it. -/
structure Found where
  place : String
  isFile : Bool
  deriving DecidableEq, Repr

structure FileView where
  contains : Path → Bool
  below : Path → Except Error (List Found)

/-- The view that knows a list of answers, each the listing of a directory that exists, and takes
everything else not to exist. -/
def FileView.ofAnswers (answers : List (Path × Except Error (List Found))) : FileView where
  contains path := (answers.lookup path).isSome
  below path := (answers.lookup path).getD (.ok [])

end EntryPoints
