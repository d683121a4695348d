import EntryPoints.Fault
import EntryPoints.Path

/-!
# Disks

A disk is a finite map from places to entries. A place is the list of names that leads to it from
the root, so its order puts a directory before its contents and the names of one directory in the
order of their bytes. The root is always there.

A path is resolved from the working directory segment by segment. Links are followed, no more than
`linkLimit` of them, and how a path is meant to end decides what happens at its last segment.
-/

set_option autoImplicit false

namespace EntryPoints

abbrev Place := List Bytes

/-- The place that the names in some texts lead to. -/
def Place.ofTexts (names : List String) : Place := names.map Text.bytes

abbrev Place.order : Place → Place → Ordering :=
  List.compareLex (compare : Bytes → Bytes → Ordering)

instance : Std.TransCmp Place.order :=
  inferInstanceAs (Std.TransCmp (List.compareLex (compare : Bytes → Bytes → Ordering)))

/-- What stands at a place. -/
inductive Entry where
  | file (content : Bytes)
  | directory
  | link (target : Path)
  deriving DecidableEq, Repr

def Entry.isFile : Entry → Bool
  | .file _ => true
  | _ => false

structure Disk where
  entries : Std.ExtTreeMap Place Entry Place.order := ∅

namespace Disk

def entry? (disk : Disk) (place : Place) : Option Entry :=
  if place = [] then some .directory else disk.entries[place]?

def set (disk : Disk) (place : Place) (entry : Entry) : Disk :=
  ⟨disk.entries.insert place entry⟩

def erase (disk : Disk) (place : Place) : Disk := ⟨disk.entries.erase place⟩

def linkLimit : Nat := 40

def nameLimit : Nat := 255

def pathLimit : Nat := 4095

/-- Refuses paths that no file system takes, before any look-up. -/
def acceptPath (path : Path) : Except Fault Unit :=
  if path.bytes.contains 0 then .error .nulInName
  else if path.bytes = [] then .error .notFound
  else if pathLimit < path.bytes.length then .error .nameTooLong
  else .ok ()

/-- Where a path starts: at the root or in the working directory. -/
def origin (cwd : Place) (path : Path) : Place := if path.isAbsolute then [] else cwd

/-- What the last segment of a path has to be. -/
inductive Ending where
  /-- Something that is there, a link standing for its target. -/
  | followed
  /-- Something that is there, a link standing for itself. -/
  | kept
  /-- A file to write to, made if its name is missing. A slash after that name is refused. -/
  | written
  deriving DecidableEq, Repr

/-- Walks the segments from a place. At a link that is to be followed, `jump` goes on from where the
target starts, along the target's segments and those that are left. -/
def walkSegments (disk : Disk) (ending : Ending)
    (jump : Place → List Bytes → Except Fault Place) (place : Place) :
    List Bytes → Except Fault Place
  | [] => .ok place
  | segment :: rest =>
    if disk.entry? place ≠ some .directory then .error .notADirectory
    else if segment = [] ∨ segment = [Path.dot] then walkSegments disk ending jump place rest
    else if segment = [Path.dot, Path.dot] then walkSegments disk ending jump place.dropLast rest
    else if ending = .written ∧ rest ≠ [] ∧ rest.all (· == []) then .error .isADirectory
    else if nameLimit < segment.length then .error .nameTooLong
    else
      match disk.entry? (place ++ [segment]) with
      | none =>
        if ending = .written ∧ rest = [] then .ok (place ++ [segment]) else .error .notFound
      | some (.link target) =>
        if ending = .kept ∧ rest = [] then .ok (place ++ [segment])
        else jump (origin place target) (target.segments ++ rest)
      | some _ => walkSegments disk ending jump (place ++ [segment]) rest

/-- Walks with so many links left to follow. -/
def walk (disk : Disk) (ending : Ending) : Nat → Place → List Bytes → Except Fault Place
  | 0 => walkSegments disk ending fun _ _ => .error .tooManyLinks
  | links + 1 => walkSegments disk ending (walk disk ending links)

/-- The place a path leads to, all links followed. -/
def resolve (disk : Disk) (cwd : Place) (path : Path) : Except Fault Place := do
  acceptPath path
  walk disk .followed linkLimit (origin cwd path) path.segments

/-- The place of a file opened for writing, which is where a chain of links ends. -/
def creationPlace (disk : Disk) (cwd : Place) (path : Path) : Except Fault Place := do
  acceptPath path
  let place ← walk disk .written linkLimit (origin cwd path) path.segments
  if disk.entry? place = some .directory then .error .isADirectory else .ok place

/-- Where the last segment of a path would stand. -/
structure Slot where
  place : Place
  /-- Whether the path says, by a trailing slash, that it means a directory. -/
  asDirectory : Bool
  deriving DecidableEq, Repr

/-- The slot of a path whose parent must exist. The root, `.` and `..` are not slots. -/
def slot (disk : Disk) (cwd : Place) (path : Path) : Except Fault Slot := do
  acceptPath path
  let named := (path.segments.reverse.dropWhile (· == [])).reverse
  let parent ← disk.walk .followed linkLimit (origin cwd path) (named.dropLast ++ [[]])
  match named.getLast? with
  | none => .error .busy
  | some name =>
    if name = [Path.dot] ∨ name = [Path.dot, Path.dot] then .error .busy
    else if nameLimit < name.length then .error .nameTooLong
    else .ok ⟨parent ++ [name], path.segments.getLast? == some []⟩

def stat (disk : Disk) (cwd : Place) (path : Path) : Except Fault Entry := do
  let place ← disk.resolve cwd path
  match disk.entry? place with
  | some entry => .ok entry
  | none => .error .notFound

def contains (disk : Disk) (cwd : Place) (path : Path) : Bool :=
  match disk.stat cwd path with
  | .ok _ => true
  | .error _ => false

def read (disk : Disk) (cwd : Place) (path : Path) : Except Fault Bytes := do
  match ← disk.stat cwd path with
  | .file content => .ok content
  | _ => .error .isADirectory

end Disk

end EntryPoints
