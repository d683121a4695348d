import EntryPoints.Disk.Basic

/-!
# Arranging a disk

Making directories, files and links, and clearing a place with all below it. Missing parents are
made on the way.
-/

set_option autoImplicit false

namespace EntryPoints.Disk

/-- Makes the directories that the segments name, from a place on. -/
def makeAlong (disk : Disk) (place : Place) : List Bytes → Except Fault Disk
  | [] => .ok disk
  | segment :: rest =>
    match disk.walk .followed linkLimit place [segment, []] with
    | .ok place => makeAlong disk place rest
    | .error .notFound =>
      let new := place ++ [segment]
      if (disk.entry? new).isSome then .error .alreadyExists
      else makeAlong (disk.set new .directory) new rest
    | .error fault => .error fault

def makeDirectory (disk : Disk) (cwd : Place) (path : Path) : Except Fault Disk :=
  disk.makeAlong (origin cwd path) path.segments

def makeParents (disk : Disk) (cwd : Place) (path : Path) : Except Fault Disk :=
  match path.parent? with
  | some parent => disk.makeDirectory cwd parent
  | none => .ok disk

/-- Writes a file. Through links it is the file at their end that is written. -/
def write (disk : Disk) (cwd : Place) (path : Path) (content : Bytes) :
    Except Fault Disk := do
  let disk ← disk.makeParents cwd path
  let place ← disk.creationPlace cwd path
  return disk.set place (.file content)

/-- Makes a link, where nothing stands yet. -/
def makeLink (disk : Disk) (cwd : Place) (path target : Path) : Except Fault Disk := do
  let disk ← disk.makeParents cwd path
  let slot ← disk.slot cwd path
  if (disk.entry? slot.place).isSome then .error .alreadyExists
  else if slot.asDirectory then .error .notFound
  else .ok (disk.set slot.place (.link target))

/-- Removes what stands at a path, a link rather than its target, with all below it. -/
def clear (disk : Disk) (cwd : Place) (path : Path) : Except Fault Disk := do
  acceptPath path
  let place ← disk.walk .kept linkLimit (origin cwd path) (Path.trimSilent path.segments)
  return ⟨disk.entries.filter fun key _ => (Affix.after? place key).isNone⟩

end EntryPoints.Disk
