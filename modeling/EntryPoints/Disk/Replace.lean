import EntryPoints.Disk.Basic

/-!
# Replacing a file in one step

New content is written to a temporary file beside the destination, which is moved onto it once it
is complete, so that the destination holds the old content or the new and nothing between. A run is
what it does to the disk, act by act, with its result. Any call may be refused: a refused `write`
has got some bytes through before, and a refused `rename` is followed by the removal of the
temporary file.
-/

set_option autoImplicit false

namespace EntryPoints

namespace Disk

/-- Adds a byte at the end of the file at a place. -/
def append (disk : Disk) (place : Place) (byte : UInt8) : Disk :=
  match disk.entry? place with
  | some (.file content) => disk.set place (.file (content ++ [byte]))
  | _ => disk

/-- Takes what stands at one place to another, over what stands there. -/
def move (disk : Disk) (source target : Place) : Disk :=
  match disk.entry? source with
  | some entry => (disk.erase source).set target entry
  | none => disk

/-- Which place a file or link is moved from, and which to. The paths are not followed to the end of
their links, and a directory is not replaced. -/
def renamePlaces (disk : Disk) (cwd : Place) (source target : Path) :
    Except Fault (Place × Place) := do
  let moved ← disk.slot cwd source
  let slot ← disk.slot cwd target
  if disk.entry? moved.place = none then .error .notFound
  else if slot.asDirectory then .error .notADirectory
  else if disk.entry? slot.place = some .directory then .error .isADirectory
  else .ok (moved.place, slot.place)

/-- The place of a file or link that is to be removed. -/
def removalPlace (disk : Disk) (cwd : Place) (path : Path) : Except Fault Place := do
  let slot ← disk.slot cwd path
  if disk.entry? slot.place = none then .error .notFound
  else if slot.asDirectory then .error .notADirectory
  else if disk.entry? slot.place = some .directory then .error .isADirectory
  else .ok slot.place

end Disk

namespace Replace

inductive Call where
  | create
  | write
  | sync
  | rename
  | remove
  deriving DecidableEq, Repr

/-- The calls a system refuses, and how many bytes a refused `write` has got through. -/
structure Trouble where
  refuses : Call → Option Fault := fun _ => none
  written : Nat := 0

/-- A thing that is done to a disk. -/
inductive Act where
  | create (place : Place)
  | append (place : Place) (byte : UInt8)
  | move (source target : Place)
  | remove (place : Place)
  deriving DecidableEq, Repr

def Act.apply (disk : Disk) : Act → Disk
  | .create place => disk.set place (.file [])
  | .append place byte => disk.append place byte
  | .move source target => disk.move source target
  | .remove place => disk.erase place

/-- The disk that acts lead to. -/
def reached : Disk → List Act → Disk
  | disk, [] => disk
  | disk, act :: acts => reached (act.apply disk) acts

structure Run where
  /-- What is done, in order. A run that is cut off has done some of it. -/
  acts : List Act
  result : Except Fault Unit

/-- The file that content is gathered in: hidden, marked, and in the directory of the destination,
whose name it has if that name is a text. -/
def tempPath (mark : Nat) (target : Path) : Path :=
  let parent := (target.parent?.filter (·.bytes ≠ [])).getD (.ofText ".")
  let name := (target.fileName?.bind Lossy.text?).getD "exports"
  parent.join (.ofText ("." ++ name ++ ".tmp." ++ toString mark))

/-- Makes an empty file and adds the bytes to it. -/
def writing (place : Place) (bytes : Bytes) : List Act :=
  .create place :: bytes.map (.append place)

/-- A call's answer, unless the call is refused. -/
def Trouble.attempt {α : Type} (trouble : Trouble) (call : Call) (answer : Except Fault α) :
    Except Fault α :=
  match trouble.refuses call with
  | some fault => .error fault
  | none => answer

/-- What is left to do once the temporary file is complete. -/
def finish (trouble : Trouble) (cwd : Place) (complete : Disk) (temp target : Path) : Run :=
  match trouble.attempt .rename (complete.renamePlaces cwd temp target) with
  | .ok (source, place) => ⟨[.move source place], .ok ()⟩
  | .error fault =>
    match trouble.attempt .remove (complete.removalPlace cwd temp) with
    | .ok place => ⟨[.remove place], .error fault⟩
    | .error _ => ⟨[], .error fault⟩

def run (trouble : Trouble) (mark : Nat) (cwd : Place) (before : Disk) (target : Path)
    (content : Bytes) : Run :=
  let temp := tempPath mark target
  match trouble.attempt .create (before.creationPlace cwd temp) with
  | .error fault => ⟨[], .error fault⟩
  | .ok place =>
    match trouble.attempt .write (.ok ()) with
    | .error fault => ⟨writing place (content.take trouble.written), .error fault⟩
    | .ok () =>
      let acts := writing place content
      match trouble.attempt .sync (.ok ()) with
      | .error fault => ⟨acts, .error fault⟩
      | .ok () =>
        let rest := finish trouble cwd (reached before acts) temp target
        ⟨acts ++ rest.acts, rest.result⟩

/-- The disk a run ends with. -/
def Run.after (run : Run) (before : Disk) : Disk := reached before run.acts

end Replace

/-- Replaces the content of a file on a disk that refuses nothing it can do. -/
def Disk.replace (disk : Disk) (mark : Nat) (cwd : Place) (target : Path)
    (content : Bytes) : Disk × Except Fault Unit :=
  let run := Replace.run {} mark cwd disk target content
  (run.after disk, run.result)

end EntryPoints
