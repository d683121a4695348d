import EntryPoints.CommandLine.Arguments
import EntryPoints.Disk.Listing
import EntryPoints.Disk.Replace
import EntryPoints.Manifest
import EntryPoints.Release
import EntryPoints.Setup

/-!
# Running the program

A run reads a manifest, flattens its declaration and delivers the table: as lines, as JSON, or as a
JSON file. With JSON asked for, an error of the flattening is delivered as JSON too. The exit code
is 0 for success, 1 for a failed run and 2 for arguments that make no sense.
-/

set_option autoImplicit false

namespace EntryPoints.CommandLine

/-- What a run shows to the outside. -/
structure Report where
  exit : Nat
  output : String := ""
  deriving DecidableEq, Repr

/-- How the outcome of a run is handed over: presented, or written to a file first. -/
inductive Delivery where
  | present (report : Report)
  | write (path : Path) (text : String)
  deriving DecidableEq, Repr

def usage : String :=
  "Usage: exportmap [OPTIONS] [COMMAND]\n\nCommands:\n  version  Print version information\n" ++
  "  resolve  Resolve a package.json exports field to a flat subpath -> target map\n"

def setup (invocation : Invocation) (workingDirectory : Path) : Setup where
  cwd := invocation.cwd?.getD workingDirectory
  jsonLogs := invocation.json
  verbosity := invocation.verbosity

def manifestPath (setup : Setup) (invocation : Invocation) : Path :=
  match invocation.manifest? with
  | some path => setup.locate path
  | none => setup.manifestPath

/-- The directory to expand in: the one asked for, or else the manifest's own. -/
def root? (setup : Setup) (invocation : Invocation) : Option Path :=
  if invocation.noExpand then none
  else
    match invocation.root? with
    | some path => some (setup.locate path)
    | none => some ((manifestPath setup invocation).parent?.getD setup.cwd)

def request (setup : Setup) (invocation : Invocation) : Request :=
  ⟨invocation.conditions, root? setup invocation⟩

/-- The table of an invocation, given where manifests come from and a view of the file system. -/
def flatten (setup : Setup) (invocation : Invocation) (source : Manifest.Source)
    (view : FileView) : Except Error (Table String) := do
  let manifest ← Manifest.read source (manifestPath setup invocation)
  Resolver.flatten {} (Manifest.exports manifest) (request setup invocation) view

/-- The directories a run asks about, for an outer layer that has to look them up beforehand. -/
def directories (setup : Setup) (invocation : Invocation) (source : Manifest.Source) : List Path :=
  match root? setup invocation, Manifest.read source (manifestPath setup invocation) with
  | some root, .ok manifest =>
    match Resolver.offers {} (Manifest.exports manifest) (request setup invocation) with
    | .ok offers => Expansion.directories offers root
    | .error _ => []
  | _, _ => []

def failure (e : Error) : Json :=
  .object [("ok", .boolean false),
    ("error", .object [("code", .string e.code), ("message", .string e.message)])]

def lines (flat : Table String) : String :=
  String.join (flat.toList.map fun (subpath, target) => subpath ++ " -> " ++ target ++ "\n")

def document (flat : Table String) : String := flat.toJson.pretty ++ "\n"

def deliver (setup : Setup) (invocation : Invocation) : Except Error (Table String) → Delivery
  | .error e => .present ⟨1, if setup.jsonLogs then (failure e).compact ++ "\n" else ""⟩
  | .ok flat =>
    match invocation.out? with
    | some path => .write (setup.locate path) (document flat)
    | none => .present ⟨0, if setup.jsonLogs then document flat else lines flat⟩

/-- The report once the file of a delivery has been written, or not. -/
def afterWrite : Except Fault Unit → Report
  | .ok () => ⟨0, ""⟩
  | .error _ => ⟨1, ""⟩

/-- The report that names the program and its version. -/
def announcement : Report := ⟨0, Release.banner ++ "\n"⟩

/-- The report of arguments that ask for no run. -/
def Stop.report : Stop → Report
  | .refused _ => ⟨2, ""⟩
  | .showVersion => announcement
  | .showHelp => ⟨0, usage⟩

/-- What a run finds: a disk, where on it the run takes place, the environment's conditions, the
mark of its temporary files, and a reader's words for texts that are not JSON. -/
structure Surroundings where
  disk : Disk
  cwd : Place
  conditions? : Option Bytes := none
  mark : Nat := 1
  complaint : String → String

/-- The working directory as an absolute path. -/
def Surroundings.workingDirectory (around : Surroundings) : Path :=
  ⟨Path.separator :: (Path.ofSegments around.cwd).bytes⟩

def Surroundings.source (around : Surroundings) : Manifest.Source :=
  ⟨around.disk.read around.cwd, around.complaint⟩

def resolve (around : Surroundings) (invocation : Invocation) : Report × Disk :=
  let setup := setup invocation around.workingDirectory
  let flat := flatten setup invocation around.source (around.disk.view around.cwd)
  match deliver setup invocation flat with
  | .present report => (report, around.disk)
  | .write path text =>
    let (disk, result) := around.disk.replace around.mark around.cwd path (Text.bytes text)
    (afterWrite result, disk)

def run (around : Surroundings) (arguments : List Bytes) : Report × Disk :=
  match parse around.conditions? arguments with
  | .error stop => (stop.report, around.disk)
  | .ok invocation =>
    match invocation.command with
    | .version => (announcement, around.disk)
    | .resolve => resolve around invocation

end EntryPoints.CommandLine
