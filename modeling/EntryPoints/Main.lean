import EntryPoints.CommandLine.Run

/-!
# The program

The outer layer: it looks up what a run asks about, shows what the run reports and writes the file
it hands over. All decisions are the library's.
-/

set_option autoImplicit false

namespace EntryPoints.Outer

/-- The number in an error of the system. Some calls give it negated. -/
def number? : IO.Error → Option Nat
  | .noFileOrDirectory _ code _ | .alreadyExists _ code _ | .inappropriateType _ code _
  | .invalidArgument _ code _ | .resourceExhausted _ code _ | .resourceBusy code _
  | .hardwareFault code _ => some (min code (0 - code)).toNat
  | _ => none

def fault (e : IO.Error) : Fault :=
  match number? e with
  | some 2 => .notFound
  | some 5 => .ioFailure
  | some 16 => .busy
  | some 17 => .alreadyExists
  | some 20 => .notADirectory
  | some 21 => .isADirectory
  | some 28 => .noSpace
  | some 36 => .nameTooLong
  | some 40 => .tooManyLinks
  | _ => .other (toString e)

def attempt {α : Type} (action : IO α) : IO (Except Fault α) := do
  try return .ok (← action)
  catch e => return .error (fault e)

/-- Looks something up for a listing of a path, which an error names. -/
def lookUp {α : Type} (path : Path) (action : IO α) : ExceptT Error IO α := do
  return ← (← attempt action).mapError (Error.listing path)

/-- The entries below a directory: each directory before its contents, names in byte order. -/
partial def walk (place : String) (dir : Path) : ExceptT Error IO (List Found) := do
  let _ ← (Disk.acceptPath dir).mapError (Error.listing dir)
  let entries ← lookUp dir (do (← IO.FS.realPath dir.shown).readDir)
  let ordered := entries.toList.mergeSort fun a b => (Text.byteOrder a.fileName b.fileName).isLE
  let mut found : List Found := []
  for entry in ordered do
    let inner := dir.join (.ofText entry.fileName)
    let kind := (← lookUp inner entry.path.symlinkMetadata).type
    let name := place ++ entry.fileName
    found := found ++ [⟨name, kind == .file⟩]
    if kind == .dir then
      found := found ++ (← walk (name ++ "/") inner)
  return found

/-- What lies below a path, if the path exists. -/
def listing? (path : Path) : IO (Option (Path × Except Error (List Found))) := do
  match Disk.acceptPath path, ← attempt (IO.FS.realPath path.shown) with
  | .ok (), .ok real =>
    if (← real.metadata).type == .dir then return some (path, ← (walk "" path).run)
    else return some (path, .ok [])
  | _, _ => return none

def writeFile (target : Path) (text : String) : IO Unit := do
  let temp := (Replace.tempPath (← IO.monoNanosNow) target).shown
  IO.FS.writeFile temp text
  try IO.FS.rename temp target.shown
  catch e =>
    IO.FS.removeFile temp
    throw e

def present (report : CommandLine.Report) : IO UInt32 := do
  IO.print report.output
  return report.exit.toUInt32

def resolve (invocation : CommandLine.Invocation) : IO UInt32 := do
  let setup := CommandLine.setup invocation (.ofText (← IO.currentDir).toString)
  let manifest ← attempt (IO.FS.readBinFile (CommandLine.manifestPath setup invocation).shown)
  let source := ⟨fun _ => manifest.map ByteArray.toList, fun _ => "not a JSON text"⟩
  let answers ← (CommandLine.directories setup invocation source).filterMapM listing?
  let flat := CommandLine.flatten setup invocation source (.ofAnswers answers)
  if let .error e := flat then IO.eprintln ("Error: " ++ e.message)
  match CommandLine.deliver setup invocation flat with
  | .present report => present report
  | .write path text =>
    let written ← attempt (writeFile path text)
    if let .error fault := written then IO.eprintln ("Error: " ++ fault.message)
    present (CommandLine.afterWrite written)

end EntryPoints.Outer

open EntryPoints in
def main (arguments : List String) : IO UInt32 := do
  let environment? := (← IO.getEnv "EXPORTMAP_CONDITIONS").map Text.bytes
  match CommandLine.parse environment? (arguments.map Text.bytes) with
  | .error stop =>
    if let .refused _ := stop then IO.eprintln "error: invalid arguments"
    Outer.present stop.report
  | .ok invocation =>
    match invocation.command with
    | .version => Outer.present CommandLine.announcement
    | .resolve => Outer.resolve invocation
