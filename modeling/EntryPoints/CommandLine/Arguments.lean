import EntryPoints.Path

/-!
# Arguments

Arguments are taken one at a time from the left, and the first one that settles the matter (a
fault, or a request for the version or for help) does so whatever follows. Some options may stand
before the command or after it; a value given after it counts over one given before.

An option's value is the next argument, unless that one starts with a dash and is more than the
dash, or it is written into the same argument. After `--` every argument is positional. Arguments
are bytes, as paths are; conditions have to be texts.
-/

set_option autoImplicit false

namespace EntryPoints.CommandLine

inductive UsageError where
  | unknown (argument : Bytes)
  | surplus (argument : Bytes)
  | repeated (name : String)
  | missingValue (name : String)
  | emptyValue (name : String)
  | notText (name : String)
  | unwantedValue (name : String)
  | conflict (one other : String)
  deriving DecidableEq, Repr

inductive Command where
  | version
  | resolve
  deriving DecidableEq, Repr

def Command.name : Command → String
  | .version => "version"
  | .resolve => "resolve"

def Command.ofName? (name : Bytes) : Option Command :=
  [version, resolve].find? (Text.bytes ·.name == name)

inductive Flag where
  | verbose
  | json
  | noExpand
  | version
  | help
  deriving DecidableEq, Repr

inductive Valued where
  | cwd
  | conditions
  | root
  | out
  deriving DecidableEq, Repr

inductive Switch where
  | flag (flag : Flag)
  | valued (valued : Valued)
  deriving DecidableEq, Repr

def Flag.name : Flag → String
  | .verbose => "--verbose"
  | .json => "--json"
  | .noExpand => "--no-expand"
  | .version => "--version"
  | .help => "--help"

def Valued.name : Valued → String
  | .cwd => "--cwd"
  | .conditions => "--conditions"
  | .root => "--root"
  | .out => "--out"

/-- The switches of a level: before a command, or after it. -/
def flags : Option Command → List Flag
  | none => [.verbose, .json, .version, .help]
  | some .version => [.verbose, .json, .help]
  | some .resolve => [.verbose, .json, .noExpand, .help]

def valueds : Option Command → List Valued
  | some .resolve => [.cwd, .conditions, .root, .out]
  | _ => [.cwd]

def long? (level : Option Command) (name : Bytes) : Option Switch :=
  (((flags level).find? (Text.bytes ·.name == name)).map .flag).or
    (((valueds level).find? (Text.bytes ·.name == name)).map .valued)

def short? (level : Option Command) : Char → Option Switch
  | 'v' => some (.flag .verbose)
  | 'h' => some (.flag .help)
  | 'V' => if level = none then some (.flag .version) else none
  | 'o' => if level = some .resolve then some (.valued .out) else none
  | _ => none

/-- What the arguments of one level have given. -/
structure Given where
  verbosity : Nat := 0
  json : Bool := false
  noExpand : Bool := false
  cwd? : Option Path := none
  conditions? : Option (List String) := none
  root? : Option Path := none
  out? : Option Path := none
  manifest? : Option Path := none
  deriving DecidableEq, Repr

/-- Why the scan of arguments ends early. -/
inductive Stop where
  | refused (fault : UsageError)
  | showVersion
  | showHelp
  deriving DecidableEq, Repr

namespace Given

/-- A path may be given once and must not be empty. -/
def path (name : String) (value : Bytes) : Option Path → Except Stop Path
  | some _ => .error (.refused (.repeated name))
  | none => if value = [] then .error (.refused (.emptyValue name)) else .ok ⟨value⟩

/-- The conditions in a value, separated by commas. -/
def conditionNames (value : Bytes) : Except Stop (List String) :=
  match Lossy.text? value with
  | some text => .ok (Text.cut ',' text)
  | none => .error (.refused (.notText Valued.conditions.name))

/-- Conditions add up, and one value may hold several. -/
def store (given : Given) (valued : Valued) (value : Bytes) : Except Stop Given :=
  match valued with
  | .cwd => do return { given with cwd? := some (← path valued.name value given.cwd?) }
  | .root => do return { given with root? := some (← path valued.name value given.root?) }
  | .out => do return { given with out? := some (← path valued.name value given.out?) }
  | .conditions => do
    let names ← conditionNames value
    return { given with conditions? := some (given.conditions?.getD [] ++ names) }

def raise (given : Given) : Flag → Except Stop Given
  | .verbose => .ok { given with verbosity := given.verbosity + 1 }
  | .json =>
    if given.json then .error (.refused (.repeated Flag.json.name))
    else .ok { given with json := true }
  | .noExpand =>
    if given.noExpand then .error (.refused (.repeated Flag.noExpand.name))
    else .ok { given with noExpand := true }
  | .version => .error .showVersion
  | .help => .error .showHelp

def addManifest (given : Given) (argument : Bytes) : Except Stop Given :=
  match given.manifest? with
  | some _ => .error (.refused (.surplus argument))
  | none =>
    if argument = [] then .error (.refused (.emptyValue "MANIFEST"))
    else .ok { given with manifest? := some ⟨argument⟩ }

end Given

/-- The state of a scan: the command met, what was given before it and since, the option that waits
for a value, and whether `--` has passed. -/
structure Scan where
  command? : Option Command := none
  before : Given := {}
  given : Given := {}
  waiting? : Option Valued := none
  plain : Bool := false
  deriving DecidableEq, Repr

namespace Scan

def dash : UInt8 := 0x2D

def equals : UInt8 := 0x3D

def store (scan : Scan) (valued : Valued) (value : Bytes) : Except Stop Scan := do
  return { scan with given := ← scan.given.store valued value, waiting? := none }

def enter (scan : Scan) (command : Command) : Scan :=
  { scan with command? := some command, before := scan.given, given := {} }

/-- What `help` does with the arguments after it. The first may name a command or be `help` itself,
and a second one finds no command to be about. -/
def help : List Bytes → Stop
  | [] => .showHelp
  | topic :: rest =>
    if (Command.ofName? topic).isNone && topic != Text.bytes "help" then .refused (.unknown topic)
    else
      match rest with
      | [] => .showHelp
      | other :: _ => .refused (.unknown other)

def positional (scan : Scan) (argument : Bytes) (rest : List Bytes) : Except Stop Scan :=
  match scan.command? with
  | some .resolve => do return { scan with given := ← scan.given.addManifest argument }
  | some .version => .error (.refused (.surplus argument))
  | none =>
    if scan.plain then .error (.refused (.surplus argument))
    else
      match Command.ofName? argument with
      | some command => .ok (scan.enter command)
      | none =>
        if argument = Text.bytes "help" then .error (help rest)
        else .error (.refused (.unknown argument))

/-- An argument `--name` or `--name=value`. -/
def long (scan : Scan) (argument : Bytes) : Except Stop Scan :=
  let name := argument.takeWhile (· != equals)
  match long? scan.command? name, Affix.after? (name ++ [equals]) argument with
  | none, _ => .error (.refused (.unknown argument))
  | some (.flag flag), none => do return { scan with given := ← scan.given.raise flag }
  | some (.flag flag), some _ => .error (.refused (.unwantedValue flag.name))
  | some (.valued valued), none => .ok { scan with waiting? := some valued }
  | some (.valued valued), some value => scan.store valued value

/-- The letters of an argument `-abc`. One that takes a value takes the rest of the argument. -/
def short (scan : Scan) : Bytes → Except Stop Scan
  | [] => .ok scan
  | letter :: rest =>
    match short? scan.command? (Char.ofNat letter.toNat) with
    | none => .error (.refused (.unknown [dash, letter]))
    | some (.flag flag) => do
      let given ← scan.given.raise flag
      short { scan with given := given } rest
    | some (.valued valued) =>
      if rest = [] then .ok { scan with waiting? := some valued }
      else scan.store valued ((Affix.after? [equals] rest).getD rest)

def isDashed (argument : Bytes) : Bool := argument.head? == some dash && argument != [dash]

/-- Takes an argument, with those that come after it in view. -/
def next (scan : Scan) (argument : Bytes) (rest : List Bytes) : Except Stop Scan :=
  match scan.waiting? with
  | some valued =>
    if isDashed argument then .error (.refused (.missingValue valued.name))
    else scan.store valued argument
  | none =>
    if scan.plain || !isDashed argument then scan.positional argument rest
    else if argument = [dash, dash] then .ok { scan with plain := true }
    else if (Affix.after? [dash, dash] argument).isSome then scan.long argument
    else scan.short (argument.drop 1)

def all (scan : Scan) : List Bytes → Except Stop Scan
  | [] => .ok scan
  | argument :: rest => do (← scan.next argument rest).all rest

/-- What is wrong with a scan only once all arguments are in. -/
def finish (scan : Scan) : Except Stop Scan :=
  match scan.waiting? with
  | some valued => .error (.refused (.missingValue valued.name))
  | none =>
    if scan.given.noExpand && scan.given.root?.isSome then
      .error (.refused (.conflict Valued.root.name Flag.noExpand.name))
    else .ok scan

end Scan

/-- What a command line asks for. -/
structure Invocation where
  command : Command := .version
  verbosity : Nat := 0
  json : Bool := false
  cwd? : Option Path := none
  manifest? : Option Path := none
  conditions : List String := []
  noExpand : Bool := false
  root? : Option Path := none
  out? : Option Path := none
  deriving DecidableEq, Repr

/-- Conditions from the environment count when the arguments of the command give none. -/
def Scan.conditions (scan : Scan) (environment? : Option Bytes) : Except Stop (List String) :=
  match scan.command?, scan.given.conditions?, environment? with
  | some .resolve, some names, _ => .ok names
  | some .resolve, none, some value => Given.conditionNames value
  | _, _, _ => .ok []

def Scan.invocation (scan : Scan) (conditions : List String) : Invocation where
  command := scan.command?.getD .version
  verbosity := if scan.given.verbosity = 0 then scan.before.verbosity else scan.given.verbosity
  json := scan.before.json || scan.given.json
  cwd? := scan.given.cwd?.or scan.before.cwd?
  manifest? := scan.given.manifest?
  conditions := conditions
  noExpand := scan.given.noExpand
  root? := scan.given.root?
  out? := scan.given.out?

def parse (environment? : Option Bytes) (arguments : List Bytes) : Except Stop Invocation := do
  let scan ← (← Scan.all {} arguments).finish
  return scan.invocation (← scan.conditions environment?)

end EntryPoints.CommandLine
