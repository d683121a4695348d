import EntryPoints.Json.Printer
import EntryPoints.Json.Record
import EntryPoints.Resolver

/-!
# Setups and requests as JSON

The two records that callers hand over as JSON texts: the setup of a run, whose fields are all
required, and a request, whose fields may be left out.
-/

set_option autoImplicit false

namespace EntryPoints

/-- Where a run takes place and how it reports. -/
structure Setup where
  cwd : Path
  jsonLogs : Bool := false
  verbosity : Nat := 0
  deriving DecidableEq, Repr

namespace Setup

/-- Where the manifest is looked for when no other place is named. -/
def manifestPath (setup : Setup) : Path := setup.cwd.join (.ofText "package.json")

/-- A relative path is taken from the working directory. -/
def locate (setup : Setup) (path : Path) : Path :=
  if path.isAbsolute then path else setup.cwd.join path

/-- The record of a setup, whose path has to be a text. -/
def toJson? (setup : Setup) : Option Json := do
  let cwd ← setup.cwd.text?
  return .object [("cwd", .string cwd), ("json_logs", .boolean setup.jsonLogs),
    ("verbosity", .number (.ofNat setup.verbosity))]

def highestVerbosity : Nat := 255

def verbosity? (form : Json.Form) : Option Nat :=
  form.natural?.filter (· ≤ highestVerbosity)

def ofForm? (form : Json.Form) : Option Setup := do
  match ← form.fields? ["cwd", "json_logs", "verbosity"] with
  | [some cwd, some jsonLogs, some verbosity] =>
    return ⟨.ofText (← cwd.string?), ← jsonLogs.boolean?, ← verbosity? verbosity⟩
  | _ => none

def read? (text : String) : Option Setup := (Json.Form.parse? text).bind ofForm?

end Setup

namespace Request

/-- The record of a request, whose path has to be a text if there is one. -/
def toJson? (request : Request) : Option Json := do
  let conditions := Json.array (request.conditions.map .string)
  match request.root? with
  | none => return .object [("conditions", conditions), ("cwd", .null)]
  | some root => return .object [("conditions", conditions), ("cwd", .string (← root.text?))]

def ofForm? (form : Json.Form) : Option Request := do
  match ← form.fields? ["conditions", "cwd"] with
  | [conditions, root] =>
    let conditions ← Json.Form.orDefault? [] Json.Form.strings? conditions
    let root ← Json.Form.orDefault? none (Json.Form.nullable? Json.Form.string?) root
    return ⟨conditions, root.map Path.ofText⟩
  | _ => none

def read? (text : String) : Option Request := (Json.Form.parse? text).bind ofForm?

end Request

end EntryPoints
