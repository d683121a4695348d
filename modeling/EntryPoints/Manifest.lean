import EntryPoints.Error
import EntryPoints.Json.Reader
import EntryPoints.Lossy

/-!
# Manifests

A manifest is a JSON text; bytes in it that are not UTF-8 are replaced before it is read. What a
reader says of a text that is not JSON is its own affair.
-/

set_option autoImplicit false

namespace EntryPoints.Manifest

/-- Where manifests come from. -/
structure Source where
  /-- How a file is read. -/
  fetch : Path → Except Fault Bytes
  /-- The words for what is wrong with a text that is not JSON. -/
  complaint : String → String

/-- The value of a manifest. -/
def read (source : Source) (path : Path) : Except Error Json :=
  match source.fetch path with
  | .error fault => .error (.manifestRead path fault)
  | .ok bytes =>
    let text := Lossy.decode bytes
    match Json.read? text with
    | none => .error (.manifestParse path (source.complaint text))
    | some v => .ok v

/-- The declaration in a manifest, `null` when there is none. -/
def exports (manifest : Json) : Json := (manifest.member? "exports").getD .null

end EntryPoints.Manifest
