import EntryPoints.Fault
import EntryPoints.Path

/-!
# Errors

The causes for which a declaration cannot be flattened, each with a stable code for machines and a
message that names the offender.
-/

set_option autoImplicit false

namespace EntryPoints

inductive Error where
  | undefinedExports
  | emptyExports
  | mixedKeyFormat (key : String)
  | invalidTarget (target : String)
  | invalidSubpathPattern (pattern : String)
  | unsupportedWildcardTarget (subpath target : String)
  | directoryNotFound (path : Path)
  | unsupportedExportsValue (kind : String)
  | listing (path : Path) (fault : Fault)
  | manifestRead (path : Path) (fault : Fault)
  | manifestParse (path : Path) (complaint : String)
  deriving DecidableEq, Repr

namespace Error

def code : Error → String
  | undefinedExports => "UNDEFINED_EXPORTS"
  | emptyExports => "EMPTY_EXPORTS"
  | mixedKeyFormat _ => "MIXED_KEY_FORMAT"
  | invalidTarget _ => "INVALID_TARGET"
  | invalidSubpathPattern _ => "INVALID_SUBPATH_PATTERN"
  | unsupportedWildcardTarget _ _ => "UNSUPPORTED_WILDCARD_TARGET"
  | directoryNotFound _ => "DIRECTORY_NOT_FOUND"
  | unsupportedExportsValue _ => "UNSUPPORTED_EXPORTS_VALUE"
  | listing _ _ => "IO_ERROR"
  | manifestRead _ _ => "MANIFEST_READ_ERROR"
  | manifestParse _ _ => "MANIFEST_PARSE_ERROR"

def message : Error → String
  | undefinedExports => "exports field is undefined"
  | emptyExports => "exports field is empty"
  | mixedKeyFormat key =>
    "exports keys must either all start with \".\" or none of them: \"" ++ key ++
      "\" is mixed with subpath keys"
  | invalidTarget target =>
    "invalid export target \"" ++ target ++ "\": targets must start with \"./\""
  | invalidSubpathPattern pattern =>
    "invalid subpath pattern \"" ++ pattern ++ "\": only one \"*\" is allowed"
  | unsupportedWildcardTarget subpath target =>
    "unsupported wildcard target \"" ++ target ++ "\" for \"" ++ subpath ++
      "\": target must contain exactly one \"*\""
  | directoryNotFound path => "directory not found: " ++ path.shown
  | unsupportedExportsValue kind => "unsupported exports value of type " ++ kind
  | listing path fault =>
    "IO error: IO error for operation on " ++ path.shown ++ ": " ++ fault.message
  | manifestRead path fault =>
    "Failed to read manifest at " ++ path.shown ++ ": " ++ fault.message
  | manifestParse path complaint =>
    "Failed to parse manifest at " ++ path.shown ++ ": " ++ complaint

end Error

end EntryPoints
