import EntryPoints.Expansion

/-!
# Resolving declarations

A resolver turns the value of an `exports` field into a table from subpaths to targets. It has
conditions of its own for requests that name none.
-/

set_option autoImplicit false

namespace EntryPoints

structure Request where
  /-- The active conditions; none means those of the resolver. -/
  conditions : List String := []
  /-- The directory to expand patterns in; without one they stay as declared. -/
  root? : Option Path := none
  deriving DecidableEq, Repr

structure Resolver where
  conditions : List String := standardConditions
  deriving DecidableEq, Repr

namespace Resolver

def conditionsFor (resolver : Resolver) (request : Request) : ConditionSet :=
  .ofNames (if request.conditions.isEmpty then resolver.conditions else request.conditions)

/-- `null` and the empty string stand for a field that is not there. -/
def isUndefined : Json → Bool
  | .null => true
  | .string s => s == ""
  | _ => false

def offers (resolver : Resolver) (v : Json) (request : Request) : Except Error (Table Offer) :=
  if isUndefined v then .error .undefinedExports
  else do
    Declaration.check v
    let declaration ← Declaration.ofJson v
    declaration.offers (resolver.conditionsFor request)

def flatten (resolver : Resolver) (v : Json) (request : Request) (view : FileView) :
    Except Error (Table String) := do
  expand (← resolver.offers v request) request.root? view

end Resolver

/-- The object with a member for each row of a table. -/
def Table.toJson (table : Table String) : Json :=
  .object (table.toList.map fun (subpath, target) => (subpath, .string target))

end EntryPoints
