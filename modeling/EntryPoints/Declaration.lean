import EntryPoints.Choice

/-!
# Declarations

The value of an `exports` field is either one choice, which stands for the package itself, or an
object from subpaths to choices. Subpaths start with `.` and condition names do not, so the keys
tell the two apart; an object with keys of both sorts is refused.
-/

set_option autoImplicit false

namespace EntryPoints

inductive Declaration where
  | main (choice : Choice)
  | subpaths (entries : List (String × Choice))
  deriving DecidableEq, Repr

/-- What a subpath comes to: a target, or the statement that it has none. -/
inductive Offer where
  | target (path : String)
  | withheld
  deriving DecidableEq, Repr

namespace Declaration

def isSubpath (key : String) : Bool := Text.startsWith "." key

/-- Whether a value is an object whose keys, at least one, are all subpaths. -/
def listsSubpaths : Json → Bool
  | .object members => !members.isEmpty && members.all fun (key, _) => isSubpath key
  | _ => false

/-- Refuses values that declare nothing and objects that mix subpaths with condition names. -/
def check : Json → Except Error Unit
  | .null | .array [] | .object [] => .error .emptyExports
  | .object members =>
    if members.any fun (key, _) => isSubpath key then
      match members.find? fun (key, _) => !isSubpath key with
      | some (key, _) => .error (.mixedKeyFormat key)
      | none => .ok ()
    else .ok ()
  | _ => .ok ()

def ofJson (v : Json) : Except Error Declaration :=
  match v with
  | .object members =>
    if listsSubpaths v then (Choice.ofMembers members).map .subpaths
    else (Choice.ofJson v).map .main
  | v => (Choice.ofJson v).map .main

/-- What is offered under each declared subpath, in order. Unresolved ones drop out. -/
def rows (conditions : ConditionSet) : List (String × Choice) → Except Error (List (String × Offer))
  | [] => .ok []
  | (subpath, choice) :: rest => do
    let selection ← choice.select conditions
    let offers ← rows conditions rest
    match selection with
    | .unresolved => return offers
    | .target path => return (subpath, .target path) :: offers
    | .withheld => return (subpath, .withheld) :: offers

/-- The offers of a declaration. The main choice is offered as `.`, and only with a target. -/
def offers (conditions : ConditionSet) : Declaration → Except Error (Table Offer)
  | .main choice => do
    match ← choice.select conditions with
    | .target path => return Table.ofRows [(".", .target path)]
    | _ => return ∅
  | .subpaths entries => (rows conditions entries).map Table.ofRows

end Declaration

end EntryPoints
