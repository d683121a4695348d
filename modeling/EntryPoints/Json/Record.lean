import EntryPoints.Json.Form

/-!
# Records in JSON texts

A record is written as an object with named fields or as an array with its fields in their order.
A named field may come once; members under other names are skipped, whatever they hold.
-/

set_option autoImplicit false

namespace EntryPoints.Json.Form

/-- The fields of an object under the given names. -/
def named? (names : List String) (members : List (List Mark × Form)) :
    Option (List (Option Form)) := do
  let fields ← members.mapM fun (key, form) => (text? key).map fun key => (key, form)
  if names.all fun name => (fields.filter fun (key, _) => key == name).length ≤ 1 then
    some (names.map fun name => List.lookup name fields)
  else none

/-- The fields of a record, each present or not. -/
def fields? (names : List String) : Form → Option (List (Option Form))
  | .object members => named? names members
  | .array items =>
    if items.length ≤ names.length then
      some (items.map some ++ List.replicate (names.length - items.length) none)
    else none
  | _ => none

def string? : Form → Option String
  | .quoted marks => text? marks
  | _ => none

def strings? : Form → Option (List String)
  | .array items => items.mapM string?
  | _ => none

def boolean? : Form → Option Bool
  | .boolean b => some b
  | _ => none

def natural? : Form → Option Nat
  | .number n => n.natural?
  | _ => none

/-- Reads a form that may be `null`. -/
def nullable? {α : Type} (read? : Form → Option α) : Form → Option (Option α)
  | .null => some none
  | form => (read? form).map some

/-- Reads a field that may be absent, in favour of a default. -/
def orDefault? {α : Type} (default : α) (read? : Form → Option α) : Option Form → Option α
  | none => some default
  | some form => read? form

end EntryPoints.Json.Form
