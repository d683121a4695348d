import EntryPoints.Json.Form

/-!
# Reading JSON texts

A form means a value when its strings are sequences of characters, its numerals are representable
as doubles, and containers are nested at most `depthLimit` deep. Repeated keys are settled by
`Json.put`.
-/

set_option autoImplicit false

namespace EntryPoints.Json

def depthLimit : Nat := 127

namespace Form

mutual
/-- The value of a form, with room for so many levels of containers. -/
def value? (room : Nat) : Form → Option Json
  | .null => some .null
  | .boolean b => some (.boolean b)
  | .number n => if n.representable then some (.number n) else none
  | .quoted ms => (text? ms).map .string
  | .array items =>
    match room with
    | 0 => none
    | room + 1 => (values? room items).map .array
  | .object members =>
    match room with
    | 0 => none
    | room + 1 => (members? room [] members).map .object

def values? (room : Nat) : List Form → Option (List Json)
  | [] => some []
  | form :: rest => do
    let v ← value? room form
    let vs ← values? room rest
    return v :: vs

def members? (room : Nat) (done : List (String × Json)) :
    List (List Mark × Form) → Option (List (String × Json))
  | [] => some done
  | (key, form) :: rest => do
    let k ← text? key
    let v ← value? room form
    members? room (put k v done) rest
end

end Form

/-- The value of a text, if it is one. -/
def read? (text : String) : Option Json := (Form.parse? text).bind (Form.value? depthLimit)

end EntryPoints.Json
