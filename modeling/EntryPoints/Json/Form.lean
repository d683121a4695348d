import EntryPoints.Json.Lexeme

/-!
# The form of a JSON text

A form is what the grammar alone says of a text: members as often as they are written, strings as
marks, numerals of any size, nesting of any depth. It is built from the lexemes one at a time. The
builder holds the containers that are still open, innermost first, and what it may meet next.
-/

set_option autoImplicit false

namespace EntryPoints.Json

inductive Form where
  | null
  | boolean (value : Bool)
  | number (value : Numeral)
  | quoted (marks : List Mark)
  | array (items : List Form)
  | object (members : List (List Mark × Form))
  deriving Repr, Inhabited

namespace Form

/-- A container that is not closed yet, with what it holds so far, latest first. -/
inductive Open where
  | array (items : List Form)
  | object (members : List (List Mark × Form)) (key : List Mark)
  deriving Repr, Inhabited

/-- What may come next, given the open containers. -/
inductive Builder where
  | value (outer : List Open)
  | firstItem (outer : List Open)
  | firstKey (outer : List Open)
  | key (members : List (List Mark × Form)) (outer : List Open)
  | colon (members : List (List Mark × Form)) (key : List Mark) (outer : List Open)
  | after (form : Form) (outer : List Open)
  deriving Repr, Inhabited

namespace Builder

/-- A lexeme where a value must start. -/
def start? (outer : List Open) : Lexeme → Option Builder
  | .openObject => some (.firstKey outer)
  | .openArray => some (.firstItem outer)
  | .null => some (.after .null outer)
  | .boolean b => some (.after (.boolean b) outer)
  | .number n => some (.after (.number n) outer)
  | .quoted ms => some (.after (.quoted ms) outer)
  | .closeObject | .closeArray | .colon | .comma => none

def next? : Builder → Lexeme → Option Builder
  | .value outer, x => start? outer x
  | .firstItem outer, .closeArray => some (.after (.array []) outer)
  | .firstItem outer, x => start? (.array [] :: outer) x
  | .firstKey outer, .closeObject => some (.after (.object []) outer)
  | .firstKey outer, .quoted name => some (.colon [] name outer)
  | .key members outer, .quoted name => some (.colon members name outer)
  | .colon members name outer, .colon => some (.value (.object members name :: outer))
  | .after form (.array items :: outer), .comma => some (.value (.array (form :: items) :: outer))
  | .after form (.array items :: outer), .closeArray =>
    some (.after (.array (form :: items).reverse) outer)
  | .after form (.object members name :: outer), .comma =>
    some (.key ((name, form) :: members) outer)
  | .after form (.object members name :: outer), .closeObject =>
    some (.after (.object ((name, form) :: members).reverse) outer)
  | _, _ => none

def run? : Builder → List Lexeme → Option Builder
  | builder, [] => some builder
  | builder, x :: rest => (builder.next? x).bind fun builder => run? builder rest

/-- The form of a finished text: one value, and nothing left open. -/
def result? : Builder → Option Form
  | .after form [] => some form
  | _ => none

theorem run?_append (builder : Builder) (xs ys : List Lexeme) :
    run? builder (xs ++ ys) = (run? builder xs).bind fun builder => run? builder ys := by
  induction xs generalizing builder with
  | nil => rfl
  | cons x xs ih =>
    simp only [List.cons_append, run?]
    cases builder.next? x with
    | none => rfl
    | some builder => exact ih builder

end Builder

def ofLexemes? (xs : List Lexeme) : Option Form :=
  ((Builder.value []).run? xs).bind Builder.result?

def parse? (text : String) : Option Form := (Lexeme.all? text.toList).bind ofLexemes?

/-- The string that marks spell. -/
def text? (marks : List Mark) : Option String := (Mark.text? marks).map String.ofList

end Form

end EntryPoints.Json
