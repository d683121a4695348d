import EntryPoints.Json.Basic

/-!
# Writing JSON values

Two layouts: one without any blank, and one with a line for each item and two spaces a level, where
an empty container stays on its line. In strings the quote, the backslash and the characters below
U+0020 are escaped and all others stand for themselves.
-/

set_option autoImplicit false

namespace EntryPoints.Json

def hexDigit (n : Nat) : Char := (Nat.toDigits 16 (n % 16)).headD '0'

def escape (c : Char) : List Char :=
  match c with
  | '"' => ['\\', '"']
  | '\\' => ['\\', '\\']
  | '\x08' => ['\\', 'b']
  | '\x0c' => ['\\', 'f']
  | '\n' => ['\\', 'n']
  | '\r' => ['\\', 'r']
  | '\t' => ['\\', 't']
  | c =>
    if c.toNat < 0x20 then ['\\', 'u', '0', '0', hexDigit (c.toNat / 16), hexDigit c.toNat]
    else [c]

def quote (s : String) : List Char := '"' :: s.toList.flatMap escape ++ ['"']

/-- How containers are laid out at a level of nesting. -/
structure Layout where
  /-- What stands before an item, and before the closing bracket, at a level. -/
  newline : Nat → List Char
  colon : List Char

def Layout.compact : Layout := ⟨fun _ => [], [':']⟩

def Layout.pretty : Layout := ⟨fun level => '\n' :: List.replicate (2 * level) ' ', [':', ' ']⟩

namespace Layout

/-- Items between brackets at a level, each on what `newline` gives for the level inside. -/
def bracket (layout : Layout) (level : Nat) (left right : Char) (items : List (List Char)) :
    List Char :=
  match items with
  | [] => [left, right]
  | items =>
    left :: [','].intercalate (items.map (layout.newline (level + 1) ++ ·)) ++
      layout.newline level ++ [right]

mutual
def write (layout : Layout) (level : Nat) : Json → List Char
  | .null => "null".toList
  | .boolean b => (if b then "true" else "false").toList
  | .number n => n.spell
  | .string s => quote s
  | .array items => layout.bracket level '[' ']' (layout.items (level + 1) items)
  | .object members => layout.bracket level '\x7b' '\x7d' (layout.members (level + 1) members)

def items (layout : Layout) (level : Nat) : List Json → List (List Char)
  | [] => []
  | v :: rest => layout.write level v :: layout.items level rest

def members (layout : Layout) (level : Nat) : List (String × Json) → List (List Char)
  | [] => []
  | (k, v) :: rest => (quote k ++ layout.colon ++ layout.write level v) :: layout.members level rest
end

end Layout

def compact (v : Json) : String := String.ofList (Layout.compact.write 0 v)

def pretty (v : Json) : String := String.ofList (Layout.pretty.write 0 v)

end EntryPoints.Json
