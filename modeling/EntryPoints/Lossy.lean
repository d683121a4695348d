import EntryPoints.Text

/-!
# Lossy decoding of UTF-8

Bytes that are not UTF-8 are replaced: one U+FFFD for each maximal part that could have started a
character. A character's first byte fixes how many bytes follow and what range the second must be
in; that range is where overlong forms, surrogates and code points past U+10FFFF are shut out.
-/

set_option autoImplicit false

namespace EntryPoints.Lossy

def replacement : Char := '\uFFFD'

/-- The number of bytes after a first byte, the bits it carries, and the range of the byte after
it. -/
def lead? (b : UInt8) : Option (Nat × Nat × UInt8 × UInt8) :=
  if b < 0x80 then some (0, b.toNat, 0, 0)
  else if 0xC2 ≤ b && b < 0xE0 then some (1, b.toNat - 0xC0, 0x80, 0xBF)
  else if b == 0xE0 then some (2, 0, 0xA0, 0xBF)
  else if b == 0xED then some (2, 0xD, 0x80, 0x9F)
  else if 0xE1 ≤ b && b < 0xF0 then some (2, b.toNat - 0xE0, 0x80, 0xBF)
  else if b == 0xF0 then some (3, 0, 0x90, 0xBF)
  else if 0xF1 ≤ b && b < 0xF4 then some (3, b.toNat - 0xF0, 0x80, 0xBF)
  else if b == 0xF4 then some (3, 4, 0x80, 0x8F)
  else none

/-- What a decoder holds between two bytes: nothing, or a character it has begun, with the bytes
still missing, the code so far and the range of the next byte. -/
inductive State where
  | idle
  | pending (missing code : Nat) (low high : UInt8)
  deriving DecidableEq, Repr

/-- Starts a character at a byte. -/
def start (b : UInt8) : List Char × State :=
  match lead? b with
  | none => ([replacement], .idle)
  | some (0, code, _, _) => ([Char.ofNat code], .idle)
  | some (missing + 1, code, low, high) => ([], .pending missing code low high)

/-- Takes one byte. A byte out of range ends the character begun and starts another. -/
def step : State → UInt8 → List Char × State
  | .idle, b => start b
  | .pending missing code low high, b =>
    if low ≤ b && b ≤ high then
      let code := code * 64 + (b.toNat - 0x80)
      match missing with
      | 0 => ([Char.ofNat code], .idle)
      | missing + 1 => ([], .pending missing code 0x80 0xBF)
    else
      let (out, state) := start b
      (replacement :: out, state)

def run : State → Bytes → List Char
  | .idle, [] => []
  | .pending _ _ _ _, [] => [replacement]
  | state, b :: rest => (step state b).1 ++ run (step state b).2 rest

def decode (bytes : Bytes) : String := String.ofList (run .idle bytes)

/-- The text that bytes are the UTF-8 of, if they are. -/
def text? (bytes : Bytes) : Option String :=
  let text := decode bytes
  if Text.bytes text = bytes then some text else none

end EntryPoints.Lossy
