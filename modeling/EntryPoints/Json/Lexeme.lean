import EntryPoints.Json.Basic

/-!
# Lexemes of JSON texts

A text is cut into punctuation, words, numerals and quoted strings. A quoted string is kept as the
list of its marks, since an escape may name half of a surrogate pair: which marks make a string is
decided by `Mark.text?`.
-/

set_option autoImplicit false

namespace EntryPoints.Json

/-- One written character of a quoted string, or the 16-bit unit that an escape names. -/
inductive Mark where
  | char (c : Char)
  | unit (code : Nat)
  deriving DecidableEq, Repr

namespace Mark

def isHigh (code : Nat) : Bool := 0xD800 ≤ code && code < 0xDC00

def isLow (code : Nat) : Bool := 0xDC00 ≤ code && code < 0xE000

/-- A high unit must be followed by a low one, and a low one must follow a high one. -/
def text? : List Mark → Option (List Char)
  | [] => some []
  | .char c :: rest => (text? rest).map (c :: ·)
  | .unit a :: rest =>
    if isHigh a then
      match rest with
      | .unit b :: rest =>
        if isLow b then
          (text? rest).map (Char.ofNat (0x10000 + (a - 0xD800) * 0x400 + (b - 0xDC00)) :: ·)
        else none
      | _ => none
    else if isLow a then none
    else (text? rest).map (Char.ofNat a :: ·)

end Mark

inductive Lexeme where
  | openObject
  | closeObject
  | openArray
  | closeArray
  | colon
  | comma
  | null
  | boolean (value : Bool)
  | number (value : Numeral)
  | quoted (marks : List Mark)
  deriving DecidableEq, Repr

namespace Lexeme

def isBlank (c : Char) : Bool := c == ' ' || c == '\t' || c == '\n' || c == '\r'

def hexDigit? (c : Char) : Option Nat :=
  if '0' ≤ c ∧ c ≤ '9' then some (c.toNat - '0'.toNat)
  else if 'a' ≤ c ∧ c ≤ 'f' then some (c.toNat - 'a'.toNat + 10)
  else if 'A' ≤ c ∧ c ≤ 'F' then some (c.toNat - 'A'.toNat + 10)
  else none

def hex4? (a b c d : Char) : Option Nat := do
  return (((← hexDigit? a) * 16 + (← hexDigit? b)) * 16 + (← hexDigit? c)) * 16 + (← hexDigit? d)

/-- The character a one-letter escape stands for. -/
def escaped? : Char → Option Char
  | '"' => some '"'
  | '\\' => some '\\'
  | '/' => some '/'
  | 'b' => some '\x08'
  | 'f' => some '\x0c'
  | 'n' => some '\n'
  | 'r' => some '\r'
  | 't' => some '\t'
  | _ => none

/-- The marks up to the closing quote, and what follows it. Control characters must be escaped. -/
def marks : List Char → Option (List Mark × List Char)
  | [] => none
  | '"' :: rest => some ([], rest)
  | '\\' :: 'u' :: a :: b :: c :: d :: rest => do
    let code ← hex4? a b c d
    let (ms, rest) ← marks rest
    return (.unit code :: ms, rest)
  | '\\' :: e :: rest => do
    let c ← escaped? e
    let (ms, rest) ← marks rest
    return (.char c :: ms, rest)
  | c :: rest =>
    if c = '\\' ∨ c.toNat < 0x20 then none
    else do
      let (ms, rest) ← marks rest
      return (.char c :: ms, rest)

def digits (s : List Char) : List Char × List Char :=
  (s.takeWhile Numeral.isDigit, s.dropWhile Numeral.isDigit)

/-- The fraction, if a point follows; a point must be followed by a digit. -/
def fraction? : List Char → Option (List Char × List Char)
  | '.' :: rest => if (digits rest).1.isEmpty then none else some (digits rest)
  | rest => some ([], rest)

def power? (negative : Bool) (s : List Char) : Option (Option Int × List Char) :=
  let (ds, rest) := digits s
  if ds.isEmpty then none
  else some (some (if negative then -(Numeral.value ds : Int) else Numeral.value ds), rest)

/-- Whether a minus stands in front, and what follows the sign. -/
def sign : List Char → Bool × List Char
  | '-' :: rest => (true, rest)
  | '+' :: rest => (false, rest)
  | rest => (false, rest)

/-- The exponent, if a letter for it follows; after its sign there must be a digit. -/
def exponent? (s : List Char) : Option (Option Int × List Char) :=
  match s with
  | [] => some (none, [])
  | c :: rest => if c = 'e' ∨ c = 'E' then power? (sign rest).1 (sign rest).2 else some (none, s)

/-- Whether digits are a whole part: some digit, and no leading zero before another. -/
def isWhole (ds : List Char) : Bool :=
  match ds with
  | [] => false
  | [_] => true
  | c :: _ => c != '0'

def unsigned? (negative : Bool) (s : List Char) : Option (Numeral × List Char) :=
  if isWhole (digits s).1 then do
    let (fraction, rest) ← fraction? (digits s).2
    let (exponent, rest) ← exponent? rest
    return (⟨negative, (digits s).1, fraction, exponent⟩, rest)
  else none

def numeral? : List Char → Option (Numeral × List Char)
  | '-' :: rest => unsigned? true rest
  | s => unsigned? false s

/-- The lexeme at the front of a text that starts with no blank, and what follows it. -/
def next? : List Char → Option (Lexeme × List Char)
  | '\x7b' :: rest => some (.openObject, rest)
  | '\x7d' :: rest => some (.closeObject, rest)
  | '[' :: rest => some (.openArray, rest)
  | ']' :: rest => some (.closeArray, rest)
  | ':' :: rest => some (.colon, rest)
  | ',' :: rest => some (.comma, rest)
  | '"' :: rest => (marks rest).map fun (ms, rest) => (.quoted ms, rest)
  | 'n' :: 'u' :: 'l' :: 'l' :: rest => some (.null, rest)
  | 't' :: 'r' :: 'u' :: 'e' :: rest => some (.boolean true, rest)
  | 'f' :: 'a' :: 'l' :: 's' :: 'e' :: rest => some (.boolean false, rest)
  | s => (numeral? s).map fun (n, rest) => (.number n, rest)

theorem length_of_marks {s rest : List Char} {ms : List Mark} (h : marks s = some (ms, rest)) :
    rest.length < s.length := by
  fun_induction marks s generalizing ms rest with
  | case1 => simp at h
  | case2 r => simp_all
  | case3 a b c d r ih =>
    simp only [Option.bind_eq_bind, Option.bind_eq_some_iff, Option.pure_def] at h
    obtain ⟨_, _, ⟨ms', r'⟩, h', h⟩ := h
    have := ih h'
    simp only [Option.some.injEq, Prod.mk.injEq] at h
    simp only [List.length_cons, ← h.2]
    omega
  | case4 e r _ ih =>
    simp only [Option.bind_eq_bind, Option.bind_eq_some_iff, Option.pure_def] at h
    obtain ⟨_, _, ⟨ms', r'⟩, h', h⟩ := h
    have := ih h'
    simp only [Option.some.injEq, Prod.mk.injEq] at h
    simp only [List.length_cons, ← h.2]
    omega
  | case5 => simp at h
  | case6 c r _ _ _ _ ih =>
    simp only [Option.bind_eq_bind, Option.bind_eq_some_iff, Option.pure_def] at h
    obtain ⟨⟨ms', r'⟩, h', h⟩ := h
    have := ih h'
    simp only [Option.some.injEq, Prod.mk.injEq] at h
    simp only [List.length_cons, ← h.2]
    omega

theorem length_digits (s : List Char) :
    (digits s).1.length + (digits s).2.length = s.length := by
  rw [← List.length_append]
  exact congrArg List.length List.takeWhile_append_dropWhile

theorem length_of_fraction? {s rest ds : List Char} (h : fraction? s = some (ds, rest)) :
    rest.length ≤ s.length := by
  unfold fraction? at h
  split at h
  · rename_i r
    have := length_digits r
    split at h
    · simp at h
    · simp only [Option.some.injEq, Prod.ext_iff] at h
      simp only [List.length_cons, ← h.2]
      omega
  · simp_all

theorem length_of_power? {negative : Bool} {s rest : List Char} {p : Option Int}
    (h : power? negative s = some (p, rest)) : rest.length ≤ s.length := by
  have := length_digits s
  simp only [power?] at h
  split at h
  · simp at h
  · simp only [Option.some.injEq, Prod.mk.injEq] at h
    rw [← h.2]
    omega

theorem length_sign (s : List Char) : (sign s).2.length ≤ s.length := by
  unfold sign
  split <;> simp

theorem length_of_exponent? {s rest : List Char} {p : Option Int}
    (h : exponent? s = some (p, rest)) : rest.length ≤ s.length := by
  unfold exponent? at h
  split at h
  · simp_all
  · rename_i c r
    split at h
    · have h1 := length_of_power? h
      have h2 := length_sign r
      simp only [List.length_cons]
      omega
    · simp_all

theorem length_of_unsigned? {negative : Bool} {s rest : List Char} {n : Numeral}
    (h : unsigned? negative s = some (n, rest)) : rest.length < s.length := by
  unfold unsigned? at h
  split at h
  · rename_i hw
    simp only [Option.bind_eq_bind, Option.bind_eq_some_iff, Option.pure_def] at h
    obtain ⟨⟨f, r⟩, hf, ⟨e, r'⟩, he, h⟩ := h
    have h1 := length_of_fraction? hf
    have h2 := length_of_exponent? he
    have h3 := length_digits s
    have h4 : (digits s).1 ≠ [] := by
      intro h0
      rw [h0] at hw
      exact absurd hw (by decide)
    have h5 := List.length_pos_iff.2 h4
    simp only [Option.some.injEq, Prod.mk.injEq] at h
    rw [← h.2]
    simp only at h1 h2
    omega
  · exact absurd h (by simp)

theorem length_of_numeral? {s rest : List Char} {n : Numeral}
    (h : numeral? s = some (n, rest)) : rest.length < s.length := by
  unfold numeral? at h
  split at h
  · have := length_of_unsigned? h
    simp only [List.length_cons]
    omega
  · exact length_of_unsigned? h

theorem length_of_next? {s rest : List Char} {x : Lexeme} (h : next? s = some (x, rest)) :
    rest.length < s.length := by
  unfold next? at h
  split at h
  case h_7 r =>
    simp only [Option.map_eq_some_iff] at h
    obtain ⟨⟨ms, r'⟩, h', h⟩ := h
    have := length_of_marks h'
    simp only [Prod.mk.injEq] at h
    simp only [List.length_cons, ← h.2]
    omega
  case h_11 =>
    simp only [Option.map_eq_some_iff] at h
    obtain ⟨⟨n, r'⟩, h', h⟩ := h
    simp only [Prod.mk.injEq] at h
    rw [← h.2]
    exact length_of_numeral? h'
  all_goals
    simp only [Option.some.injEq, Prod.mk.injEq] at h
    simp only [List.length_cons, ← h.2]
    omega

/-- All lexemes of a text, blanks between them dropped. -/
def all? (s : List Char) : Option (List Lexeme) :=
  match s with
  | [] => some []
  | c :: rest =>
    if isBlank c then all? rest
    else
      match _h : next? (c :: rest) with
      | none => none
      | some (x, rest) => (all? rest).map (x :: ·)
termination_by s.length
decreasing_by
  · simp
  · exact length_of_next? _h

end Lexeme

end EntryPoints.Json
