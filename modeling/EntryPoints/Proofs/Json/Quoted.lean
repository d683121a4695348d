import EntryPoints.Json.Printer
import EntryPoints.Json.Reader

/-!
# Quoted strings

An escape is read as one mark, and the marks of a quoted string spell the string: control characters
without a letter of their own become units, none of which is half of a surrogate pair.
-/

set_option autoImplicit false

namespace EntryPoints.Json

/-- The mark that a character is read as once it is written. -/
def Mark.ofChar (c : Char) : Mark :=
  if c.toNat < 0x20 ∧ c ∉ ['\x08', '\x0c', '\n', '\r', '\t'] then .unit c.toNat else .char c

/-- The marks of a string, as it is quoted. -/
def Mark.ofString (s : String) : List Mark := s.toList.map Mark.ofChar

theorem hex4_of_control : ∀ n < 0x20,
    Lexeme.hex4? '0' '0' (hexDigit (n / 16)) (hexDigit n) = some n := by
  decide

theorem marks_printed (c : Char) (rest : List Char) (hquote : c ≠ '"') (hslash : c ≠ '\\')
    (hprinted : ¬c.toNat < 0x20) :
    Lexeme.marks (c :: rest) =
      (Lexeme.marks rest).map fun read => (.char c :: read.1, read.2) := by
  rw [Lexeme.marks.eq_def]
  split
  case h_1 hnil => simp at hnil
  case h_2 hcons => exact absurd (List.cons.inj hcons).1 hquote
  case h_3 hcons => exact absurd (List.cons.inj hcons).1 hslash
  case h_4 hcons => exact absurd (List.cons.inj hcons).1 hslash
  case h_5 d others _ _ _ hcons =>
    obtain ⟨rfl, rfl⟩ := List.cons.inj hcons
    rw [if_neg (by simp [hslash, hprinted]), Option.map_eq_bind]
    rfl

theorem marks_escape (c : Char) (rest : List Char) :
    Lexeme.marks (escape c ++ rest) =
      (Lexeme.marks rest).map fun read => (Mark.ofChar c :: read.1, read.2) := by
  unfold escape
  split
  case h_8 _ hquote hslash hback hfeed hline hreturn htab =>
    split
    case isTrue hcontrol =>
      have hcode := hex4_of_control c.toNat hcontrol
      have hmark : Mark.ofChar c = .unit c.toNat := by simp_all [Mark.ofChar]
      simp only [List.cons_append, List.nil_append, Lexeme.marks, hcode, hmark, Option.bind_eq_bind,
        Option.bind_some, Option.map_eq_bind]
      rfl
    case isFalse hprinted =>
      have hmark : Mark.ofChar c = .char c := if_neg fun h => hprinted h.1
      rw [hmark]
      exact marks_printed c rest hquote hslash hprinted
  all_goals
    rw [Option.map_eq_bind]
    rfl

theorem marks_quoted (s rest : List Char) :
    Lexeme.marks (s.flatMap escape ++ '"' :: rest) = some (s.map Mark.ofChar, rest) := by
  induction s with
  | nil => rfl
  | cons c s ih =>
    rw [List.flatMap_cons, List.append_assoc, marks_escape, ih]
    rfl

theorem text_ofChar (c : Char) (marks : List Mark) :
    Mark.text? (Mark.ofChar c :: marks) = (Mark.text? marks).map (c :: ·) := by
  unfold Mark.ofChar
  split
  case isTrue h =>
    have hhigh : ¬0xD800 ≤ c.toNat := by omega
    have hlow : ¬0xDC00 ≤ c.toNat := by omega
    rw [Mark.text?.eq_def]
    simp [Mark.isHigh, Mark.isLow, hhigh, hlow, Char.ofNat_toNat]
  case isFalse => rfl

theorem text_ofString (s : String) : Form.text? (Mark.ofString s) = some s := by
  have hchars (chars : List Char) : Mark.text? (chars.map Mark.ofChar) = some chars := by
    induction chars with
    | nil => rfl
    | cons c chars ih => rw [List.map_cons, text_ofChar, ih, Option.map_some]
  rw [Form.text?, Mark.ofString, hchars, Option.map_some, String.ofList_toList]

end EntryPoints.Json
