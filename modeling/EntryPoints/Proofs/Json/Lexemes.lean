import EntryPoints.Proofs.Json.Quoted
import Mathlib.Data.List.Forall2

/-!
# The lexemes of a written value

A value has the same lexemes in every layout, since layouts differ in blanks only. Texts whose
lexemes do not depend on what follows them can be joined, so the lexemes of a container are those of
its parts. A numeral is no such text: it goes on as long as digits follow.
-/

set_option autoImplicit false

namespace EntryPoints.Json

mutual
/-- The lexemes that a value is written in. -/
def lexemes : Json → List Lexeme
  | .null => [.null]
  | .boolean b => [.boolean b]
  | .number n => [.number n]
  | .string s => [.quoted (Mark.ofString s)]
  | .array items => .openArray :: [.comma].intercalate (lexemesOfItems items) ++ [.closeArray]
  | .object members =>
    .openObject :: [.comma].intercalate (lexemesOfMembers members) ++ [.closeObject]

def lexemesOfItems : List Json → List (List Lexeme)
  | [] => []
  | v :: rest => lexemes v :: lexemesOfItems rest

def lexemesOfMembers : List (String × Json) → List (List Lexeme)
  | [] => []
  | (k, v) :: rest => (.quoted (Mark.ofString k) :: .colon :: lexemes v) :: lexemesOfMembers rest
end

/-- The values that are read back from their texts: without numerals, with each key named once, and
with so many levels of containers at most. -/
inductive Readable : Nat → Json → Prop where
  | null (room : Nat) : Readable room .null
  | boolean (room : Nat) (b : Bool) : Readable room (.boolean b)
  | string (room : Nat) (s : String) : Readable room (.string s)
  | array (room : Nat) (items : List Json) (hitems : ∀ v ∈ items, Readable room v) :
      Readable (room + 1) (.array items)
  | object (room : Nat) (members : List (String × Json)) (hkeys : (members.map Prod.fst).Nodup)
      (hmembers : ∀ member ∈ members, Readable room member.2) :
      Readable (room + 1) (.object members)

/-- A text that is cut into some lexemes, whatever follows it. -/
def Scans (text : List Char) (xs : List Lexeme) : Prop :=
  ∀ rest, Lexeme.all? (text ++ rest) = (Lexeme.all? rest).map (xs ++ ·)

namespace Scans

theorem nil : Scans [] [] := by
  intro rest
  simp

theorem append {s t : List Char} {xs ys : List Lexeme} (hs : Scans s xs)
    (ht : Scans t ys) : Scans (s ++ t) (xs ++ ys) := by
  intro rest
  rw [List.append_assoc, hs, ht, Option.map_map]
  simp only [Function.comp_def, List.append_assoc]

theorem blanks (text : List Char) (h : ∀ c ∈ text, Lexeme.isBlank c = true) : Scans text [] := by
  induction text with
  | nil => exact nil
  | cons c text ih =>
    intro rest
    rw [List.cons_append, Lexeme.all?, if_pos (h c List.mem_cons_self)]
    exact ih (fun d hd => h d (List.mem_cons_of_mem c hd)) rest

/-- What is read as one lexeme, and does not start with a blank. -/
theorem lexeme (c : Char) (text : List Char) (x : Lexeme) (hblank : Lexeme.isBlank c = false)
    (h : ∀ rest, Lexeme.next? (c :: text ++ rest) = some (x, rest)) : Scans (c :: text) [x] := by
  intro rest
  rw [List.cons_append, Lexeme.all?, if_neg (by simp [hblank])]
  have hnext := h rest
  rw [List.cons_append] at hnext
  split
  case h_1 hnone => simp [hnext] at hnone
  case h_2 y others hsome =>
    rw [hnext] at hsome
    cases hsome
    rfl

theorem quoted (s : String) : Scans (quote s) [.quoted (Mark.ofString s)] := by
  apply lexeme '"' (s.toList.flatMap escape ++ ['"']) _ (by decide)
  intro rest
  have hmarks := marks_quoted s.toList rest
  rw [List.cons_append, List.append_assoc, Lexeme.next?]
  rw [show ['"'] ++ rest = '"' :: rest from rfl, hmarks]
  rfl

theorem comma : Scans [','] [.comma] := lexeme ',' [] .comma (by decide) fun _ => rfl

theorem intercalate {texts : List (List Char)} {lists : List (List Lexeme)}
    (h : List.Forall₂ Scans texts lists) :
    Scans ([','].intercalate texts) ([.comma].intercalate lists) := by
  induction h with
  | nil => exact nil
  | @cons text list texts lists hfirst hrest ih =>
    cases hrest with
    | nil =>
      rw [List.intercalate_singleton, List.intercalate_singleton]
      exact hfirst
    | cons hsecond hothers =>
      rw [List.intercalate_cons_cons, List.intercalate_cons_cons]
      exact (hfirst.append comma).append ih

end Scans

/-- A layout that adds nothing but blanks. -/
structure Layout.Loose (layout : Layout) : Prop where
  newline : ∀ level, ∀ c ∈ layout.newline level, Lexeme.isBlank c = true
  colon : Scans layout.colon [.colon]

theorem Layout.compact_loose : Layout.compact.Loose where
  newline := by simp [Layout.compact]
  colon := Scans.lexeme ':' [] .colon (by decide) fun _ => rfl

theorem Layout.pretty_loose : Layout.pretty.Loose where
  newline := by
    intro level c h
    simp only [Layout.pretty, List.mem_cons, List.mem_replicate] at h
    rcases h with rfl | ⟨_, rfl⟩ <;> decide
  colon := (Scans.lexeme ':' [] .colon (by decide) fun _ => rfl).append
    (Scans.blanks [' '] fun c h => by rw [List.mem_singleton.mp h]; decide)

theorem scans_bracket {layout : Layout} (hloose : layout.Loose) (level : Nat) (left right : Char)
    (first last : Lexeme) (hleft : Scans [left] [first]) (hright : Scans [right] [last])
    {texts : List (List Char)} {lists : List (List Lexeme)} (h : List.Forall₂ Scans texts lists) :
    Scans (layout.bracket level left right texts)
      (first :: [.comma].intercalate lists ++ [last]) := by
  cases h with
  | nil => exact hleft.append hright
  | @cons text list texts lists hfirst hrest =>
    have hindented (level : Nat) {text : List Char} {list : List Lexeme} (h : Scans text list) :
        Scans (layout.newline level ++ text) list :=
      (Scans.blanks _ (hloose.newline level)).append h
    have hitems : List.Forall₂ Scans ((text :: texts).map (layout.newline (level + 1) ++ ·))
        (list :: lists) := by
      rw [List.forall₂_map_left_iff]
      exact (List.Forall₂.cons hfirst hrest).imp fun _ _ h => hindented (level + 1) h
    have hbody := hleft.append (Scans.intercalate hitems)
    have hclosed := hbody.append (hindented level hright)
    simpa [Layout.bracket] using hclosed

theorem scans_items (layout : Layout) (level : Nat) (items : List Json)
    (h : ∀ v ∈ items, Scans (layout.write level v) (lexemes v)) :
    List.Forall₂ Scans (layout.items level items) (lexemesOfItems items) := by
  induction items with
  | nil => exact List.Forall₂.nil
  | cons v items ih =>
    rw [List.forall_mem_cons] at h
    exact List.Forall₂.cons h.1 (ih h.2)

theorem scans_members {layout : Layout} (hloose : layout.Loose) (level : Nat)
    (members : List (String × Json))
    (h : ∀ member ∈ members, Scans (layout.write level member.2) (lexemes member.2)) :
    List.Forall₂ Scans (layout.members level members) (lexemesOfMembers members) := by
  induction members with
  | nil => exact List.Forall₂.nil
  | cons member members ih =>
    rw [List.forall_mem_cons] at h
    have hkey := (Scans.quoted member.1).append hloose.colon
    exact List.Forall₂.cons (hkey.append h.1) (ih h.2)

theorem scans_write {layout : Layout} (hloose : layout.Loose) (room level : Nat) (v : Json)
    (h : Readable room v) : Scans (layout.write level v) (lexemes v) := by
  induction h generalizing level with
  | null => exact Scans.lexeme 'n' ['u', 'l', 'l'] .null (by decide) fun _ => rfl
  | boolean _ b =>
    cases b with
    | true => exact Scans.lexeme 't' ['r', 'u', 'e'] (.boolean true) (by decide) fun _ => rfl
    | false => exact Scans.lexeme 'f' ['a', 'l', 's', 'e'] (.boolean false) (by decide) fun _ => rfl
  | string _ s =>
    rw [Layout.write, lexemes]
    exact Scans.quoted s
  | array _ items _ ih =>
    rw [Layout.write, lexemes]
    have hleft : Scans ['['] [.openArray] := Scans.lexeme '[' [] _ (by decide) fun _ => rfl
    have hright : Scans [']'] [.closeArray] := Scans.lexeme ']' [] _ (by decide) fun _ => rfl
    have hitems := scans_items layout (level + 1) items fun v hv => ih v hv (level + 1)
    exact scans_bracket hloose level _ _ _ _ hleft hright hitems
  | object _ members _ _ ih =>
    rw [Layout.write, lexemes]
    have hleft : Scans ['\x7b'] [.openObject] := Scans.lexeme '\x7b' [] _ (by decide) fun _ => rfl
    have hright : Scans ['\x7d'] [.closeObject] :=
      Scans.lexeme '\x7d' [] _ (by decide) fun _ => rfl
    have hmembers := scans_members hloose (level + 1) members
      fun member hmember => ih member hmember (level + 1)
    exact scans_bracket hloose level _ _ _ _ hleft hright hmembers

/-- A written value is cut into its lexemes. -/
theorem all_write {layout : Layout} (hloose : layout.Loose) (room level : Nat) (v : Json)
    (h : Readable room v) : Lexeme.all? (layout.write level v) = some (lexemes v) := by
  have hscans := scans_write hloose room level v h []
  rw [List.append_nil, Lexeme.all?] at hscans
  simpa using hscans

end EntryPoints.Json
