import EntryPoints.Proofs.Path.Spelled

/-!
# Names with separators between them

Names that stand for themselves make a tidy text: no separator opens or closes it, none follows
another one, and no part of it is `.` or `..`. The names are its parts, and it makes them again when
it is read as a path.
-/

set_option autoImplicit false

namespace EntryPoints.Path
open Step

/-- What stands between the separators of a text. An empty text has no parts. -/
def parts (text : String) : List String := if text = "" then [] else Text.cut '/' text

structure Tidy (text : String) : Prop where
  unopened : text.toList.head? ≠ some '/'
  unclosed : text.toList.getLast? ≠ some '/'
  undoubled : ¬['/', '/'] <:+: text.toList
  named : ∀ part ∈ parts text, part ≠ "." ∧ part ≠ ".."

theorem cut_separator (s t : String) :
    Text.cut '/' (s ++ "/" ++ t) = Text.cut '/' s ++ Text.cut '/' t := Text.cut_append '/' s t

theorem cut_names (names : List String) (hne : names ≠ [])
    (h : ∀ name ∈ names, Plain (Text.bytes name)) :
    Text.cut '/' ("/".intercalate names) = names := by
  have hunbroken : ∀ cs ∈ names.map String.toList, '/' ∉ cs := by
    intro cs hcs
    obtain ⟨name, hname, rfl⟩ := List.mem_map.mp hcs
    exact ((plain_bytes_iff name).mp (h name hname)).1
  rw [Text.cut, String.toList_intercalate, show "/".toList = ['/'] from rfl,
    List.splitOn_intercalate '/' hunbroken (by simpa using hne)]
  simp

theorem parts_names (names : List String) (h : ∀ name ∈ names, Plain (Text.bytes name)) :
    parts ("/".intercalate names) = names := by
  cases names with
  | nil => rfl
  | cons name rest =>
    have hcut := cut_names (name :: rest) (by simp) h
    rw [parts, if_neg, hcut]
    -- The parts of an empty text would be one empty name.
    intro hempty
    rw [hempty, show Text.cut '/' "" = [""] by decide] at hcut
    obtain rfl : "" = name := (List.cons.inj hcut).1
    exact (h "" List.mem_cons_self).nonempty rfl

/-- A separator at an end of a text, or after another one, has an empty part beside it. -/
theorem tidy_of_cut (text : String) (h : "" ∉ Text.cut '/' text)
    (hnamed : ∀ part ∈ parts text, part ≠ "." ∧ part ≠ "..") : Tidy text where
  unopened := by
    intro hhead
    obtain ⟨cs, hcs⟩ := List.head?_eq_some_iff.mp hhead
    have htext : text = "" ++ "/" ++ String.ofList cs := String.toList_inj.1 (by simp [hcs])
    rw [htext, cut_separator] at h
    exact h (List.mem_append_left _ (by decide))
  unclosed := by
    intro hlast
    obtain ⟨cs, hcs⟩ := List.getLast?_eq_some_iff.mp hlast
    have htext : text = String.ofList cs ++ "/" ++ "" := String.toList_inj.1 (by simp [hcs])
    rw [htext, cut_separator] at h
    exact h (List.mem_append_right _ (by decide))
  undoubled := by
    rintro ⟨before, after, hsplit⟩
    have htext : text = String.ofList before ++ "/" ++ "" ++ "/" ++ String.ofList after :=
      String.toList_inj.1 (by simp [← hsplit])
    rw [htext, cut_separator, cut_separator] at h
    exact h (List.mem_append_left _ (List.mem_append_right _ (by decide)))
  named := hnamed

theorem tidy_names (names : List String) (h : ∀ name ∈ names, Plain (Text.bytes name)) :
    Tidy ("/".intercalate names) := by
  by_cases hne : names = []
  · subst hne
    exact ⟨by decide, by decide, by decide, by decide⟩
  · refine tidy_of_cut _ ?_ ?_
    · rw [cut_names names hne h]
      exact fun hmem => (h "" hmem).nonempty rfl
    · rw [parts_names names h]
      intro name hname
      exact ((plain_bytes_iff name).mp (h name hname)).2.2

end EntryPoints.Path
