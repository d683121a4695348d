import EntryPoints.Proofs.Lossy
import EntryPoints.Proofs.Path

/-!
# Paths that texts spell

The separator and the dot are characters of one byte, so a text is cut into the same segments
whether it is cut as characters or as bytes. The steps of joined texts are those of their parts,
and what a leading `./` or trailing separators add is no step.
-/

set_option autoImplicit false

namespace EntryPoints.Path
open Step

theorem bytes_separator : Text.bytes "/" = [separator] := by decide +kernel

theorem bytes_dot : Text.bytes "." = [dot] := by decide +kernel

theorem bytes_dots : Text.bytes ".." = [dot, dot] := by decide +kernel

theorem unbroken_bytes (s : String) (h : '/' ∉ s.toList) : separator ∉ Text.bytes s := by
  intro hmem
  obtain ⟨c, hc, hcode⟩ := Text.exists_char_of_mem s separator hmem (by decide)
  have hslash : c = '/' := Char.toNat_inj.mp hcode
  exact h (hslash ▸ hc)

theorem bytes_intercalate (segments : List String) :
    Text.bytes ("/".intercalate segments) = (ofSegments (segments.map Text.bytes)).bytes := by
  induction segments with
  | nil => rfl
  | cons segment rest ih =>
    cases rest with
    | nil => rw [String.intercalate_singleton, List.map_singleton, ofSegments_singleton]
    | cons next rest =>
      rw [String.intercalate_cons_cons, Text.bytes_append, Text.bytes_append, bytes_separator, ih,
        List.append_assoc, List.singleton_append]
      exact (ofSegments_cons_cons _ _ _).symm

theorem ofText_intercalate (segments : List String) :
    ofText ("/".intercalate segments) = ofSegments (segments.map Text.bytes) := by
  rw [ofText, bytes_intercalate]

theorem relative_dotted (text : String) : (ofText ("./" ++ text)).isAbsolute = false := by
  have hlead : isAbsolute ⟨Text.bytes "./"⟩ = false := by decide +kernel
  rw [ofText, Text.bytes_append, isAbsolute_append _ _ (by decide +kernel), hlead]

/-- The steps of a text, less what only the start of a path can make. -/
def spelled (text : String) : List Step := inner (Text.bytes text)

theorem spelled_empty : spelled "" = [] := inner_nil

theorem spelled_append (s t : String) : spelled (s ++ "/" ++ t) = spelled s ++ spelled t := by
  rw [spelled, Text.bytes_append, Text.bytes_append, bytes_separator, List.append_assoc,
    List.singleton_append, inner_append]
  rfl

theorem spelled_lead (s : String) : spelled ("./" ++ s) = spelled s := by
  have hdot : spelled "." = [] := by decide +kernel
  rw [show "./" = "." ++ "/" from rfl, spelled_append, hdot, List.nil_append]

theorem spelled_separator (s : String) : spelled (s ++ "/") = spelled s := by
  rw [spelled, Text.bytes_append, bytes_separator, inner_separator]
  rfl

theorem bytes_replicate (n : Nat) :
    Text.bytes (String.ofList (List.replicate n '/')) = List.replicate n separator := by
  have hsingle : String.utf8EncodeChar '/' = [separator] := by decide
  rw [Text.bytes_eq, String.toList_ofList, List.flatMap_replicate, hsingle,
    List.flatten_replicate_singleton]

theorem spelled_trimEnd (s : String) : spelled (Text.trimEnd '/' s) = spelled s := by
  obtain ⟨n, hn⟩ := Text.trimEnd_append '/' s
  have hbytes := congrArg Text.bytes hn
  rw [Text.bytes_append, bytes_replicate] at hbytes
  rw [spelled, spelled, hbytes, inner_separators]

theorem spelled_names (names : List String) (h : ∀ name ∈ names, Plain (Text.bytes name)) :
    spelled ("/".intercalate names) = names.map Step.ofText := by
  have hplain : ∀ name ∈ names.map Text.bytes, Plain name := by simpa using h
  rw [spelled, bytes_intercalate, inner_names _ hplain, List.map_map]
  rfl

/-- A text is one name unless it is empty, a dot, two dots or has a separator in it. -/
theorem plain_bytes_iff (name : String) : Plain (Text.bytes name) ↔
    '/' ∉ name.toList ∧ name ≠ "" ∧ name ≠ "." ∧ name ≠ ".." := by
  have hbytes : ∀ s : String, Text.bytes name = Text.bytes s ↔ name = s :=
    fun s => ⟨Text.bytes_injective, fun h => h ▸ rfl⟩
  constructor
  · intro h
    refine ⟨?_, ?_, ?_, ?_⟩
    · intro hslash
      obtain ⟨before, after, hsplit⟩ := List.append_of_mem hslash
      have hname : name = String.ofList before ++ "/" ++ String.ofList after :=
        String.toList_inj.1 (by simp [hsplit])
      apply h.unbroken
      rw [hname, Text.bytes_append, Text.bytes_append, bytes_separator]
      simp
    · exact fun hempty => h.nonempty ((hbytes "").mpr hempty)
    · exact fun hhere => h.not_here (bytes_dot ▸ (hbytes ".").mpr hhere)
    · exact fun hup => h.not_up (bytes_dots ▸ (hbytes "..").mpr hup)
  · rintro ⟨hunbroken, hempty, hhere, hup⟩
    exact ⟨unbroken_bytes name hunbroken, fun h => hempty ((hbytes "").mp h),
      fun h => hhere ((hbytes ".").mp (bytes_dot ▸ h)),
      fun h => hup ((hbytes "..").mp (bytes_dots ▸ h))⟩

end EntryPoints.Path
