import EntryPoints.Proofs.Lossy.Single
import EntryPoints.Proofs.Path.Tidy

/-!
# Names as they are shown

Whatever the bytes of a path are, the names that are shown of it stand for themselves, so joined by
separators they are read again as the same names. A relative path adds its names to those of the
base.
-/

set_option autoImplicit false

namespace EntryPoints

namespace Step
open EntryPoints.Path

/-- A name is decoded to a text that stands for itself. -/
theorem plain_decode (name : Bytes) (h : Plain name) : Plain (Text.bytes (Lossy.decode name)) := by
  -- A text of characters of one byte is only decoded from its own bytes.
  have hsource : ∀ s : String, (∀ c ∈ s.toList, Lossy.Single c) → Lossy.decode name = s →
      name = Text.bytes s := by
    rintro s hs rfl
    exact Lossy.eq_bytes_of_decode name hs
  rw [plain_bytes_iff]
  refine ⟨?_, ?_, ?_, ?_⟩
  · intro hslash
    obtain ⟨b, hb, hcode⟩ := Lossy.mem_of_mem_decode name '/' hslash (by decide)
    have hbyte : separator = b := UInt8.toNat_inj.mp (show separator.toNat = b.toNat from hcode)
    exact h.unbroken (hbyte ▸ hb)
  · exact fun hempty => h.nonempty (hsource "" (by simp) hempty)
  · exact fun hhere => h.not_here ((hsource "." (by simp [Lossy.Single]) hhere).trans bytes_dot)
  · exact fun hup => h.not_up ((hsource ".." (by simp [Lossy.Single]) hup).trans bytes_dots)

/-- The names among some steps, as they are shown. -/
def shownNames (steps : List Step) : List String := (steps.filterMap name?).map Lossy.decode

theorem slashed_eq (steps : List Step) : slashed steps = "/".intercalate (shownNames steps) := rfl

theorem shownNames_append (steps more : List Step) :
    shownNames (steps ++ more) = shownNames steps ++ shownNames more := by
  rw [shownNames, List.filterMap_append, List.map_append]
  rfl

theorem shownNames_names (names : List Bytes) :
    shownNames (names.map .name) = names.map Lossy.decode := by
  rw [shownNames, List.filterMap_map]
  exact congrArg (List.map Lossy.decode) List.filterMap_some

theorem shownNames_ofText (names : List String) : shownNames (names.map ofText) = names := by
  have hnames : names.map ofText = (names.map Text.bytes).map .name := by
    rw [List.map_map]
    rfl
  rw [hnames, shownNames_names, List.map_map]
  exact (List.map_congr_left fun name _ => Lossy.decode_bytes name).trans (List.map_id' names)

/-- Nothing but names, each of them the bytes of a text. -/
def Legible (steps : List Step) : Prop := ∃ names : List String, steps = names.map ofText

/-- Of names that are texts nothing is lost when they are shown. -/
theorem Legible.slashed_names {steps : List Step} (h : Legible steps) :
    ∃ names : List Bytes, steps = names.map .name ∧
      Path.ofText (slashed steps) = ofSegments names := by
  obtain ⟨names, rfl⟩ := h
  refine ⟨names.map Text.bytes, ?_, ?_⟩
  · rw [List.map_map]
    rfl
  · rw [slashed_eq, shownNames_ofText, ofText_intercalate]

theorem Legible.spelled_slashed {steps : List Step} (h : Legible steps)
    (hplain : ∀ name, .name name ∈ steps → Plain name) : spelled (slashed steps) = steps := by
  obtain ⟨names, rfl, hslashed⟩ := h.slashed_names
  show inner (Path.ofText _).bytes = _
  rw [hslashed, inner_names names fun name hname => hplain name (List.mem_map_of_mem hname)]

end Step

namespace Path
open Step

/-- The start of a path adds no name. -/
theorem shownNames_steps (p : Path) : shownNames p.steps = shownNames (inner p.bytes) := by
  have hlead : shownNames p.lead = [] := by
    rw [lead]
    split
    · rfl
    · split <;> rfl
  rw [steps_eq, shownNames_append, hlead, List.nil_append]

/-- A relative path adds its names to those of a base, an empty base included. -/
theorem shownNames_join (base rel : Path) (hrel : rel.isAbsolute = false) :
    shownNames (base.join rel).steps = shownNames base.steps ++ shownNames rel.steps := by
  by_cases hbase : base.bytes = []
  · rw [steps_of_empty base hbase, join, if_neg (by simp [hrel]), if_pos (Or.inl hbase), hbase]
    rfl
  · rw [steps_join base rel hbase hrel, shownNames_append, ← shownNames_steps rel]

theorem plain_of_mem_shownNames (p : Path) (shown : String) (h : shown ∈ shownNames p.steps) :
    Plain (Text.bytes shown) := by
  obtain ⟨name, hname, rfl⟩ := List.mem_map.mp h
  obtain ⟨step, hstep, hlabel⟩ := List.mem_filterMap.mp hname
  cases step with
  | name bytes =>
    obtain rfl : bytes = name := Option.some_inj.mp hlabel
    exact plain_decode bytes (plain_of_mem_steps p bytes hstep)
  | root => simp [name?] at hlabel
  | here => simp [name?] at hlabel
  | up => simp [name?] at hlabel

/-- Names of texts that are joined and read as a path are the names shown of it. -/
theorem slashed_intercalate (names : List String) (h : ∀ name ∈ names, Plain (Text.bytes name)) :
    (ofText ("/".intercalate names)).slashed = "/".intercalate names := by
  have hinner : inner (Text.bytes ("/".intercalate names)) = names.map Step.ofText :=
    spelled_names names h
  rw [slashed, slashed_eq, shownNames_steps, Path.ofText, hinner, shownNames_ofText]

end Path

end EntryPoints
