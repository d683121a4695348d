import Std.Data.ExtTreeMap
import Std.Data.ExtTreeSet
import EntryPoints.Affix

/-!
# Text

Strings are ordered by the bytes of their UTF-8 form. The operations on them that the library
needs (taking off a lead or a tail, counting a character, cutting at one) are given through the
list of characters.
-/

set_option autoImplicit false

namespace EntryPoints

abbrev Bytes := List UInt8

namespace Text

def bytes (s : String) : Bytes := s.toByteArray.data.toList

theorem bytes_injective {s t : String} (h : bytes s = bytes t) : s = t :=
  String.toByteArray_inj.1 (ByteArray.ext (Array.toList_inj.1 h))

theorem length_bytes (s : String) : (bytes s).length = s.utf8ByteSize := rfl

def byteOrder (s t : String) : Ordering := compare (bytes s) (bytes t)

instance : Std.TransCmp byteOrder where
  eq_swap := fun {s t} => @Std.OrientedCmp.eq_swap Bytes compare _ (bytes s) (bytes t)
  isLE_trans := fun {s t u} =>
    @Std.TransCmp.isLE_trans Bytes compare _ (bytes s) (bytes t) (bytes u)

instance : Std.LawfulEqCmp byteOrder where
  compare_self := fun {s} => @Std.ReflCmp.compare_self Bytes compare _ (bytes s)
  eq_of_compare h := bytes_injective (Std.LawfulEqCmp.eq_of_compare h)

def after? (lead s : String) : Option String :=
  (Affix.after? lead.toList s.toList).map String.ofList

def before? (tail s : String) : Option String :=
  (Affix.before? tail.toList s.toList).map String.ofList

theorem after?_eq_some_iff {lead s rest : String} :
    after? lead s = some rest ↔ s = lead ++ rest := by
  simp only [after?, Option.map_eq_some_iff, Affix.after?_eq_some_iff]
  constructor
  · rintro ⟨r, h, rfl⟩
    exact String.toList_inj.1 (by simpa using h)
  · rintro rfl
    exact ⟨rest.toList, by simp, by simp⟩

theorem before?_eq_some_iff {tail s rest : String} :
    before? tail s = some rest ↔ s = rest ++ tail := by
  simp only [before?, Option.map_eq_some_iff, Affix.before?_eq_some_iff]
  constructor
  · rintro ⟨r, h, rfl⟩
    exact String.toList_inj.1 (by simpa using h)
  · rintro rfl
    exact ⟨rest.toList, by simp, by simp⟩

def startsWith (lead s : String) : Bool := (after? lead s).isSome

theorem startsWith_iff {lead s : String} :
    startsWith lead s = true ↔ ∃ rest, s = lead ++ rest := by
  simp [startsWith, Option.isSome_iff_exists, after?_eq_some_iff]

def count (c : Char) (s : String) : Nat := s.toList.count c

/-- The parts between the occurrences of a character: one more part than occurrences. -/
def cut (c : Char) (s : String) : List String := (s.toList.splitOn c).map String.ofList

def trimEnd (c : Char) (s : String) : String :=
  String.ofList (s.toList.reverse.dropWhile (· == c)).reverse

end Text

/-- A finite map from strings, read in ascending byte order of its keys. -/
abbrev Table (α : Type) := Std.ExtTreeMap String α Text.byteOrder

/-- The table of a list of rows. Of two rows with one key the later counts. -/
def Table.ofRows {α : Type} (rows : List (String × α)) : Table α :=
  Std.ExtTreeMap.ofList rows Text.byteOrder

end EntryPoints
