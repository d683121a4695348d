import EntryPoints.Text

/-!
# Patterns

A pattern is a string with one star, split around it. It captures the strings that start with its
front and end with its back without overlap; what lies between is the capture, and filling the
star with it gives the string back.
-/

set_option autoImplicit false

namespace EntryPoints

structure Pattern where
  front : String
  back : String
  deriving DecidableEq, Repr

namespace Pattern

def stars (s : String) : Nat := Text.count '*' s

/-- Splits a string at its star, if there is exactly one. -/
def parse? (s : String) : Option Pattern :=
  match Text.cut '*' s with
  | [front, back] => some ⟨front, back⟩
  | _ => none

def text (p : Pattern) : String := p.front ++ "*" ++ p.back

def fill (p : Pattern) (s : String) : String := p.front ++ s ++ p.back

def capture? (p : Pattern) (s : String) : Option String :=
  (Text.after? p.front s).bind (Text.before? p.back)

/-- The capture, unless it is empty. -/
def captureSome? (p : Pattern) (s : String) : Option String :=
  (p.capture? s).filter (· ≠ "")

theorem capture?_eq_some_iff {p : Pattern} {v s : String} :
    p.capture? v = some s ↔ v = p.fill s := by
  simp only [capture?, Option.bind_eq_some_iff, Text.after?_eq_some_iff,
    Text.before?_eq_some_iff, fill]
  constructor
  · rintro ⟨_, rfl, rfl⟩
    rw [String.append_assoc]
  · rintro rfl
    exact ⟨s ++ p.back, by rw [String.append_assoc], rfl⟩

/-- The longer pattern comes first, of patterns of one length the bytewise smaller. -/
def specificity (s t : String) : Ordering :=
  (compare t.utf8ByteSize s.utf8ByteSize).then (Text.byteOrder s t)

def byLength (s t : String) : Ordering := compare t.utf8ByteSize s.utf8ByteSize

instance : Std.TransCmp byLength where
  eq_swap := fun {s t} =>
    @Std.OrientedCmp.eq_swap Nat compare _ t.utf8ByteSize s.utf8ByteSize
  isLE_trans := fun {s t u} h h' =>
    @Std.TransCmp.isLE_trans Nat compare _ u.utf8ByteSize t.utf8ByteSize s.utf8ByteSize h' h

instance : Std.TransCmp specificity :=
  inferInstanceAs (Std.TransCmp (compareLex byLength Text.byteOrder))

instance : Std.LawfulEqCmp specificity where
  eq_of_compare h := by
    simp only [specificity, Ordering.then_eq_eq] at h
    exact Std.LawfulEqCmp.eq_of_compare h.2

end Pattern

end EntryPoints
