import EntryPoints.Lossy

/-!
# Paths

A path is bytes of any kind, which most often are those of a text. What it leads to is decided by
its steps: repeated separators, inner `.` and trailing separators make no step, a leading `.` is
one, and `..` is never resolved against the step before it. Bytes that are not UTF-8 are replaced
where a path or a name is shown.
-/

set_option autoImplicit false

namespace EntryPoints

inductive Step where
  | root
  | here
  | up
  | name (bytes : Bytes)
  deriving DecidableEq, Repr

structure Path where
  bytes : Bytes
  deriving DecidableEq, Repr, Inhabited

namespace Path

def separator : UInt8 := 0x2F

def dot : UInt8 := 0x2E

/-- The path that a text spells. -/
def ofText (text : String) : Path := ⟨Text.bytes text⟩

/-- The text that spells a path, if one does. -/
def text? (p : Path) : Option String := Lossy.text? p.bytes

/-- A path as messages show it. -/
def shown (p : Path) : String := Lossy.decode p.bytes

end Path

namespace Step
open EntryPoints.Path

/-- The step a segment makes after the first position, if it makes one. -/
def ofSegment? (segment : Bytes) : Option Step :=
  if segment = [] ∨ segment = [dot] then none
  else if segment = [dot, dot] then some .up
  else some (.name segment)

/-- The name that a text spells. -/
def ofText (text : String) : Step := .name (Text.bytes text)

def rank : Step → Nat
  | .root => 0
  | .here => 1
  | .up => 2
  | .name _ => 3

def label : Step → Bytes
  | .name bytes => bytes
  | _ => []

def name? : Step → Option Bytes
  | .name bytes => some bytes
  | _ => none

/-- The root comes first, then `.`, then `..`, then names by their bytes. -/
def order (a b : Step) : Ordering :=
  (compare a.rank b.rank).then (compare a.label b.label)

theorem eq_of_rank_label {a b : Step} (hr : a.rank = b.rank) (hl : a.label = b.label) : a = b := by
  cases a <;> cases b <;> simp_all [rank, label]

def byRank (a b : Step) : Ordering := compare a.rank b.rank

def byLabel (a b : Step) : Ordering := compare a.label b.label

instance : Std.TransCmp byRank where
  eq_swap := fun {a b} => @Std.OrientedCmp.eq_swap Nat compare _ a.rank b.rank
  isLE_trans := fun {a b c} => @Std.TransCmp.isLE_trans Nat compare _ a.rank b.rank c.rank

instance : Std.TransCmp byLabel where
  eq_swap := fun {a b} => @Std.OrientedCmp.eq_swap Bytes compare _ a.label b.label
  isLE_trans := fun {a b c} => @Std.TransCmp.isLE_trans Bytes compare _ a.label b.label c.label

instance : Std.TransCmp order := inferInstanceAs (Std.TransCmp (compareLex byRank byLabel))

instance : Std.LawfulEqCmp order where
  eq_of_compare h := by
    simp only [order, Ordering.then_eq_eq] at h
    exact eq_of_rank_label (Std.LawfulEqCmp.eq_of_compare h.1)
      (Std.LawfulEqCmp.eq_of_compare h.2)

/-- Names, as they are shown, joined by `/`; steps that are not names leave no trace. -/
def slashed (steps : List Step) : String :=
  "/".intercalate ((steps.filterMap name?).map Lossy.decode)

end Step

namespace Path

def isAbsolute (p : Path) : Bool := p.bytes.head? == some separator

def segments (p : Path) : List Bytes := p.bytes.splitOn separator

/-- Segments with separators between them. -/
def ofSegments (segments : List Bytes) : Path := ⟨[separator].intercalate segments⟩

/-- The step that only the start of a path can make. -/
def lead (p : Path) : List Step :=
  if p.isAbsolute then [.root] else if p.segments.head? = some [dot] then [.here] else []

def steps (p : Path) : List Step := p.lead ++ p.segments.filterMap Step.ofSegment?

/-- An absolute path replaces the base. A separator is written only after a base that is not
empty and does not already end in one. -/
def join (base rel : Path) : Path :=
  if rel.isAbsolute then rel
  else if base.bytes = [] ∨ base.bytes.getLast? = some separator then ⟨base.bytes ++ rel.bytes⟩
  else ⟨base.bytes ++ separator :: rel.bytes⟩

def slashed (p : Path) : String := Step.slashed p.steps

def isSilent (segment : Bytes) : Bool := (Step.ofSegment? segment).isNone

/-- Segments without the ones at the end that make no step. -/
def trimSilent (segments : List Bytes) : List Bytes :=
  (segments.reverse.dropWhile isSilent).reverse

/-- The path without its last step; `none` for the root and for the empty path. -/
def parent? (p : Path) : Option Path :=
  let absolute := p.isAbsolute
  let dotted := !absolute && p.segments.head? == some [dot]
  let body := trimSilent (if absolute || dotted then p.segments.drop 1 else p.segments)
  if body.isEmpty then
    if dotted then some ⟨[]⟩ else none
  else
    let kept := trimSilent body.dropLast
    if absolute then some ⟨separator :: (ofSegments kept).bytes⟩
    else if dotted then some (ofSegments ([dot] :: kept))
    else some (ofSegments kept)

/-- The last step, when it is a name. -/
def fileName? (p : Path) : Option Bytes := p.steps.getLast?.bind Step.name?

end Path

end EntryPoints
