import EntryPoints.Declaration
import EntryPoints.FileView
import EntryPoints.Pattern

/-!
# Expansion

Offers become a table from concrete subpaths to concrete targets. Without a root, offers with a
target stand as declared. With a root, each rule (a pattern of subpaths with a pattern of targets)
gives one row for each file below the directory that its target names: rules are applied from the
most specific on, and the first to give a subpath keeps it. Subpaths that a withheld offer vetoes
are then dropped, and literal offers are added over all.
-/

set_option autoImplicit false

namespace EntryPoints

namespace Expansion

/-- Why an offer cannot be expanded, whatever the files. -/
def defect? (subpath : String) (offer : Offer) : Option Error :=
  if 1 < Pattern.stars subpath then some (.invalidSubpathPattern subpath)
  else
    match offer with
    | .target path =>
      if Pattern.stars subpath = 1 ∧ Pattern.stars path ≠ 1 then
        some (.unsupportedWildcardTarget subpath path)
      else none
    | .withheld => none

/-- The first defect, in the byte order of the subpaths. -/
def firstDefect? (offers : Table Offer) : Option Error :=
  offers.toList.findSome? fun (subpath, offer) => defect? subpath offer

def targets (offers : Table Offer) : Table String :=
  offers.filterMap fun _ offer =>
    match offer with
    | .target path => some path
    | .withheld => none

def literals (offers : Table Offer) : Table String :=
  (targets offers).filter fun subpath _ => Pattern.stars subpath == 0

/-- A pattern of subpaths with the pattern of their targets. -/
structure Rule where
  subpath : Pattern
  target : Pattern
  deriving DecidableEq, Repr

/-- The rule that two strings with one star each make. -/
def Rule.ofTexts? (subpath target : String) : Option Rule := do
  return ⟨← Pattern.parse? subpath, ← Pattern.parse? target⟩

/-- The rules of a table of offers, the most specific first. -/
def rules (offers : Table Offer) : List Rule :=
  (Std.ExtTreeMap.ofList (targets offers).toList Pattern.specificity).toList.filterMap
    fun (subpath, target) => Rule.ofTexts? subpath target

/-- The directory that the front of a target names: less a leading `./` and trailing slashes. -/
def directory (root : Path) (front : String) : Path :=
  let rel := Text.trimEnd '/' ((Text.after? "./" front).getD front)
  if rel = "" then root else root.join (.ofText rel)

def Rule.directory (rule : Rule) (root : Path) : Path :=
  Expansion.directory root rule.target.front

/-- The row a found entry gives under a rule. -/
def Rule.row? (rule : Rule) (found : Found) : Option (String × String) :=
  if found.isFile then
    (Text.before? rule.target.back found.place).map fun s =>
      (rule.subpath.fill s, rule.target.fill s)
  else none

def Rule.rows (rule : Rule) (root : Path) (view : FileView) :
    Except Error (List (String × String)) :=
  let dir := rule.directory root
  if view.contains dir then
    (view.below dir).map fun found => found.filterMap rule.row?
  else .error (.directoryNotFound dir)

/-- Adds rows whose subpath is not taken yet. -/
def addNew (flat : Table String) (rows : List (String × String)) : Table String :=
  rows.foldl (fun flat (subpath, target) => flat.insertIfNew subpath target) flat

def applyRules (root : Path) (view : FileView) :
    List Rule → Table String → Except Error (Table String)
  | [], flat => .ok flat
  | rule :: rest, flat => do
    let rows ← rule.rows root view
    applyRules root view rest (addNew flat rows)

/-- The directories that the rules of some offers ask a view about, in order. -/
def directories (offers : Table Offer) (root : Path) : List Path :=
  (rules offers).map fun rule => rule.directory root

/-- A withheld pattern vetoes what it captures with something in the star; a withheld literal
vetoes itself. -/
def vetoes (withheld subpath : String) : Bool :=
  match Pattern.parse? withheld with
  | some pattern => (pattern.captureSome? subpath).isSome
  | none => subpath == withheld

def withheld (offers : Table Offer) : List String :=
  (offers.toList.filter fun (_, offer) => offer == .withheld).map Prod.fst

def vetoed (offers : Table Offer) (subpath : String) : Bool :=
  (withheld offers).any fun name => vetoes name subpath

end Expansion

open Expansion in
def expand (offers : Table Offer) (root? : Option Path) (view : FileView) :
    Except Error (Table String) :=
  match firstDefect? offers with
  | some e => .error e
  | none =>
    match root? with
    | none => .ok (targets offers)
    | some root => do
      let expanded ← applyRules root view (rules offers) ∅
      return (expanded.filter fun subpath _ => !vetoed offers subpath) ∪ literals offers

end EntryPoints
