import EntryPoints.Conditions
import EntryPoints.Error
import EntryPoints.Json.Basic

/-!
# Choices

A declaration offers a target outright, branches under condition names, or alternatives to try in
turn. An empty list of alternatives offers nothing on purpose; `null` is another way to write it.

Selecting walks the tree under the active conditions. Among branches the first active one that is
not unresolved decides, failures included. Among alternatives the first one that gives a target
decides; if none does, the failure of the last failing one is the outcome.
-/

set_option autoImplicit false

namespace EntryPoints

inductive Choice where
  | target (path : String)
  | conditional (branches : List (String × Choice))
  | fallback (alternatives : List Choice)
  deriving Repr, Inhabited

/-- What a choice comes to under a set of conditions. -/
inductive Selection where
  | unresolved
  | target (path : String)
  | withheld
  deriving DecidableEq, Repr

namespace Choice

mutual
def decEq : (a b : Choice) → Decidable (a = b)
  | .target a, .target b => if h : a = b then isTrue (by rw [h]) else isFalse (by simp [h])
  | .conditional a, .conditional b =>
    match decEqBranches a b with
    | isTrue h => isTrue (by rw [h])
    | isFalse h => isFalse (by simp [h])
  | .fallback a, .fallback b =>
    match decEqAlternatives a b with
    | isTrue h => isTrue (by rw [h])
    | isFalse h => isFalse (by simp [h])
  | .target _, .conditional _ | .target _, .fallback _ | .conditional _, .target _
  | .conditional _, .fallback _ | .fallback _, .target _ | .fallback _, .conditional _ =>
    isFalse nofun

def decEqBranches : (as bs : List (String × Choice)) → Decidable (as = bs)
  | [], [] => isTrue rfl
  | [], _ :: _ | _ :: _, [] => isFalse nofun
  | (m, a) :: as, (n, b) :: bs =>
    if hn : m = n then
      match decEq a b, decEqBranches as bs with
      | isTrue h, isTrue h' => isTrue (by rw [hn, h, h'])
      | isFalse h, _ => isFalse (by simp [h])
      | _, isFalse h => isFalse (by simp [h])
    else isFalse (by simp [hn])

def decEqAlternatives : (as bs : List Choice) → Decidable (as = bs)
  | [], [] => isTrue rfl
  | [], _ :: _ | _ :: _, [] => isFalse nofun
  | a :: as, b :: bs =>
    match decEq a b, decEqAlternatives as bs with
    | isTrue h, isTrue h' => isTrue (by rw [h, h'])
    | isFalse h, _ => isFalse (by simp [h])
    | _, isFalse h => isFalse (by simp [h])
end

instance : DecidableEq Choice := decEq

mutual
/-- The choice a value declares. Booleans and numbers declare none, at any depth. -/
def ofJson : Json → Except Error Choice
  | .string path => .ok (.target path)
  | .object members => (ofMembers members).map .conditional
  | .array items => (ofItems items).map .fallback
  | .null => .ok (.fallback [])
  | .boolean b => .error (.unsupportedExportsValue (Json.boolean b).kind)
  | .number n => .error (.unsupportedExportsValue (Json.number n).kind)

def ofMembers : List (String × Json) → Except Error (List (String × Choice))
  | [] => .ok []
  | (name, v) :: rest => do
    let choice ← ofJson v
    let branches ← ofMembers rest
    return (name, choice) :: branches

def ofItems : List Json → Except Error (List Choice)
  | [] => .ok []
  | v :: rest => do
    let choice ← ofJson v
    let alternatives ← ofItems rest
    return choice :: alternatives
end

mutual
/-- The value that declares a choice, with `[]` for a choice of nothing. -/
def toJson : Choice → Json
  | .target path => .string path
  | .conditional branches => .object (toMembers branches)
  | .fallback alternatives => .array (toItems alternatives)

def toMembers : List (String × Choice) → List (String × Json)
  | [] => []
  | (name, choice) :: rest => (name, choice.toJson) :: toMembers rest

def toItems : List Choice → List Json
  | [] => []
  | choice :: rest => choice.toJson :: toItems rest
end

/-- Targets must point below the package, which their first two characters say. -/
def checkTarget (path : String) : Except Error String :=
  if Text.startsWith "./" path then .ok path else .error (.invalidTarget path)

mutual
def select (conditions : ConditionSet) : Choice → Except Error Selection
  | .target path => (checkTarget path).map .target
  | .conditional branches => selectBranch conditions branches
  | .fallback [] => .ok .withheld
  | .fallback (choice :: rest) => selectAlternative conditions (choice :: rest)

/-- The first active branch that is not unresolved. -/
def selectBranch (conditions : ConditionSet) : List (String × Choice) → Except Error Selection
  | [] => .ok .unresolved
  | (name, choice) :: rest =>
    if conditions.active name then
      match select conditions choice with
      | .ok .unresolved => selectBranch conditions rest
      | outcome => outcome
    else selectBranch conditions rest

/-- The first alternative with a target; failing that, the last failure. -/
def selectAlternative (conditions : ConditionSet) : List Choice → Except Error Selection
  | [] => .ok .unresolved
  | choice :: rest =>
    match select conditions choice with
    | .ok (.target path) => .ok (.target path)
    | .ok _ => selectAlternative conditions rest
    | .error e =>
      match selectAlternative conditions rest with
      | .ok .unresolved => .error e
      | outcome => outcome
end

end Choice

end EntryPoints
