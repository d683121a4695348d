import EntryPoints.Text

/-!
# Conditions

A resolution runs under a set of active condition names. The set has no order: which branch wins is
the declaration's business.
-/

set_option autoImplicit false

namespace EntryPoints

abbrev ConditionSet := Std.ExtTreeSet String Text.byteOrder

def ConditionSet.ofNames (names : List String) : ConditionSet :=
  Std.ExtTreeSet.ofList names Text.byteOrder

def ConditionSet.active (conditions : ConditionSet) (name : String) : Bool :=
  conditions.contains name

/-- The names that are active when nobody asks for others. -/
def standardConditions : List String := ["node-addons", "node", "import", "require", "default"]

end EntryPoints
