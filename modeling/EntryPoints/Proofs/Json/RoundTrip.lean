import EntryPoints.Proofs.Json.Lexemes

/-!
# Reading what was written

The builder comes from the lexemes of a value to the form of that value, whatever containers are
open around it, and the form means the value. So what is written in either layout is read back, if
it has no numerals, names each key of an object once and is nested no deeper than a reader goes.
-/

set_option autoImplicit false

namespace EntryPoints.Json
open Form Builder

mutual
/-- The form that a value is written in. -/
def form : Json → Form
  | .null => .null
  | .boolean b => .boolean b
  | .number n => .number n
  | .string s => .quoted (Mark.ofString s)
  | .array items => .array (forms items)
  | .object members => .object (memberForms members)

def forms : List Json → List Form
  | [] => []
  | v :: rest => form v :: forms rest

def memberForms : List (String × Json) → List (List Mark × Form)
  | [] => []
  | (k, v) :: rest => (Mark.ofString k, form v) :: memberForms rest
end

/-- The builder takes a value wherever one must start. -/
def Builds (v : Json) : Prop :=
  ∀ outer, run? (.value outer) (lexemes v) = some (.after (form v) outer)

theorem intercalate_cons (separator first : List Lexeme) (others : List (List Lexeme)) :
    separator.intercalate (first :: others) = first ++ others.flatMap (separator ++ ·) := by
  induction others generalizing first with
  | nil => rw [List.intercalate_singleton, List.flatMap_nil, List.append_nil]
  | cons second others ih =>
    rw [List.intercalate_cons_cons, ih, List.flatMap_cons, List.append_assoc, List.append_assoc]

/-- A value does not start with a closing bracket. -/
theorem run_firstItem (v : Json) (outer : List Open) (rest : List Lexeme) :
    run? (.firstItem outer) (lexemes v ++ rest) =
      run? (.value (.array [] :: outer)) (lexemes v ++ rest) := by
  cases v <;> rfl

/-- The items after the first, up to the end of their array. -/
theorem run_items (items : List Json) (h : ∀ v ∈ items, Builds v) (last : Form)
    (done : List Form) (outer : List Open) :
    run? (.after last (.array done :: outer))
        ((lexemesOfItems items).flatMap ([.comma] ++ ·) ++ [.closeArray]) =
      some (.after (.array ((last :: done).reverse ++ forms items)) outer) := by
  induction items generalizing last done with
  | nil => simp [lexemesOfItems, run?, Builder.next?, forms]
  | cons v items ih =>
    rw [List.forall_mem_cons] at h
    rw [lexemesOfItems, List.flatMap_cons, List.append_assoc, List.append_assoc,
      List.singleton_append, run?, Builder.next?, Option.bind_some, run?_append, h.1,
      Option.bind_some, ih h.2]
    simp [forms]

theorem run_member (k : String) (v : Json) (hv : Builds v) (done : List (List Mark × Form))
    (outer : List Open) (rest : List Lexeme) :
    run? (.key done outer) (.quoted (Mark.ofString k) :: .colon :: lexemes v ++ rest) =
      run? (.after (form v) (.object done (Mark.ofString k) :: outer)) rest := by
  have hvalue := hv (.object done (Mark.ofString k) :: outer)
  simp only [List.cons_append, run?, Builder.next?, Option.bind_some, run?_append, hvalue]

/-- The members after the first, up to the end of their object. -/
theorem run_members (members : List (String × Json)) (h : ∀ member ∈ members, Builds member.2)
    (last : Form) (key : List Mark) (done : List (List Mark × Form)) (outer : List Open) :
    run? (.after last (.object done key :: outer))
        ((lexemesOfMembers members).flatMap ([.comma] ++ ·) ++ [.closeObject]) =
      some (.after (.object (((key, last) :: done).reverse ++ memberForms members)) outer) := by
  induction members generalizing last key done with
  | nil => simp [lexemesOfMembers, run?, Builder.next?, memberForms]
  | cons member members ih =>
    rw [List.forall_mem_cons] at h
    rw [lexemesOfMembers, List.flatMap_cons, List.append_assoc, List.append_assoc,
      List.singleton_append, run?, Builder.next?, Option.bind_some, run_member _ _ h.1, ih h.2]
    simp [memberForms]

theorem builds (room : Nat) (v : Json) (h : Readable room v) : Builds v := by
  induction h with
  | null | boolean | string => exact fun _ => rfl
  | array _ items _ ih =>
    intro outer
    cases items with
    | nil => rfl
    | cons first items =>
      rw [List.forall_mem_cons] at ih
      rw [lexemes, lexemesOfItems, intercalate_cons, List.cons_append, List.append_assoc, run?,
        Builder.next?, start?, Option.bind_some, run_firstItem, run?_append, ih.1, Option.bind_some]
      exact run_items items ih.2 (form first) [] outer
  | object _ members _ _ ih =>
    intro outer
    cases members with
    | nil => rfl
    | cons first members =>
      rw [List.forall_mem_cons] at ih
      rw [lexemes, lexemesOfMembers, intercalate_cons, List.cons_append, List.append_assoc, run?,
        Builder.next?, start?, Option.bind_some]
      have hkey := run_member first.1 first.2 ih.1 [] outer
        ((lexemesOfMembers members).flatMap ([.comma] ++ ·) ++ [.closeObject])
      exact hkey.trans (run_members members ih.2 (form first.2) (Mark.ofString first.1) [] outer)

/-- A form means the value that it was written for. -/
def Means (room : Nat) (v : Json) : Prop := value? room (form v) = some v

theorem values_forms (room : Nat) (items : List Json) (h : ∀ v ∈ items, Means room v) :
    values? room (forms items) = some items := by
  induction items with
  | nil => rfl
  | cons v items ih =>
    rw [List.forall_mem_cons] at h
    have hfirst : value? room (form v) = some v := h.1
    simp [forms, values?, hfirst, ih h.2]

theorem put_new (k : String) (v : Json) (members : List (String × Json))
    (h : k ∉ members.map Prod.fst) : put k v members = members ++ [(k, v)] := by
  induction members with
  | nil => rfl
  | cons member members ih =>
    rw [List.map_cons, List.mem_cons, not_or] at h
    rw [put, if_neg (Ne.symm h.1), ih h.2, List.cons_append]

theorem members_memberForms (room : Nat) (done members : List (String × Json))
    (hkeys : ((done ++ members).map Prod.fst).Nodup)
    (h : ∀ member ∈ members, Means room member.2) :
    members? room done (memberForms members) = some (done ++ members) := by
  induction members generalizing done with
  | nil => rw [memberForms, members?, List.append_nil]
  | cons member members ih =>
    rw [List.forall_mem_cons] at h
    have hvalue : value? room (form member.2) = some member.2 := h.1
    have hnew : member.1 ∉ done.map Prod.fst := by
      rw [List.map_append, List.nodup_append] at hkeys
      intro hmem
      exact hkeys.2.2 _ hmem member.1 (by simp) rfl
    have hrest := ih (done ++ [member]) (by simpa using hkeys) h.2
    simp [memberForms, members?, text_ofString, hvalue, put_new _ _ _ hnew, hrest]

theorem means (room : Nat) (v : Json) (h : Readable room v) : Means room v := by
  induction h with
  | null | boolean => rfl
  | string _ s => rw [Means, form, value?, text_ofString, Option.map_some]
  | array room items _ ih => rw [Means, form, value?, values_forms room items ih, Option.map_some]
  | object room members hkeys _ ih =>
    rw [Means, form, value?, members_memberForms room [] members hkeys ih, Option.map_some,
      List.nil_append]

theorem read_write {layout : Layout} (hloose : layout.Loose) (v : Json)
    (h : Readable depthLimit v) : read? (String.ofList (layout.write 0 v)) = some v := by
  rw [read?, parse?, String.toList_ofList, all_write hloose depthLimit 0 v h, Option.bind_some,
    ofLexemes?, builds depthLimit v h, Option.bind_some, result?, Option.bind_some]
  exact means depthLimit v h

/-- What is written without blanks is read back. -/
theorem read_compact (v : Json) (h : Readable depthLimit v) : read? v.compact = some v :=
  read_write Layout.compact_loose v h

/-- What is written in lines is read back. -/
theorem read_pretty (v : Json) (h : Readable depthLimit v) : read? v.pretty = some v :=
  read_write Layout.pretty_loose v h

end EntryPoints.Json
