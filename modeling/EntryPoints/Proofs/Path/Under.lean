import EntryPoints.Proofs.Path

/-!
# Paths of names below a root

Some names, joined by separators and put under a root, make a path of the root's steps and those
names. Its segments are the names after those of the root, and more names can be put under it.
-/

set_option autoImplicit false

namespace EntryPoints.Path
open Step

/-- The path to what some names lead to from a root. -/
def under (root : Path) (names : List Bytes) : Path :=
  if names = [] then root else root.join (ofSegments names)

theorem under_nil (root : Path) : root.under [] = root := rfl

theorem under_of_ne_nil (root : Path) (names : List Bytes) (h : names ≠ []) :
    root.under names = root.join (ofSegments names) := if_neg h

theorem segments_ofSegments (segments : List Bytes) (hne : segments ≠ [])
    (h : ∀ segment ∈ segments, separator ∉ segment) :
    (ofSegments segments).segments = segments := List.splitOn_intercalate separator h hne

theorem segments_names (names : List Bytes) (hne : names ≠ [])
    (h : ∀ name ∈ names, Plain name) : (ofSegments names).segments = names :=
  segments_ofSegments names hne fun name hname => (h name hname).unbroken

theorem relative_name (name : Bytes) (h : Plain name) : isAbsolute ⟨name⟩ = false := by
  rw [Bool.eq_false_iff, ne_eq, isAbsolute_iff]
  rintro ⟨rest, hrest⟩
  apply h.unbroken
  rw [show name = separator :: rest from hrest]
  exact List.mem_cons_self

theorem relative_names (names : List Bytes) (h : ∀ name ∈ names, Plain name) :
    (ofSegments names).isAbsolute = false := by
  cases names with
  | nil => decide
  | cons name rest =>
    have hname := h name List.mem_cons_self
    cases rest with
    | nil => rw [ofSegments_singleton, relative_name name hname]
    | cons next rest =>
      have happend := isAbsolute_append name (separator :: (ofSegments (next :: rest)).bytes)
        hname.nonempty
      rwa [← ofSegments_cons_cons, relative_name name hname] at happend

theorem steps_under (root : Path) (names : List Bytes) (hroot : root.bytes ≠ [])
    (h : ∀ name ∈ names, Plain name) :
    (root.under names).steps = root.steps ++ names.map .name := by
  cases names with
  | nil => simp [under]
  | cons name rest =>
    rw [under_of_ne_nil _ _ (by simp), steps_join root _ hroot (relative_names _ h),
      inner_names _ h]

theorem isAbsolute_join (root rel : Path) (hroot : root.bytes ≠ [])
    (hrel : rel.isAbsolute = false) : (root.join rel).isAbsolute = root.isAbsolute := by
  rw [join, if_neg (by simp [hrel])]
  split
  · exact isAbsolute_append root.bytes rel.bytes hroot
  · exact isAbsolute_append root.bytes _ hroot

/-- A root that ends in a separator has an empty last segment, which a join takes away. -/
theorem segments_join (root rel : Path) (hroot : root.bytes ≠ []) (hrel : rel.isAbsolute = false) :
    ∃ before, (root.join rel).segments = before ++ rel.segments ∧
      (root.segments = before ∨ root.segments = before ++ [[]]) := by
  rw [join, if_neg (by simp [hrel])]
  by_cases hend : root.bytes.getLast? = some separator
  · obtain ⟨b, hb⟩ := List.getLast?_eq_some_iff.mp hend
    refine ⟨b.splitOn separator, ?_, Or.inr ?_⟩
    · rw [if_pos (Or.inr hend), segments, hb, ← List.append_cons, List.splitOn_append_cons_self]
      rfl
    · rw [segments, hb, List.splitOn_append_cons_self, List.splitOn_nil]
  · refine ⟨root.segments, ?_, Or.inl rfl⟩
    rw [if_neg (by simp [hroot, hend]), segments, List.splitOn_append_cons_self]
    rfl

theorem getLast_append (bytes more : Bytes) (h : more ≠ []) :
    (bytes ++ more).getLast? = more.getLast? := by
  rw [List.getLast?_append, List.getLast?_eq_some_getLast h, Option.some_or]

theorem names_ne_empty (names : List Bytes) (hne : names ≠ [])
    (h : ∀ name ∈ names, Plain name) : (ofSegments names).bytes ≠ [] := by
  intro hempty
  have hsegments := segments_names names hne h
  rw [segments, hempty, List.splitOn_nil] at hsegments
  exact (h [] (by simp [← hsegments])).nonempty rfl

/-- Names that are joined do not end in a separator. -/
theorem getLast_names (names : List Bytes) (h : ∀ name ∈ names, Plain name) :
    (ofSegments names).bytes.getLast? ≠ some separator := by
  induction names with
  | nil => decide
  | cons name rest ih =>
    have hrest := ih fun n hn => h n (List.mem_cons_of_mem _ hn)
    cases rest with
    | nil =>
      rw [ofSegments_singleton]
      exact fun hlast => (h name List.mem_cons_self).unbroken (List.mem_of_getLast? hlast)
    | cons next rest =>
      have hne := names_ne_empty (next :: rest) (by simp) fun n hn =>
        h n (List.mem_cons_of_mem _ hn)
      rw [ofSegments_cons_cons, List.append_cons, getLast_append _ _ hne]
      exact hrest

/-- What a join writes before a relative path. -/
def front (root : Path) : Bytes :=
  if root.bytes = [] ∨ root.bytes.getLast? = some separator then root.bytes
  else root.bytes ++ [separator]

theorem join_relative (root rel : Path) (hrel : rel.isAbsolute = false) :
    root.join rel = ⟨root.front ++ rel.bytes⟩ := by
  rw [join, if_neg (by simp [hrel]), front]
  split
  · rfl
  · rw [List.append_cons]

/-- Two relative paths can be joined first, unless the earlier one ends in a separator. -/
theorem join_join (root s t : Path) (hs : s.isAbsolute = false) (ht : t.isAbsolute = false)
    (hne : s.bytes ≠ []) (hlast : s.bytes.getLast? ≠ some separator) :
    (root.join s).join t = root.join ⟨s.bytes ++ separator :: t.bytes⟩ := by
  have hst : isAbsolute ⟨s.bytes ++ separator :: t.bytes⟩ = false := by
    rw [isAbsolute_append s.bytes _ hne, hs]
  have hopen : ¬(root.front ++ s.bytes = [] ∨
      (root.front ++ s.bytes).getLast? = some separator) := by
    rw [getLast_append root.front s.bytes hne]
    rintro (hempty | hslash)
    · exact hne (List.append_eq_nil_iff.mp hempty).2
    · exact hlast hslash
  rw [join_relative _ t ht, join_relative root s hs, join_relative root _ hst, front,
    if_neg hopen]
  simp only [List.append_assoc, List.singleton_append]

theorem ofSegments_append (names more : List Bytes) (hnames : names ≠ []) (hmore : more ≠ []) :
    (ofSegments (names ++ more)).bytes =
      (ofSegments names).bytes ++ separator :: (ofSegments more).bytes := by
  induction names with
  | nil => exact absurd rfl hnames
  | cons name rest ih =>
    cases rest with
    | nil =>
      obtain ⟨next, others, rfl⟩ := List.exists_cons_of_ne_nil hmore
      rw [List.singleton_append, ofSegments_cons_cons, ofSegments_singleton]
    | cons next rest =>
      have hrest := ih (by simp)
      rw [List.cons_append] at hrest
      rw [List.cons_append, List.cons_append, ofSegments_cons_cons, hrest, ofSegments_cons_cons,
        List.append_assoc, List.cons_append]

theorem under_append (root : Path) (names more : List Bytes)
    (hnames : ∀ name ∈ names, Plain name) (hmore : ∀ name ∈ more, Plain name) (hne : more ≠ []) :
    (root.under names).join (ofSegments more) = root.under (names ++ more) := by
  rw [under_of_ne_nil root (names ++ more) (by simp [hne])]
  by_cases hnil : names = []
  · rw [hnil, under_nil, List.nil_append]
  · rw [under_of_ne_nil root names hnil, join_join root _ _ (relative_names names hnames)
      (relative_names more hmore) (names_ne_empty names hnil hnames) (getLast_names names hnames),
      ← ofSegments_append names more hnil hne]

end EntryPoints.Path
