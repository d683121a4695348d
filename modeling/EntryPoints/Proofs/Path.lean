import EntryPoints.Path
import EntryPoints.Proofs.Text

/-!
# Steps of joined paths

The steps that bytes make after the start of a path are those of their parts around any separator,
so a relative path adds its steps to those of the base. Names that make a step of their own survive
being joined by separators and read again.
-/

set_option autoImplicit false

namespace EntryPoints

namespace Path

theorem ofSegments_singleton (segment : Bytes) : ofSegments [segment] = ⟨segment⟩ := by
  rw [ofSegments, List.intercalate_singleton]

theorem ofSegments_cons_cons (first second : Bytes) (rest : List Bytes) :
    (ofSegments (first :: second :: rest)).bytes =
      first ++ separator :: (ofSegments (second :: rest)).bytes := by
  rw [ofSegments, ofSegments, List.intercalate_cons_cons, List.append_assoc, List.singleton_append]

/-- The steps of some bytes, less what only the start of a path can make. -/
def inner (bytes : Bytes) : List Step := (bytes.splitOn separator).filterMap Step.ofSegment?

theorem steps_eq (p : Path) : p.steps = p.lead ++ inner p.bytes := rfl

theorem inner_append (bytes more : Bytes) :
    inner (bytes ++ separator :: more) = inner bytes ++ inner more := by
  rw [inner, List.splitOn_append_cons_self, List.filterMap_append]
  rfl

theorem inner_nil : inner [] = [] := by decide

theorem inner_ofSegments (segments : List Bytes) (h : ∀ segment ∈ segments, separator ∉ segment) :
    inner (ofSegments segments).bytes = segments.filterMap Step.ofSegment? := by
  cases segments with
  | nil => exact inner_nil
  | cons segment rest => rw [inner, ofSegments, List.splitOn_intercalate separator h (by simp)]

theorem inner_separators (bytes : Bytes) (n : Nat) :
    inner (bytes ++ List.replicate n separator) = inner bytes := by
  induction n generalizing bytes with
  | zero => simp
  | succ n ih =>
    rw [List.replicate_succ, List.append_cons, ih, inner_append, inner_nil, List.append_nil]

theorem inner_separator (bytes : Bytes) : inner (bytes ++ [separator]) = inner bytes :=
  inner_separators bytes 1

theorem isAbsolute_iff (p : Path) : p.isAbsolute = true ↔ ∃ rest, p.bytes = separator :: rest := by
  rw [isAbsolute, beq_iff_eq, List.head?_eq_some_iff]

theorem steps_of_isAbsolute (p : Path) (h : p.isAbsolute = true) :
    p.steps = .root :: inner p.bytes := by
  rw [steps_eq, lead, if_pos h]
  rfl

theorem isAbsolute_append (base rest : Bytes) (h : base ≠ []) :
    isAbsolute ⟨base ++ rest⟩ = isAbsolute ⟨base⟩ := by
  rw [isAbsolute, isAbsolute, List.head?_append, List.head?_eq_some_head h, Option.some_or]

theorem head_splitOn_append (bytes more : Bytes) :
    ((bytes ++ separator :: more).splitOn separator).head? = (bytes.splitOn separator).head? := by
  have hne := List.splitOn_ne_nil separator bytes
  rw [List.splitOn_append_cons_self, List.head?_append, List.head?_eq_some_head hne,
    Option.some_or]

theorem lead_append (base rest : Bytes) (h : base ≠ [])
    (hhead : ((base ++ rest).splitOn separator).head? = (base.splitOn separator).head?) :
    lead ⟨base ++ rest⟩ = lead ⟨base⟩ := by
  rw [lead, lead, isAbsolute_append base rest h, segments, segments, hhead]

theorem steps_of_empty (p : Path) (h : p.bytes = []) : p.steps = [] := by
  obtain ⟨bytes⟩ := p
  subst h
  decide

/-- A relative path adds its steps to those of a base. -/
theorem steps_join (base rel : Path) (hbase : base.bytes ≠ []) (hrel : rel.isAbsolute = false) :
    (base.join rel).steps = base.steps ++ inner rel.bytes := by
  rw [join, if_neg (by simp [hrel])]
  -- No separator is written after a base that ends in one; the bytes split before it all the same.
  by_cases hend : base.bytes.getLast? = some separator
  · obtain ⟨b, hb⟩ := List.getLast?_eq_some_iff.mp hend
    have hhead : ((base.bytes ++ rel.bytes).splitOn separator).head? =
        (base.bytes.splitOn separator).head? := by
      rw [hb, ← List.append_cons, head_splitOn_append, head_splitOn_append]
    have hinner : inner (base.bytes ++ rel.bytes) = inner base.bytes ++ inner rel.bytes := by
      rw [hb, ← List.append_cons, inner_append, inner_separator]
    rw [if_pos (Or.inr hend), steps_eq, steps_eq, lead_append _ _ hbase hhead, hinner,
      List.append_assoc]
  · have hhead := head_splitOn_append base.bytes rel.bytes
    rw [if_neg (by simp [hbase, hend]), steps_eq, steps_eq, inner_append,
      lead_append _ _ hbase hhead, List.append_assoc]

theorem steps_prefix_join (base rel : Path) (hrel : rel.isAbsolute = false) :
    base.steps <+: (base.join rel).steps := by
  by_cases hbase : base.bytes = []
  · rw [steps_of_empty base hbase]
    exact List.nil_prefix
  · rw [steps_join base rel hbase hrel]
    exact List.prefix_append ..

end Path

namespace Step
open EntryPoints.Path

/-- A name that stands for itself between separators. -/
structure Plain (name : Bytes) : Prop where
  unbroken : separator ∉ name
  nonempty : name ≠ []
  not_here : name ≠ [dot]
  not_up : name ≠ [dot, dot]

instance (name : Bytes) : Decidable (Plain name) :=
  decidable_of_iff (separator ∉ name ∧ name ≠ [] ∧ name ≠ [dot] ∧ name ≠ [dot, dot])
    ⟨fun ⟨hunbroken, hnonempty, hhere, hup⟩ => ⟨hunbroken, hnonempty, hhere, hup⟩,
      fun h => ⟨h.unbroken, h.nonempty, h.not_here, h.not_up⟩⟩

theorem ofSegment?_plain (name : Bytes) (h : Plain name) :
    ofSegment? name = some (.name name) := by
  rw [ofSegment?, if_neg (by simp [h.nonempty, h.not_here]), if_neg h.not_up]

theorem plain_of_mem_inner (bytes name : Bytes) (h : .name name ∈ inner bytes) : Plain name := by
  obtain ⟨segment, hmem, hsegment⟩ := List.mem_filterMap.mp h
  unfold ofSegment? at hsegment
  split at hsegment
  · simp at hsegment
  · rename_i hsilent
    split at hsegment
    · simp at hsegment
    · rename_i hup
      cases hsegment
      exact ⟨Text.not_mem_of_mem_splitOn separator bytes name hmem, fun h => hsilent (Or.inl h),
        fun h => hsilent (Or.inr h), hup⟩

theorem plain_of_mem_steps (p : Path) (name : Bytes) (h : .name name ∈ p.steps) :
    Plain name := by
  rw [steps_eq, List.mem_append] at h
  rcases h with h | h
  · unfold lead at h
    split at h
    · simp at h
    · split at h <;> simp at h
  · exact plain_of_mem_inner p.bytes name h

theorem filterMap_names (names : List Bytes) (h : ∀ name ∈ names, Plain name) :
    names.filterMap ofSegment? = names.map .name := by
  induction names with
  | nil => rfl
  | cons name names ih =>
    have hrest := ih fun n hn => h n (List.mem_cons_of_mem _ hn)
    rw [List.filterMap_cons, ofSegment?_plain name (h name List.mem_cons_self), hrest,
      List.map_cons]

theorem inner_names (names : List Bytes) (h : ∀ name ∈ names, Plain name) :
    inner (ofSegments names).bytes = names.map .name := by
  rw [inner_ofSegments names fun name hname => (h name hname).unbroken, filterMap_names names h]

end Step

namespace Path

/-- An absolute path whose further steps are names. -/
def Normal (p : Path) : Prop := ∃ names : List Bytes, p.steps = .root :: names.map .name

theorem bytes_ne_nil (p : Path) (h : p.Normal) : p.bytes ≠ [] := by
  intro hempty
  obtain ⟨names, hnames⟩ := h
  simp [steps_of_empty p hempty] at hnames

end Path

end EntryPoints
