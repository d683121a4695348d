import EntryPoints.PathSet
import EntryPoints.Proofs.Path.Parent

/-!
# What is left of a path

Cutting the first steps off a path leaves a path that makes the other steps. It opens with a segment
that makes a step, so that it is neither absolute nor dotted, unless nothing was cut off.
-/

set_option autoImplicit false

namespace EntryPoints.Path
open Step

/-- The steps that segments make after the start of a path. -/
def made (segments : List Bytes) : List Step := segments.filterMap ofSegment?

theorem made_append (segments more : List Bytes) :
    made (segments ++ more) = made segments ++ made more := List.filterMap_append

theorem made_silent (segments : List Bytes) (h : ∀ segment ∈ segments, isSilent segment = true) :
    made segments = [] := by
  rw [made, List.filterMap_eq_nil_iff]
  intro segment hmem
  simpa [isSilent] using h segment hmem

theorem made_trimSilent (segments : List Bytes) : made (trimSilent segments) = made segments := by
  obtain ⟨silent, hsplit, hsilent⟩ := trimSilent_append segments
  have hmade := congrArg made hsplit
  rw [made_append, made_silent silent hsilent, List.append_nil] at hmade
  exact hmade.symm

theorem made_dropWhile (segments : List Bytes) :
    made (segments.dropWhile isSilent) = made segments := by
  have hmade := congrArg made (List.takeWhile_append_dropWhile (p := isSilent) (l := segments))
  rw [made_append, made_silent _ fun _ hmem => List.mem_takeWhile_imp hmem] at hmade
  exact hmade

theorem made_dropSteps (n : Nat) (segments : List Bytes) :
    made (dropSteps n segments) = (made segments).drop n := by
  induction segments generalizing n with
  | nil => cases n <;> rfl
  | cons segment rest ih =>
    cases n with
    | zero => rfl
    | succ n =>
      rw [dropSteps, made, made, List.filterMap_cons]
      by_cases hsilent : isSilent segment = true
      · have hnone : ofSegment? segment = none := by simpa [isSilent] using hsilent
        rw [if_pos hsilent, hnone]
        exact ih (n + 1)
      · obtain ⟨step, hstep⟩ : ∃ step, ofSegment? segment = some step := by
          simpa [isSilent, Option.ne_none_iff_exists'] using hsilent
        rw [if_neg hsilent, hstep, List.drop_succ_cons]
        exact ih n

theorem inner_join (kept : List Bytes) (h : ∀ segment ∈ kept, separator ∉ segment) :
    inner (ofSegments kept).bytes = made kept := inner_ofSegments kept h

/-- A path of joined segments of which the first makes a step has no other start. -/
theorem steps_join_loud (kept : List Bytes) (h : ∀ segment ∈ kept, separator ∉ segment)
    (hhead : ∀ segment, kept.head? = some segment → isSilent segment = false) :
    (ofSegments kept).steps = made kept := by
  have hlead : (ofSegments kept).lead = [] := by
    have hrelative := relative_join kept h (by
      rintro segment rest rfl
      exact absurd (hhead [] rfl) (by decide))
    rw [lead, hrelative, if_neg Bool.false_ne_true]
    cases kept with
    | nil => decide
    | cons segment rest =>
      rw [segments_ofSegments _ (by simp) h, if_neg]
      rintro hdot
      obtain rfl := Option.some_inj.mp hdot
      exact absurd (hhead [dot] rfl) (by decide)
  rw [steps_eq, hlead, List.nil_append, inner_join kept h]

theorem steps_join_rooted (kept : List Bytes) (h : ∀ segment ∈ kept, separator ∉ segment) :
    steps ⟨separator :: (ofSegments kept).bytes⟩ = .root :: made kept := by
  have hinner := inner_append [] (ofSegments kept).bytes
  rw [List.nil_append, inner_nil, inner_join kept h, List.nil_append] at hinner
  rw [steps_of_isAbsolute _ ((isAbsolute_iff _).mpr ⟨_, rfl⟩), hinner]

theorem steps_join_dotted (kept : List Bytes) (h : ∀ segment ∈ kept, separator ∉ segment) :
    (ofSegments ([dot] :: kept)).steps = .here :: made kept := by
  have hunbroken : ∀ segment ∈ [dot] :: kept, separator ∉ segment :=
    List.forall_mem_cons.mpr ⟨by decide, h⟩
  have hrelative := relative_join ([dot] :: kept) hunbroken (by simp)
  have hsegments := segments_ofSegments ([dot] :: kept) (by simp) hunbroken
  rw [steps_eq, lead, hrelative, if_neg Bool.false_ne_true, hsegments, inner_join _ hunbroken]
  rfl

/-- A path starts with the root, with a `.`, or with the first of its segments that make a step. -/
theorem start_cases (p : Path) :
    (p.isAbsolute = true ∧ p.lead = [.root] ∧ p.segments = [] :: p.body) ∨
    (p.isAbsolute = false ∧ p.lead = [.here] ∧ p.segments = [dot] :: p.body) ∨
    (p.isAbsolute = false ∧ p.lead = [] ∧ p.segments = p.body ∧ p.segments.head? ≠ some [dot]) := by
  by_cases habsolute : p.isAbsolute = true
  · have hlead : p.lead = [.root] := if_pos habsolute
    obtain ⟨segment, rest, hsegments⟩ := (isAbsolute_segments p).mp habsolute
    exact Or.inl ⟨habsolute, hlead, by rw [body, hlead, hsegments]; rfl⟩
  rw [Bool.not_eq_true] at habsolute
  by_cases hdot : p.segments.head? = some [dot]
  · have hlead : p.lead = [.here] := by
      rw [lead, habsolute, if_neg Bool.false_ne_true, if_pos hdot]
    obtain ⟨rest, hsegments⟩ := List.head?_eq_some_iff.mp hdot
    exact Or.inr (Or.inl ⟨habsolute, hlead, by rw [body, hlead, hsegments]; rfl⟩)
  · have hlead : p.lead = [] := by
      rw [lead, habsolute, if_neg Bool.false_ne_true, if_neg hdot]
    exact Or.inr (Or.inr ⟨habsolute, hlead, by rw [body, hlead]; rfl, hdot⟩)

theorem steps_body (p : Path) : p.steps = p.lead ++ made p.body := by
  have hsteps : p.steps = p.lead ++ made p.segments := rfl
  rw [hsteps]
  rcases start_cases p with ⟨-, -, hsegments⟩ | ⟨-, -, hsegments⟩ | ⟨-, -, hsegments, -⟩
  · rw [hsegments]
    rfl
  · rw [hsegments]
    rfl
  · rw [hsegments]

/-- A relative path that does not start with a `.` opens with a step, or is empty. -/
theorem first_loud (p : Path) (hrelative : p.isAbsolute = false)
    (hdot : p.segments.head? ≠ some [dot]) (segment : Bytes) (rest : List Bytes)
    (h : p.segments = segment :: rest) :
    isSilent segment = false ∨ segment = [] ∧ rest = [] := by
  by_cases hsilent : isSilent segment = true
  · right
    rcases (isSilent_iff segment).mp hsilent with rfl | rfl
    · refine ⟨rfl, ?_⟩
      cases rest with
      | nil => rfl
      | cons second more =>
        rw [(isAbsolute_segments p).mpr ⟨second, more, h⟩] at hrelative
        exact absurd hrelative (by decide)
    · exact absurd (by rw [h]; rfl) hdot
  · exact Or.inl (Bool.eq_false_iff.mpr hsilent)

theorem bytes_eq_nil_iff (p : Path) : p.bytes = [] ↔ p.steps = [] := by
  constructor
  · exact steps_of_empty p
  · intro h
    rw [steps_body, List.append_eq_nil_iff] at h
    rcases start_cases p with ⟨-, hlead, -⟩ | ⟨-, hlead, -⟩ | ⟨hrelative, -, hbody, hdot⟩
    · simp [hlead] at h
    · simp [hlead] at h
    · obtain ⟨segment, rest, hsegments⟩ := List.exists_cons_of_ne_nil (segments_ne_nil p)
      rcases first_loud p hrelative hdot segment rest hsegments with hloud | ⟨rfl, rfl⟩
      · rw [← hbody, hsegments, made, List.filterMap_eq_nil_iff] at h
        simp [isSilent, h.2 segment List.mem_cons_self] at hloud
      · rw [← ofSegments_segments p, hsegments, ofSegments_singleton]

theorem head_trimSilent (segments : List Bytes) (segment : Bytes)
    (h : (trimSilent segments).head? = some segment) : segments.head? = some segment := by
  obtain ⟨silent, hsplit, -⟩ := trimSilent_append segments
  rw [hsplit, List.head?_append, h, Option.some_or]

theorem steps_trimmed (p : Path) : p.trimmed.steps = p.steps := by
  have hkept := unbroken_trimSilent p p.body (List.drop_subset _ _)
  rw [steps_body p, ← made_trimSilent, trimmed]
  rcases start_cases p with ⟨habsolute, hlead, -⟩ | ⟨hrelative, hlead, hsegments⟩ |
    ⟨hrelative, hlead, hsegments, hdot⟩
  · rw [if_pos habsolute, steps_join_rooted _ hkept, hlead]
    rfl
  · rw [hrelative, if_neg Bool.false_ne_true, hlead, hsegments]
    exact steps_join_dotted _ hkept
  · rw [hrelative, if_neg Bool.false_ne_true, hlead, List.nil_append]
    apply steps_join_loud _ hkept
    intro segment hsegment
    obtain ⟨rest, hrest⟩ := List.head?_eq_some_iff.mp (head_trimSilent p.body segment hsegment)
    rcases first_loud p hrelative hdot segment rest (hsegments.trans hrest) with hloud | ⟨rfl, rfl⟩
    · exact hloud
    · rw [hrest] at hsegment
      exact absurd hsegment (by decide)

theorem mem_dropSteps (n : Nat) (segments : List Bytes) : dropSteps n segments ⊆ segments := by
  induction segments generalizing n with
  | nil => cases n <;> exact List.Subset.refl _
  | cons segment rest ih =>
    cases n with
    | zero => exact List.Subset.refl _
    | succ n =>
      rw [dropSteps]
      split
      · exact List.subset_cons_of_subset _ (ih (n + 1))
      · exact List.subset_cons_of_subset _ (ih n)

theorem length_lead (p : Path) : p.lead.length ≤ 1 := by
  rcases start_cases p with ⟨-, hlead, -⟩ | ⟨-, hlead, -⟩ | ⟨-, hlead, -⟩ <;> simp [hlead]

/-- The path that is left after some steps makes the others. -/
theorem steps_after (p : Path) (before rest : List Step) (h : p.steps = before ++ rest) :
    (p.after before.length).steps = rest := by
  cases before with
  | nil => exact (steps_trimmed p).trans h
  | cons first more =>
    let left := dropSteps (more.length + 1 - p.lead.length) p.body
    have hleft : left.dropWhile isSilent ⊆ p.segments :=
      fun _ hmem => List.drop_subset _ _ (mem_dropSteps _ _ (List.dropWhile_subset _ hmem))
    have hlead : p.lead.drop (more.length + 1) = [] := by
      have hlength := length_lead p
      exact List.drop_eq_nil_of_le (by omega)
    have hsteps := steps_join_loud _ (unbroken_trimSilent p _ hleft) (by
      intro segment hsegment
      have hhead := List.head?_dropWhile_not isSilent left
      rw [head_trimSilent _ segment hsegment] at hhead
      simpa using hhead)
    have hrest := congrArg (List.drop (first :: more).length) h
    rw [List.drop_left, steps_body, List.drop_append, List.length_cons, hlead,
      List.nil_append] at hrest
    rw [made_trimSilent, made_dropWhile, made_dropSteps, hrest] at hsteps
    exact hsteps

theorem steps_strip? (p other : Path) :
    (p.strip? other).map steps = Affix.after? other.steps p.steps := by
  rw [strip?, Option.map_map]
  cases hafter : Affix.after? other.steps p.steps with
  | none => rfl
  | some rest =>
    exact congrArg some (steps_after p other.steps rest (Affix.after?_eq_some_iff.mp hafter))

end EntryPoints.Path
