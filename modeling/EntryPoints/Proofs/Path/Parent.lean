import EntryPoints.Proofs.Path.Under

/-!
# The parent of a path

A path is its segments with separators between them, and it is absolute when it opens with an empty
segment and has another. Segments that make no step can be left out of the way to a directory, so a
parent is told by the segments that are left before the last name.
-/

set_option autoImplicit false

namespace EntryPoints.Path
open Step

/-- The segments that make a step. -/
def loud (segments : List Bytes) : List Bytes := segments.filter fun segment => !isSilent segment

theorem loud_append (segments more : List Bytes) :
    loud (segments ++ more) = loud segments ++ loud more := List.filter_append ..

theorem loud_loud (segments : List Bytes) : loud (loud segments) = loud segments := by
  simp [loud]

theorem isSilent_iff (segment : Bytes) :
    isSilent segment = true ↔ segment = [] ∨ segment = [dot] := by
  unfold isSilent ofSegment?
  split
  · simp [*]
  · split <;> simp [*]

theorem loud_cons (segment : Bytes) (rest : List Bytes) (h : isSilent segment = true) :
    loud (segment :: rest) = loud rest := List.filter_cons_of_neg (by simp [h])

theorem loud_silent (segments : List Bytes) (h : ∀ segment ∈ segments, isSilent segment = true) :
    loud segments = [] := by
  rw [loud, List.filter_eq_nil_iff]
  intro segment hmem
  simp [h segment hmem]

theorem trimSilent_append (segments : List Bytes) :
    ∃ silent, segments = trimSilent segments ++ silent ∧
      ∀ segment ∈ silent, isSilent segment = true := by
  refine ⟨(segments.reverse.takeWhile isSilent).reverse, ?_, ?_⟩
  · rw [trimSilent, ← List.reverse_append, List.takeWhile_append_dropWhile, List.reverse_reverse]
  · intro segment hmem
    exact List.mem_takeWhile_imp (List.mem_reverse.mp hmem)

theorem loud_trimSilent (segments : List Bytes) : loud (trimSilent segments) = loud segments := by
  obtain ⟨silent, hsplit, hsilent⟩ := trimSilent_append segments
  have hloud := congrArg loud hsplit
  rw [loud_append, loud_silent silent hsilent, List.append_nil] at hloud
  exact hloud.symm

/-- Trimming an end stops at the last element that is none of those to go. -/
theorem trim_before {α : Type} (q : α → Bool) (before silent : List α) (last : α)
    (hlast : q last = false) (hsilent : ∀ a ∈ silent, q a = true) :
    ((before ++ last :: silent).reverse.dropWhile q).reverse = before ++ [last] := by
  have hdrop : silent.reverse.dropWhile q = [] := by
    rw [List.dropWhile_eq_nil_iff]
    exact fun a ha => hsilent a (List.mem_reverse.mp ha)
  rw [List.reverse_append, List.reverse_cons, List.append_assoc, List.dropWhile_append, hdrop]
  simp [hlast]

/-- What a trimmed end shows of the whole: an element that stays is the last of them, and all that
comes after it has gone. -/
theorem split_of_trim {α : Type} (q : α → Bool) (whole before : List α) (last : α)
    (h : (whole.reverse.dropWhile q).reverse = before ++ [last]) :
    ∃ silent, whole = before ++ last :: silent ∧ q last = false ∧ ∀ a ∈ silent, q a = true := by
  have hdrop : whole.reverse.dropWhile q = last :: before.reverse := by
    rw [← List.reverse_reverse (whole.reverse.dropWhile q), h]
    simp
  refine ⟨(whole.reverse.takeWhile q).reverse, ?_, ?_, ?_⟩
  · have hsplit := List.takeWhile_append_dropWhile (p := q) (l := whole.reverse)
    have hwhole := congrArg List.reverse hsplit
    rw [hdrop] at hwhole
    simpa using hwhole.symm
  · have hhead := List.head?_dropWhile_not q whole.reverse
    rw [hdrop] at hhead
    simpa using hhead
  · intro a ha
    exact List.mem_takeWhile_imp (List.mem_reverse.mp ha)

theorem trimSilent_name (before silent : List Bytes) (name : Bytes) (hname : Plain name)
    (hsilent : ∀ segment ∈ silent, isSilent segment = true) :
    trimSilent (before ++ name :: silent) = before ++ [name] := by
  have hloud : isSilent name = false := by
    rw [Bool.eq_false_iff, ne_eq, isSilent_iff]
    simp [hname.nonempty, hname.not_here]
  exact trim_before isSilent before silent name hloud hsilent

theorem not_mem_segments (p : Path) (segment : Bytes) (h : segment ∈ p.segments) :
    separator ∉ segment := Text.not_mem_of_mem_splitOn separator p.bytes segment h

/-- A path is read back from its segments. -/
theorem ofSegments_segments (p : Path) : ofSegments p.segments = p := by
  rw [ofSegments, segments, List.intercalate_splitOn]

theorem segments_ne_nil (p : Path) : p.segments ≠ [] := List.splitOn_ne_nil separator p.bytes

theorem segments_lead (first bytes : Bytes) (h : separator ∉ first) :
    segments ⟨first ++ separator :: bytes⟩ = first :: segments ⟨bytes⟩ := by
  rw [segments, List.splitOn_append_cons_self, List.splitOn_eq_singleton h]
  rfl

theorem isAbsolute_segments (p : Path) :
    p.isAbsolute = true ↔ ∃ segment rest, p.segments = [] :: segment :: rest := by
  rw [isAbsolute_iff]
  constructor
  · rintro ⟨bytes, hbytes⟩
    have hcut : p.segments = [] :: segments ⟨bytes⟩ := by
      rw [← segments_lead [] bytes (by simp), List.nil_append, ← hbytes]
    obtain ⟨segment, rest, hrest⟩ := List.exists_cons_of_ne_nil (segments_ne_nil ⟨bytes⟩)
    exact ⟨segment, rest, by rw [hcut, hrest]⟩
  · rintro ⟨segment, rest, hsegments⟩
    refine ⟨(ofSegments (segment :: rest)).bytes, ?_⟩
    rw [← ofSegments_segments p, hsegments, ofSegments_cons_cons, List.nil_append]

theorem unbroken_trimSilent (p : Path) (kept : List Bytes) (hsub : kept ⊆ p.segments) :
    ∀ segment ∈ trimSilent kept, separator ∉ segment := by
  intro segment hmem
  obtain ⟨rest, hsplit, -⟩ := trimSilent_append kept
  apply not_mem_segments p segment
  apply hsub
  rw [hsplit]
  exact List.mem_append_left _ hmem

theorem loud_join (kept : List Bytes) (h : ∀ segment ∈ kept, separator ∉ segment) :
    loud (ofSegments kept).segments = loud kept := by
  cases kept with
  | nil => decide
  | cons segment rest => rw [segments_ofSegments _ (by simp) h]

theorem relative_join (kept : List Bytes) (h : ∀ segment ∈ kept, separator ∉ segment)
    (hhead : ∀ segment rest, kept ≠ [] :: segment :: rest) :
    (ofSegments kept).isAbsolute = false := by
  cases hkept : kept with
  | nil => decide
  | cons first rest =>
    rw [Bool.eq_false_iff, ne_eq, isAbsolute_segments, ← hkept,
      segments_ofSegments kept (by simp [hkept]) h]
    rintro ⟨segment, more, hsegments⟩
    exact hhead segment more hsegments

theorem exists_before_name (before silent : List Bytes) (name first : Bytes)
    (rest : List Bytes) (hne : name ≠ first) (h : first :: rest = before ++ name :: silent) :
    ∃ more, before = first :: more := by
  cases before with
  | nil => exact absurd (List.cons.inj h).1.symm hne
  | cons segment more => exact ⟨more, by rw [(List.cons.inj h).1]⟩

section Parent
variable (p : Path) (before silent : List Bytes) (name : Bytes) (hname : Plain name)
  (hsilent : ∀ segment ∈ silent, isSilent segment = true)

include hname hsilent

theorem parent_rooted (h : p.segments = [] :: (before ++ name :: silent)) :
    p.parent? = some ⟨separator :: (ofSegments (trimSilent before)).bytes⟩ := by
  have habsolute : p.isAbsolute = true := by
    rw [isAbsolute_segments, h]
    cases before with
    | nil => exact ⟨name, silent, rfl⟩
    | cons segment rest => exact ⟨segment, rest ++ name :: silent, rfl⟩
  simp [parent?, habsolute, h, trimSilent_name before silent name hname hsilent]

theorem parent_dotted (h : p.segments = [dot] :: (before ++ name :: silent)) :
    p.parent? = some (ofSegments ([dot] :: trimSilent before)) := by
  have hrelative : p.isAbsolute = false := by
    rw [Bool.eq_false_iff, ne_eq, isAbsolute_segments, h]
    simp
  simp [parent?, hrelative, h, trimSilent_name before silent name hname hsilent]

theorem parent_relative (hrelative : p.isAbsolute = false) (hhead : p.segments.head? ≠ some [dot])
    (h : p.segments = before ++ name :: silent) :
    p.parent? = some (ofSegments (trimSilent before)) := by
  have hdotted : (p.segments.head? == some [dot]) = false := by simpa using hhead
  simp only [parent?, hrelative, hdotted]
  simp [h, trimSilent_name before silent name hname hsilent]

/-- The parent of a path that ends in a name has the segments before the name, but for those that
make no step. -/
theorem parent_of_name (h : p.segments = before ++ name :: silent) :
    ∃ parent, p.parent? = some parent ∧ parent.isAbsolute = p.isAbsolute ∧
      loud parent.segments = loud before := by
  have hbefore : before ⊆ p.segments := by
    rw [h]
    exact List.subset_append_left before _
  have hkept := unbroken_trimSilent p
  obtain ⟨first, more, hfirst⟩ := List.exists_cons_of_ne_nil (segments_ne_nil p)
  by_cases hdot : first = [dot]
  · subst hdot
    obtain ⟨rest, rfl⟩ :=
      exists_before_name before silent name [dot] more hname.not_here (hfirst.symm.trans h)
    have hsegments : (ofSegments ([dot] :: trimSilent rest)).segments = [dot] :: trimSilent rest :=
      segments_ofSegments _ (by simp)
        (List.forall_mem_cons.mpr ⟨by decide, hkept rest (List.subset_of_cons_subset hbefore)⟩)
    refine ⟨_, parent_dotted p rest silent name hname hsilent h, ?_, ?_⟩
    · rw [Bool.eq_iff_iff, isAbsolute_segments, isAbsolute_segments, hsegments, h]
      simp
    · rw [hsegments, loud_cons [dot] _ (by decide), loud_cons [dot] _ (by decide), loud_trimSilent]
  by_cases habsolute : p.isAbsolute = true
  · obtain ⟨second, others, hsecond⟩ := (isAbsolute_segments p).mp habsolute
    obtain ⟨rest, rfl⟩ :=
      exists_before_name before silent name [] _ hname.nonempty (hsecond.symm.trans h)
    refine ⟨_, parent_rooted p rest silent name hname hsilent h, ?_, ?_⟩
    · rw [habsolute, isAbsolute_iff]
      exact ⟨_, rfl⟩
    · have hsegments := segments_lead [] (ofSegments (trimSilent rest)).bytes (by simp)
      rw [List.nil_append] at hsegments
      rw [hsegments, loud_cons [] _ (by decide), loud_cons [] _ (by decide),
        loud_join _ (hkept rest (List.subset_of_cons_subset hbefore)), loud_trimSilent]
  · rw [Bool.not_eq_true] at habsolute
    have hhead : p.segments.head? ≠ some [dot] := by simp [hfirst, hdot]
    refine ⟨_, parent_relative p before silent name hname hsilent habsolute hhead h, ?_, ?_⟩
    · rw [habsolute]
      apply relative_join _ (hkept before hbefore)
      intro segment rest hnames
      obtain ⟨trimmed, hsplit, -⟩ := trimSilent_append before
      rw [Bool.eq_false_iff, ne_eq, isAbsolute_segments] at habsolute
      apply habsolute
      rw [h, hsplit, hnames]
      exact ⟨segment, _, rfl⟩
    · rw [loud_join _ (hkept before hbefore), loud_trimSilent]

end Parent

end EntryPoints.Path
