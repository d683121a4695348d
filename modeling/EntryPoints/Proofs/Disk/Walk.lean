import EntryPoints.Disk.Listing
import EntryPoints.Proofs.Path

/-!
# Walking a disk

A walk along two lists of segments goes on from where the first list leads, whatever links it has
followed on the way. Where nothing is a link, a walk along names leads to the place they spell.
-/

set_option autoImplicit false

namespace EntryPoints.Disk

variable (disk : Disk)

/-- What a path goes on with keeps its ending from showing at the segment before. -/
def Passes (ending : Ending) (rest : List Bytes) : Prop :=
  ending = .followed ∨ ∃ segment ∈ rest, segment ≠ []

theorem passes_append (ending : Ending) (rest more : List Bytes) (h : Passes ending more) :
    Passes ending (rest ++ more) := by
  rcases h with rfl | ⟨segment, hmem, hne⟩
  · exact Or.inl rfl
  · exact Or.inr ⟨segment, List.mem_append_right _ hmem, hne⟩

/-- One segment of a walk that the ending does not show at. -/
theorem walkSegments_passes (ending : Ending) (jump : Place → List Bytes → Except Fault Place)
    (place : Place) (segment : Bytes) (rest : List Bytes) (h : Passes ending rest) :
    disk.walkSegments ending jump place (segment :: rest) =
      if disk.entry? place ≠ some .directory then .error .notADirectory
      else if segment = [] ∨ segment = [Path.dot] then disk.walkSegments ending jump place rest
      else if segment = [Path.dot, Path.dot] then
        disk.walkSegments ending jump place.dropLast rest
      else if nameLimit < segment.length then .error .nameTooLong
      else
        match disk.entry? (place ++ [segment]) with
        | none => .error .notFound
        | some (.link target) => jump (origin place target) (target.segments ++ rest)
        | some _ => disk.walkSegments ending jump (place ++ [segment]) rest := by
  have hslash : ¬(ending = .written ∧ rest ≠ [] ∧ rest.all (· == []) = true) := by
    rintro ⟨rfl, -, hall⟩
    rcases h with h | ⟨other, hmem, hne⟩
    · simp at h
    · exact hne (by simpa using List.all_eq_true.mp hall other hmem)
  have hwritten : ¬(ending = .written ∧ rest = []) := by
    rintro ⟨rfl, rfl⟩
    simp [Passes] at h
  have hkept : ¬(ending = .kept ∧ rest = []) := by
    rintro ⟨rfl, rfl⟩
    simp [Passes] at h
  rw [walkSegments, if_neg hslash]
  cases disk.entry? (place ++ [segment]) with
  | none => simp only [if_neg hwritten]
  | some entry => cases entry <;> simp only [if_neg hkept]

theorem walkSegments_followed (jump : Place → List Bytes → Except Fault Place) (place : Place)
    (segment : Bytes) (rest : List Bytes) :
    disk.walkSegments .followed jump place (segment :: rest) =
      if disk.entry? place ≠ some .directory then .error .notADirectory
      else if segment = [] ∨ segment = [Path.dot] then disk.walkSegments .followed jump place rest
      else if segment = [Path.dot, Path.dot] then
        disk.walkSegments .followed jump place.dropLast rest
      else if nameLimit < segment.length then .error .nameTooLong
      else
        match disk.entry? (place ++ [segment]) with
        | none => .error .notFound
        | some (.link target) => jump (origin place target) (target.segments ++ rest)
        | some _ => disk.walkSegments .followed jump (place ++ [segment]) rest :=
  disk.walkSegments_passes .followed jump place segment rest (Or.inl rfl)

/-- What a step of a walk that arrives has met, and where it arrives from there. -/
theorem walkSegments_eq_ok (jump : Place → List Bytes → Except Fault Place) (place last : Place)
    (segment : Bytes) (rest : List Bytes) :
    disk.walkSegments .followed jump place (segment :: rest) = .ok last ↔
      disk.entry? place = some .directory ∧
        if segment = [] ∨ segment = [Path.dot] then
          disk.walkSegments .followed jump place rest = .ok last
        else if segment = [Path.dot, Path.dot] then
          disk.walkSegments .followed jump place.dropLast rest = .ok last
        else
          ¬nameLimit < segment.length ∧ ∃ entry,
            disk.entry? (place ++ [segment]) = some entry ∧
            match entry with
            | .link target => jump (origin place target) (target.segments ++ rest) = .ok last
            | _ => disk.walkSegments .followed jump (place ++ [segment]) rest = .ok last := by
  rw [walkSegments_followed]
  by_cases hdir : disk.entry? place = some .directory
  · rw [if_neg (not_not_intro hdir)]
    by_cases hsilent : segment = [] ∨ segment = [Path.dot]
    · simp only [if_pos hsilent, hdir, true_and]
    by_cases hup : segment = [Path.dot, Path.dot]
    · simp only [if_neg hsilent, if_pos hup, hdir, true_and]
    by_cases hlong : nameLimit < segment.length
    · simp [if_neg hsilent, if_neg hup, hlong]
    simp only [if_neg hsilent, if_neg hup, hdir, hlong, if_false, true_and, not_false_eq_true]
    cases disk.entry? (place ++ [segment]) with
    | none => simp
    | some entry => cases entry <;> simp
  · simp [hdir]

theorem exists_jump (ending : Ending) (links : Nat) :
    ∃ jump, disk.walk ending links = disk.walkSegments ending jump := by
  cases links <;> exact ⟨_, rfl⟩

/-- How a walk along more segments ends, given how it ends without them. A link on the way may have
used up some of the links there are. -/
def Continues (ending : Ending) (more : List Bytes) (outcome whole : Except Fault Place) : Prop :=
  match outcome with
  | .error fault => whole = .error fault
  | .ok place => ∃ links, whole = disk.walk ending links place more

theorem walkSegments_continues (ending : Ending)
    (jump beyond : Place → List Bytes → Except Fault Place) (links : Nat) (more : List Bytes)
    (hmore : Passes ending more)
    (hlinks : disk.walk ending links = disk.walkSegments ending beyond)
    (hjump : ∀ place segments,
      disk.Continues ending more (jump place segments) (beyond place (segments ++ more)))
    (place : Place) (segments : List Bytes) :
    disk.Continues ending more (disk.walkSegments .followed jump place segments)
      (disk.walkSegments ending beyond place (segments ++ more)) := by
  induction segments generalizing place with
  | nil => exact ⟨links, by rw [hlinks]; rfl⟩
  | cons segment rest ih =>
    rw [List.cons_append, walkSegments_followed,
      walkSegments_passes _ _ _ _ _ _ (passes_append ending rest more hmore)]
    by_cases hdir : disk.entry? place ≠ some .directory
    · rw [if_pos hdir, if_pos hdir]
      rfl
    rw [if_neg hdir, if_neg hdir]
    by_cases hsilent : segment = [] ∨ segment = [Path.dot]
    · rw [if_pos hsilent, if_pos hsilent]
      exact ih place
    rw [if_neg hsilent, if_neg hsilent]
    by_cases hup : segment = [Path.dot, Path.dot]
    · rw [if_pos hup, if_pos hup]
      exact ih place.dropLast
    rw [if_neg hup, if_neg hup]
    by_cases hlong : nameLimit < segment.length
    · rw [if_pos hlong, if_pos hlong]
      rfl
    rw [if_neg hlong, if_neg hlong]
    cases disk.entry? (place ++ [segment]) with
    | none => rfl
    | some entry =>
      cases entry with
      | file content => exact ih (place ++ [segment])
      | directory => exact ih (place ++ [segment])
      | link target =>
        have htarget := hjump (origin place target) (target.segments ++ rest)
        rwa [List.append_assoc] at htarget

/-- Up to its last segments a walk follows links, whatever its ending. -/
theorem walk_continues (ending : Ending) (links : Nat) (place : Place)
    (segments more : List Bytes) (hmore : Passes ending more) :
    disk.Continues ending more (disk.walk .followed links place segments)
      (disk.walk ending links place (segments ++ more)) := by
  induction links generalizing place segments with
  | zero =>
    exact walkSegments_continues disk ending (fun _ _ => .error .tooManyLinks) _ 0 more hmore rfl
      (fun _ _ => rfl) place segments
  | succ links ih =>
    exact walkSegments_continues disk ending _ _ (links + 1) more hmore rfl ih place segments

theorem walk_split (ending : Ending) (links : Nat) (place last : Place)
    (segments more : List Bytes) (hmore : Passes ending more)
    (h : disk.walk ending links place (segments ++ more) = .ok last) :
    ∃ mid left, disk.walk .followed links place segments = .ok mid ∧
      disk.walk ending left mid more = .ok last := by
  have hcontinues := disk.walk_continues ending links place segments more hmore
  cases hfirst : disk.walk .followed links place segments with
  | error fault =>
    rw [hfirst, Continues, h] at hcontinues
    simp at hcontinues
  | ok mid =>
    rw [hfirst, Continues, h] at hcontinues
    obtain ⟨left, hleft⟩ := hcontinues
    exact ⟨mid, left, rfl, hleft.symm⟩

theorem walk_nil (links : Nat) (place : Place) :
    disk.walk .followed links place [] = .ok place := by
  obtain ⟨jump, hjump⟩ := disk.exists_jump .followed links
  rw [hjump, walkSegments]

theorem walkSegments_start (ending : Ending) (jump : Place → List Bytes → Except Fault Place)
    (place last : Place) (segments : List Bytes) (hne : segments ≠ [])
    (h : disk.walkSegments ending jump place segments = .ok last) :
    disk.entry? place = some .directory := by
  obtain ⟨segment, rest, rfl⟩ := List.exists_cons_of_ne_nil hne
  by_contra hdir
  rw [walkSegments, if_pos hdir] at h
  simp at h

/-- Every walk that has somewhere to go sets out from a directory. -/
theorem walk_start (ending : Ending) (links : Nat) (place last : Place) (segment : Bytes)
    (rest : List Bytes) (h : disk.walk ending links place (segment :: rest) = .ok last) :
    disk.entry? place = some .directory := by
  obtain ⟨jump, hjump⟩ := disk.exists_jump ending links
  rw [hjump] at h
  exact disk.walkSegments_start ending jump place last _ (by simp) h

theorem walk_empty (links : Nat) (place last : Place)
    (h : disk.walk .followed links place [[]] = .ok last) : last = place := by
  obtain ⟨jump, hjump⟩ := disk.exists_jump .followed links
  rw [hjump, walkSegments_eq_ok, if_pos (Or.inl rfl), walkSegments] at h
  exact (Except.ok.inj h.2).symm

/-- From a directory a name leads to its entry. -/
theorem walk_name (links : Nat) (place last : Place) (name : Bytes) (rest : List Bytes)
    (hname : Step.Plain name)
    (hunlinked : ∀ target, disk.entry? (place ++ [name]) ≠ some (.link target))
    (h : disk.walk .followed links place (name :: rest) = .ok last) :
    (disk.entry? (place ++ [name])).isSome = true ∧
      disk.walk .followed links (place ++ [name]) rest = .ok last := by
  obtain ⟨jump, hjump⟩ := disk.exists_jump .followed links
  rw [hjump, walkSegments_eq_ok, if_neg (by simp [hname.nonempty, hname.not_here]),
    if_neg hname.not_up] at h
  obtain ⟨_, _, entry, hentry, hrest⟩ := h
  rw [hjump, hentry]
  cases entry with
  | file content => exact ⟨rfl, hrest⟩
  | directory => exact ⟨rfl, hrest⟩
  | link target => exact absurd hentry (hunlinked target)

/-- Where nothing below is a link, names lead to the place that they spell. -/
theorem walk_names (links : Nat) (place last : Place) (names : List Bytes)
    (hnames : ∀ name ∈ names, Step.Plain name)
    (hunlinked : ∀ rest target, disk.entry? (place ++ rest) ≠ some (.link target))
    (hplace : (disk.entry? place).isSome = true)
    (h : disk.walk .followed links place names = .ok last) :
    last = place ++ names ∧ (disk.entry? last).isSome = true := by
  induction names generalizing place with
  | nil =>
    rw [walk_nil, Except.ok.injEq] at h
    subst h
    exact ⟨(List.append_nil place).symm, hplace⟩
  | cons name rest ih =>
    obtain ⟨hname, hrest⟩ := List.forall_mem_cons.mp hnames
    obtain ⟨hentry, hwalk⟩ := disk.walk_name links place last name rest hname
      (fun target => hunlinked [name] target) h
    have hbelow : ∀ more target, disk.entry? (place ++ [name] ++ more) ≠ some (.link target) := by
      intro more target
      rw [List.append_assoc]
      exact hunlinked _ target
    have hlast := ih (place ++ [name]) hrest hbelow hentry hwalk
    rwa [List.append_assoc] at hlast

end EntryPoints.Disk
