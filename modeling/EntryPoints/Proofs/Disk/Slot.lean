import EntryPoints.Proofs.Disk.Update
import EntryPoints.Proofs.Outcome
import EntryPoints.Proofs.Path.Parent

/-!
# Slots

The slot of a path is told by the directory that the segments before its last name lead to, where
segments that make no step count for nothing. A file is created in the slot of its path, unless
a link stands there, and it changes no slot.
-/

set_option autoImplicit false

namespace EntryPoints.Disk
open EntryPoints.Path Step

variable (disk : Disk)

theorem walkSegments_outside (ending : Ending) (jump : Place → List Bytes → Except Fault Place)
    (place : Place) (segments : List Bytes) (hne : segments ≠ [])
    (h : disk.entry? place ≠ some .directory) :
    disk.walkSegments ending jump place segments = .error .notADirectory := by
  obtain ⟨segment, rest, rfl⟩ := List.exists_cons_of_ne_nil hne
  rw [walkSegments, if_pos h]

theorem walkSegments_loud (jump : Place → List Bytes → Except Fault Place)
    (hjump : ∀ place segments, jump place (segments ++ [[]]) = jump place (loud segments ++ [[]]))
    (place : Place) (segments : List Bytes) :
    disk.walkSegments .followed jump place (segments ++ [[]]) =
      disk.walkSegments .followed jump place (loud segments ++ [[]]) := by
  induction segments generalizing place with
  | nil => rfl
  | cons segment rest ih =>
    by_cases hdir : disk.entry? place ≠ some .directory
    · rw [walkSegments_outside disk _ _ _ _ (by simp) hdir,
        walkSegments_outside disk _ _ _ _ (by simp) hdir]
    by_cases hsilent : segment = [] ∨ segment = [dot]
    · rw [loud_cons segment rest ((isSilent_iff segment).mpr hsilent), List.cons_append,
        walkSegments_followed, if_neg hdir, if_pos hsilent]
      exact ih place
    have hloud : loud (segment :: rest) = segment :: loud rest := by
      apply List.filter_cons_of_pos
      rw [← isSilent_iff] at hsilent
      simp [hsilent]
    rw [hloud, List.cons_append, List.cons_append, walkSegments_followed, walkSegments_followed,
      if_neg hdir, if_neg hdir, if_neg hsilent, if_neg hsilent, ih, ih]
    cases disk.entry? (place ++ [segment]) with
    | none => rfl
    | some entry =>
      cases entry with
      | file content => rfl
      | directory => rfl
      | link target =>
        have htarget := hjump (origin place target) (target.segments ++ rest)
        have hrest := hjump (origin place target) (target.segments ++ loud rest)
        rw [loud_append, List.append_assoc] at htarget hrest
        rw [loud_loud] at hrest
        simp only [htarget, hrest]

/-- The way to a directory can do without the segments that make no step. -/
theorem walk_loud (links : Nat) (place : Place) (segments : List Bytes) :
    disk.walk .followed links place (segments ++ [[]]) =
      disk.walk .followed links place (loud segments ++ [[]]) := by
  induction links generalizing place segments with
  | zero => exact walkSegments_loud disk _ (fun _ _ => rfl) place segments
  | succ links ih => exact walkSegments_loud disk _ ih place segments

/-- How a path comes to its slot: the segments before its last name lead to the parent, and nothing
but separators follows the name. -/
structure Slotted (cwd : Place) (path : Path) (parent : Place) (before : List Bytes)
    (name : Bytes) (slashes : List Bytes) : Prop where
  accepted : acceptPath path = .ok ()
  segments : path.segments = before ++ name :: slashes
  slashes : ∀ segment ∈ slashes, segment = []
  plain : Plain name
  leads : disk.walk .followed linkLimit (origin cwd path) (before ++ [[]]) = .ok parent
  short : ¬nameLimit < name.length

theorem slot_of_slotted (cwd : Place) (path : Path) (parent : Place) (before : List Bytes)
    (name : Bytes) (slashes : List Bytes)
    (h : disk.Slotted cwd path parent before name slashes) :
    disk.slot cwd path = .ok ⟨parent ++ [name], path.segments.getLast? == some []⟩ := by
  have hname : (name == []) = false := by simpa using h.plain.nonempty
  have hnamed := trim_before (· == []) before slashes name hname (by simpa using h.slashes)
  rw [← h.segments] at hnamed
  simp only [slot, h.accepted, hnamed, List.dropLast_concat, h.leads, List.getLast?_concat, bind,
    Except.bind]
  rw [if_neg (by simp [h.plain.not_here, h.plain.not_up]), if_neg h.short]

theorem slot_eq_ok (cwd : Place) (path : Path) (slot : Slot) :
    disk.slot cwd path = .ok slot ↔ ∃ parent before name slashes,
      disk.Slotted cwd path parent before name slashes ∧
        slot = ⟨parent ++ [name], path.segments.getLast? == some []⟩ := by
  constructor
  · intro h
    unfold Disk.slot at h
    obtain ⟨_, haccept, h⟩ := (bind_eq_ok _ _ _).mp h
    obtain ⟨parent, hleads, h⟩ := (bind_eq_ok _ _ _).mp h
    split at h
    · simp at h
    · rename_i name hlast
      split at h
      · simp at h
      rename_i hsteps
      split at h
      · simp at h
      · rename_i hshort
        obtain ⟨before, hnamed⟩ := List.getLast?_eq_some_iff.mp hlast
        obtain ⟨slashes, hsegments, hname, hslashes⟩ := split_of_trim _ _ before name hnamed
        have hunbroken : separator ∉ name := by
          apply not_mem_segments path name
          rw [hsegments]
          simp
        rw [hnamed, List.dropLast_concat] at hleads
        refine ⟨parent, before, name, slashes, ⟨haccept, hsegments, by simpa using hslashes,
          ⟨hunbroken, by simpa using hname, fun h => hsteps (Or.inl h),
            fun h => hsteps (Or.inr h)⟩, hleads, hshort⟩, (Except.ok.inj h).symm⟩
  · rintro ⟨parent, before, name, slashes, hslotted, rfl⟩
    exact disk.slot_of_slotted cwd path parent before name slashes hslotted

theorem slot_ne_nil (cwd : Place) (path : Path) (slot : Slot)
    (h : disk.slot cwd path = .ok slot) : slot.place ≠ [] := by
  obtain ⟨parent, before, name, slashes, _, rfl⟩ := (disk.slot_eq_ok cwd path slot).mp h
  simp

theorem slot_of_opens (other : Disk) (hopens : Opens disk other) (cwd : Place) (path : Path)
    (slot : Slot) (h : disk.slot cwd path = .ok slot) : other.slot cwd path = .ok slot := by
  obtain ⟨parent, before, name, slashes, hslotted, rfl⟩ := (slot_eq_ok _ cwd path slot).mp h
  apply slot_of_slotted other cwd path parent before name slashes
  have hleads := disk.walk_of_opens other hopens linkLimit _ parent before hslotted.leads
  exact ⟨hslotted.accepted, hslotted.segments, hslotted.slashes, hslotted.plain, hleads,
    hslotted.short⟩

theorem slot_of_set_file (place cwd : Place) (content : Bytes) (path : Path) (slot : Slot)
    (h : (disk.set place (.file content)).slot cwd path = .ok slot) :
    disk.slot cwd path = .ok slot :=
  slot_of_opens _ disk (disk.opens_of_set_file place content) cwd path slot h

theorem walk_directory (links : Nat) (start place : Place) (segments : List Bytes)
    (h : disk.walk .followed links start segments = .ok place)
    (hdir : disk.entry? place = some .directory) :
    disk.walk .followed links start (segments ++ [[]]) = .ok place := by
  have hcontinues := disk.walk_continues .followed links start segments [[]] (Or.inl rfl)
  rw [h] at hcontinues
  obtain ⟨left, hleft⟩ := hcontinues
  obtain ⟨jump, hjump⟩ := disk.exists_jump .followed left
  rw [hleft, hjump, walkSegments_followed, if_neg (not_not_intro hdir), if_pos (Or.inl rfl),
    walkSegments]

/-- The walk to a file that is to be written ends at its name, unless a link stands there. -/
theorem walk_written_name (links : Nat) (place last : Place) (name : Bytes) (hname : Plain name)
    (h : disk.walk .written links place [name] = .ok last) :
    ¬nameLimit < name.length ∧
      ((∀ target, disk.entry? (place ++ [name]) ≠ some (.link target)) →
        last = place ++ [name]) := by
  have hdir := disk.walk_start .written links place last name [] h
  obtain ⟨jump, hjump⟩ := disk.exists_jump .written links
  rw [hjump, walkSegments, if_neg (not_not_intro hdir),
    if_neg (by simp [hname.nonempty, hname.not_here]), if_neg hname.not_up, if_neg (by simp)] at h
  by_cases hlong : nameLimit < name.length
  · rw [if_pos hlong] at h
    simp at h
  rw [if_neg hlong] at h
  refine ⟨hlong, fun hunlinked => ?_⟩
  cases hentry : disk.entry? (place ++ [name]) with
  | none =>
    rw [hentry] at h
    exact (Except.ok.inj h).symm
  | some entry =>
    rw [hentry] at h
    cases entry with
    | file content => exact (Except.ok.inj h).symm
    | directory => exact (Except.ok.inj h).symm
    | link target => exact absurd hentry (hunlinked target)

/-- A file is created in the slot of its path, unless a link stands there. -/
theorem creation_slot (cwd place : Place) (path : Path) (before : List Bytes) (name : Bytes)
    (hsegments : path.segments = before ++ [name]) (hname : Plain name)
    (h : disk.creationPlace cwd path = .ok place) :
    ∃ parent, disk.Slotted cwd path parent before name [] ∧
      ((∀ target, disk.entry? (parent ++ [name]) ≠ some (.link target)) →
        place = parent ++ [name]) := by
  obtain ⟨_, haccept, h⟩ := (bind_eq_ok _ _ _).mp h
  obtain ⟨last, hwalk, h⟩ := (bind_eq_ok _ _ _).mp h
  have hlast : last = place := by
    split at h
    · simp at h
    · exact Except.ok.inj h
  subst hlast
  rw [hsegments] at hwalk
  obtain ⟨parent, left, hparent, hcreated⟩ :=
    disk.walk_split .written linkLimit _ last before [name]
      (Or.inr ⟨name, List.mem_singleton_self name, hname.nonempty⟩) hwalk
  have hdir := disk.walk_start .written left parent last name [] hcreated
  obtain ⟨hshort, hplace⟩ := disk.walk_written_name left parent last name hname hcreated
  have hleads := disk.walk_directory linkLimit _ parent before hparent hdir
  exact ⟨parent, ⟨haccept, hsegments, by simp, hname, hleads, hshort⟩, hplace⟩

/-- The root is no place for a file. -/
theorem creationPlace_ne_nil (cwd place : Place) (path : Path)
    (h : disk.creationPlace cwd path = .ok place) : place ≠ [] := by
  rintro rfl
  obtain ⟨_, _, h⟩ := (bind_eq_ok _ _ _).mp h
  obtain ⟨last, _, h⟩ := (bind_eq_ok _ _ _).mp h
  split at h
  · simp at h
  · rename_i hplace
    cases h
    exact hplace (entry_nil disk)

end EntryPoints.Disk
