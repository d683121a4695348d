import EntryPoints.Disk.Replace
import EntryPoints.Proofs.Disk.Slot
import EntryPoints.Proofs.Path.Spelled

/-!
# The place of a temporary file

The temporary file of a destination stands in the directory that the destination stands in, under a
longer name. So moving it onto the destination stays within one directory, and making it never
touches the destination itself, whatever the path of the destination looks like.
-/

set_option autoImplicit false

namespace EntryPoints

open EntryPoints.Path Step

theorem Path.fileName_of_segments (p : Path) (before slashes : List Bytes) (name : Bytes)
    (hname : Plain name) (hslashes : ∀ segment ∈ slashes, segment = [])
    (h : p.segments = before ++ name :: slashes) : p.fileName? = some name := by
  have hsilent : slashes.filterMap ofSegment? = [] := by
    rw [List.filterMap_eq_nil_iff]
    intro segment hmem
    rw [hslashes segment hmem]
    rfl
  rw [fileName?, steps, h, List.filterMap_append, List.filterMap_cons, ofSegment?_plain name hname,
    hsilent, ← List.append_assoc, List.getLast?_concat]
  rfl

namespace Replace

/-- The name of a destination, if it has one that is a text. -/
def targetName (target : Path) : String := (target.fileName?.bind Lossy.text?).getD "exports"

def tempName (mark : Nat) (target : Path) : String :=
  "." ++ targetName target ++ ".tmp." ++ toString mark

/-- The directory of a destination, as its path spells it. -/
def tempParent (target : Path) : Path := (target.parent?.filter (·.bytes ≠ [])).getD (.ofText ".")

theorem tempPath_eq (mark : Nat) (target : Path) :
    tempPath mark target = (tempParent target).join (.ofText (tempName mark target)) := rfl

theorem targetName_of_text (target : Path) (name : String)
    (h : target.fileName? = some (Text.bytes name)) : targetName target = name := by
  rw [targetName, h, Option.bind_some, (Lossy.text?_eq_some_iff _ name).mpr rfl, Option.getD_some]

theorem targetName_unbroken (target : Path) : '/' ∉ (targetName target).toList := by
  unfold targetName
  cases hname : target.fileName?.bind Lossy.text? with
  | none => decide
  | some name =>
    obtain ⟨bytes, hbytes, htext⟩ := Option.bind_eq_some_iff.mp hname
    obtain ⟨step, hlast, hstep⟩ := Option.bind_eq_some_iff.mp hbytes
    obtain rfl := (Lossy.text?_eq_some_iff bytes name).mp htext
    cases step with
    | name bytes =>
      obtain rfl := Option.some_inj.mp hstep
      have hplain := plain_of_mem_steps target _ (List.mem_of_getLast? hlast)
      exact ((plain_bytes_iff name).mp hplain).1
    | root | here | up => simp [name?] at hstep

theorem mark_unbroken (mark : Nat) : '/' ∉ (toString mark).toList := by
  intro h
  have hdigit : '/'.isDigit := by
    simp only [Nat.toString_eq_repr, Nat.toList_repr] at h
    exact Nat.isDigit_of_mem_toDigits (by decide) (by decide) h
  simp at hdigit

theorem length_tempName (mark : Nat) (target : Path) :
    (tempName mark target).length =
      (targetName target).length + (toString mark).length + 6 := by
  have hdot : ".".length = 1 := by decide
  have htmp : ".tmp.".length = 5 := by decide
  simp only [tempName, String.length_append, hdot, htmp]
  omega

theorem tempName_plain (mark : Nat) (target : Path) :
    Plain (Text.bytes (tempName mark target)) := by
  have hlength := length_tempName mark target
  have hshort (s : String) (h : s.length < 6) : tempName mark target ≠ s := by
    intro heq
    rw [heq] at hlength
    omega
  have hunbroken : '/' ∉ (tempName mark target).toList := by
    simp only [tempName, String.toList_append, List.mem_append, targetName_unbroken,
      mark_unbroken, or_false]
    decide
  exact (plain_bytes_iff _).mpr
    ⟨hunbroken, hshort "" (by decide), hshort "." (by decide), hshort ".." (by decide)⟩

/-- The temporary name is longer than the name of the destination where that is a text, and it is a
text itself. -/
theorem tempName_ne (mark : Nat) (target : Path) (name : Bytes)
    (h : target.fileName? = some name) : Text.bytes (tempName mark target) ≠ name := by
  rintro rfl
  have hlength := length_tempName mark target
  rw [targetName_of_text target _ h] at hlength
  omega

theorem tempParent_bytes (target : Path) : (tempParent target).bytes ≠ [] := by
  unfold tempParent
  cases hfilter : target.parent?.filter (·.bytes ≠ []) with
  | none => decide +kernel
  | some parent => simpa using (Option.filter_eq_some_iff.mp hfilter).2

/-- The parent of a destination under its own spelling has the segments before the name. -/
theorem tempParent_of_name (target : Path) (before slashes : List Bytes) (name : Bytes)
    (hname : Plain name) (hslashes : ∀ segment ∈ slashes, segment = [])
    (h : target.segments = before ++ name :: slashes) :
    (tempParent target).isAbsolute = target.isAbsolute ∧
      loud (tempParent target).segments = loud before := by
  obtain ⟨parent, hparent, habsolute, hloud⟩ := parent_of_name target before slashes name hname
    (fun segment hmem => (isSilent_iff segment).mpr (Or.inl (hslashes segment hmem))) h
  rw [tempParent, hparent]
  by_cases hempty : parent.bytes = []
  · obtain ⟨bytes⟩ := parent
    subst hempty
    rw [← habsolute, ← hloud]
    decide +kernel
  · rw [Option.filter_some, if_pos (by simpa using hempty)]
    exact ⟨habsolute, hloud⟩

theorem tempPath_segments (mark : Nat) (target : Path) :
    ∃ before, (tempPath mark target).segments = before ++ [Text.bytes (tempName mark target)] ∧
      loud before = loud (tempParent target).segments := by
  have hname := tempName_plain mark target
  obtain ⟨before, hsegments, hbefore⟩ := segments_join (tempParent target)
    (.ofText (tempName mark target)) (tempParent_bytes target) (relative_name _ hname)
  rw [← tempPath_eq] at hsegments
  refine ⟨before, ?_, ?_⟩
  · rw [hsegments]
    exact congrArg (before ++ ·) (List.splitOn_eq_singleton hname.unbroken)
  · rcases hbefore with h | h
    · rw [h]
    · rw [h, loud_append, loud_cons [] [] (by decide), show loud [] = [] from rfl,
        List.append_nil]

theorem tempPath_isAbsolute (mark : Nat) (target : Path) :
    (tempPath mark target).isAbsolute = (tempParent target).isAbsolute :=
  isAbsolute_join _ _ (tempParent_bytes target) (relative_name _ (tempName_plain mark target))

variable (mark : Nat) (cwd : Place) (disk : Disk) (target : Path)

/-- Nothing stands where the temporary file is going to. -/
def Free : Prop :=
  ∀ slot, disk.slot cwd (tempPath mark target) = .ok slot → disk.entry? slot.place = none

/-- No link stands there. A link would be written through, and moved in place of the file. -/
def Unlinked : Prop :=
  ∀ slot link, disk.slot cwd (tempPath mark target) = .ok slot →
    disk.entry? slot.place ≠ some (.link link)

instance : Decidable (Free mark cwd disk target) :=
  match h : disk.slot cwd (tempPath mark target) with
  | .ok slot => decidable_of_iff (disk.entry? slot.place = none) (by simp [Free, h])
  | .error fault => isTrue (by simp [Free, h])

variable {mark cwd disk target} in
theorem Free.unlinked (h : Free mark cwd disk target) : Unlinked mark cwd disk target := by
  intro slot link hslot
  simp [h slot hslot]

/-- Where a temporary file is created: beside whatever stands, or would, at the destination. -/
theorem temp_created (temp : Place) (hunlinked : Unlinked mark cwd disk target)
    (h : disk.creationPlace cwd (tempPath mark target) = .ok temp) :
    disk.slot cwd (tempPath mark target) = .ok ⟨temp, false⟩ ∧
      ∃ directory, temp = directory ++ [Text.bytes (tempName mark target)] ∧
        ∀ slot, disk.slot cwd target = .ok slot →
          ∃ name, slot.place = directory ++ [name] ∧ target.fileName? = some name := by
  have hname := tempName_plain mark target
  obtain ⟨before, hsegments, hloud⟩ := tempPath_segments mark target
  obtain ⟨directory, hslotted, hplace⟩ :=
    disk.creation_slot cwd temp (tempPath mark target) before _ hsegments hname h
  have hslot := disk.slot_of_slotted cwd _ directory before _ [] hslotted
  obtain rfl := hplace fun link => hunlinked _ link hslot
  have hslash : (tempPath mark target).segments.getLast? =
      some (Text.bytes (tempName mark target)) := by
    rw [hsegments, List.getLast?_concat]
  refine ⟨?_, directory, rfl, fun slot hdestination => ?_⟩
  · rw [hslot, hslash]
    simp [hname.nonempty]
  · obtain ⟨parent, others, name, slashes, hother, rfl⟩ :=
      (disk.slot_eq_ok cwd target slot).mp hdestination
    obtain ⟨habsolute, hparent⟩ := tempParent_of_name target others slashes name hother.plain
      hother.slashes hother.segments
    have horigin : Disk.origin cwd (tempPath mark target) = Disk.origin cwd target := by
      rw [Disk.origin, Disk.origin, tempPath_isAbsolute mark target, habsolute]
    have hsame : parent = directory := by
      have hleads := hother.leads
      rw [Disk.walk_loud, ← hparent, ← hloud, ← Disk.walk_loud, ← horigin, hslotted.leads] at hleads
      exact (Except.ok.inj hleads).symm
    exact ⟨name, by rw [hsame], fileName_of_segments target others slashes name hother.plain
      hother.slashes hother.segments⟩

end Replace

end EntryPoints
