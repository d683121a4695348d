import EntryPoints.Proofs.Replace.Course

/-!
# Replacing all or nothing

At every point of a run, what its path denotes is as it was or has all of the new content, and a run
that succeeds leaves nothing else behind. A run that fails leaves its disk as it was, with one
exception: a file that could be made but not written to the end stays.
-/

set_option autoImplicit false

namespace EntryPoints.Replace

variable (trouble : Trouble) (mark : Nat) (cwd : Place) (before : Disk) (target : Path)
  (content : Bytes)

/-- What a path denotes: its slot, and what stands where its links end. -/
def Denotes (place : Place) : Prop :=
  (∃ slot, before.slot cwd target = .ok slot ∧ slot.place = place) ∨
    (before.resolve cwd target = .ok place ∧ before.entry? place ≠ none)

/-- A disk on which a path denotes what it did, or the new content, and means the same slot. -/
structure Intact (during : Disk) : Prop where
  kept : ∀ place, Denotes cwd before target place →
    during.entry? place = before.entry? place ∨ during.entry? place = some (.file content)
  slots : ∀ slot, during.slot cwd target = .ok slot → before.slot cwd target = .ok slot

section Free

variable {trouble mark cwd before target}
variable (hfree : Free mark cwd before target)
include hfree

theorem temp_absent {temp : Place} (hbegins : Begins trouble mark cwd before target temp) :
    before.entry? temp = none :=
  hfree _ (temp_created mark cwd before target temp hfree.unlinked hbegins.created).1

theorem temp_not_denoted {temp place : Place}
    (hbegins : Begins trouble mark cwd before target temp)
    (hdenotes : Denotes cwd before target place) : place ≠ temp := by
  have habsent := temp_absent hfree hbegins
  obtain ⟨_, directory, rfl, hbeside⟩ :=
    temp_created mark cwd before target temp hfree.unlinked hbegins.created
  rcases hdenotes with ⟨slot, hslot, rfl⟩ | ⟨_, hpresent⟩
  · obtain ⟨name, hplace, hname⟩ := hbeside slot hslot
    intro heq
    rw [hplace, List.append_right_inj, List.singleton_inj] at heq
    exact tempName_ne mark target name hname heq.symm
  · intro heq
    exact hpresent (heq ▸ habsent)

/-- The complete file can be removed, from the place where it was made. -/
theorem removalPlace_complete {temp : Place}
    (hbegins : Begins trouble mark cwd before target temp) :
    (complete before content temp).removalPlace cwd (tempPath mark target) = .ok temp := by
  have hcreated := (temp_created mark cwd before target temp hfree.unlinked hbegins.created).1
  have hopens := before.opens_set_absent temp (.file content) (temp_absent hfree hbegins)
  have hslot := before.slot_of_opens _ hopens cwd _ _ hcreated
  have hentry := before.entry_set_self temp (.file content) hbegins.ne_nil
  rw [← complete] at hslot hentry
  rw [Disk.removalPlace, hslot]
  simp [bind, Except.bind, hentry]

theorem disk_of_removed {temp place : Place}
    (hbegins : Begins trouble mark cwd before target temp)
    (h : (complete before content temp).removalPlace cwd (tempPath mark target) = .ok place) :
    (complete before content temp).erase place = before := by
  rw [removalPlace_complete content hfree hbegins] at h
  cases h
  exact (before.erase_set temp _).trans (before.erase_absent temp (temp_absent hfree hbegins))

theorem disk_of_moved {temp : Place} (place : Place)
    (hbegins : Begins trouble mark cwd before target temp) :
    (before.erase temp).set place (.file content) = before.set place (.file content) := by
  rw [before.erase_absent temp (temp_absent hfree hbegins)]

theorem intact_of_stage (during : Disk)
    (hstage : Stage trouble mark cwd before target content during) :
    Intact cwd before target content during := by
  cases hstage with
  | untouched => exact ⟨fun _ _ => Or.inl rfl, fun _ h => h⟩
  | begun temp bytes hbegins =>
    refine ⟨fun place hdenotes => Or.inl ?_, before.slot_of_set_file temp cwd _ target⟩
    have hne := temp_not_denoted hfree hbegins hdenotes
    exact before.entry_set_other temp place _ hne
  | removed temp place hbegins h =>
    rw [disk_of_removed content hfree hbegins h]
    exact ⟨fun _ _ => Or.inl rfl, fun _ h => h⟩
  | moved temp source place hbegins h =>
    obtain ⟨slot, hslot, rfl, hmoved⟩ := moved_complete content hfree.unlinked hbegins h
    rw [hmoved, disk_of_moved content hfree slot.place hbegins]
    refine ⟨fun place hdenotes => ?_, before.slot_of_set_file slot.place cwd _ target⟩
    by_cases hplace : place = slot.place
    · rw [hplace]
      exact Or.inr (before.entry_set_self _ _ (before.slot_ne_nil cwd target slot hslot))
    · exact Or.inl (before.entry_set_other _ place _ hplace)

end Free

/-- What a successful run has done: the new content stands in the slot of the destination, the
temporary file, which was beside it, is gone, and nothing else has changed. -/
structure Replaced (after : Disk) (slot : Disk.Slot) (temp : Place) : Prop where
  destination : before.slot cwd target = .ok slot
  temporary : before.slot cwd (tempPath mark target) = .ok ⟨temp, false⟩
  beside : temp.dropLast = slot.place.dropLast
  distinct : temp ≠ slot.place
  holds : after.entry? slot.place = some (.file content)
  gone : after.entry? temp = none
  others : ∀ place, place ≠ slot.place → after.entry? place = before.entry? place

/-- Wherever a run is cut off, its destination is what it was or the new file, whichever calls are
refused. -/
theorem replacement_atomic (hfree : Free mark cwd before target) :
    let course := run trouble mark cwd before target content
    (∀ count, Intact cwd before target content (reached before (course.acts.take count))) ∧
    (course.result = .ok () → ∃ slot temp, Replaced mark cwd before target content
      (course.after before) slot temp) := by
  intro course
  constructor
  · intro count
    have hstage := stage_of_take trouble mark cwd before target content count
    exact intact_of_stage content hfree _ hstage
  · intro hok
    obtain ⟨temp, slot, hbegins, hslot, hmoved⟩ := after_of_ok content hfree.unlinked hok
    have hafter := hmoved.trans (disk_of_moved content hfree slot.place hbegins)
    have habsent := temp_absent hfree hbegins
    obtain ⟨htemporary, directory, hdirectory, hbeside⟩ :=
      temp_created mark cwd before target temp hfree.unlinked hbegins.created
    obtain ⟨name, hplace, _⟩ := hbeside slot hslot
    have hdistinct := temp_not_denoted hfree hbegins (Or.inl ⟨slot, hslot, rfl⟩)
    have hothers (place : Place) (hne : place ≠ slot.place) :
        Disk.entry? (course.after before) place = before.entry? place := by
      rw [hafter, before.entry_set_other _ place _ hne]
    refine ⟨slot, temp, hslot, htemporary, ?_, hdistinct.symm, ?_, ?_, hothers⟩
    · rw [hplace, hdirectory, List.dropLast_concat, List.dropLast_concat]
    · rw [hafter]
      exact Disk.entry_set_self _ _ _ (before.slot_ne_nil cwd target slot hslot)
    · rw [hothers temp hdistinct.symm, habsent]

def home : Place := .ofTexts ["w"]

def output : Path := .ofText "out.json"

/-- A directory with a table that has been written before. -/
def published : Disk :=
  Disk.set (Disk.set {} home .directory) (.ofTexts ["w", "out.json"]) (.file [123, 125])

theorem replacement_atomic_published :
    Free 1 home published output ∧
      ∃ slot temp, Replaced 1 home published output [91, 93]
        ((run {} 1 home published output [91, 93]).after published) slot temp := by
  have hfree : Free 1 home published output := by decide +kernel
  have hok : (run {} 1 home published output [91, 93]).result = .ok () := by decide +kernel
  exact ⟨hfree, (replacement_atomic {} 1 home published output [91, 93] hfree).2 hok⟩

/-- The run makes its temporary file and cannot write it to the end. -/
def Stranded : Prop :=
  (∃ temp, Begins trouble mark cwd before target temp) ∧
    (trouble.refuses .write ≠ none ∨ trouble.refuses .sync ≠ none)

variable {trouble mark cwd before target} in
theorem Completes.not_stranded {temp : Place} (h : Completes trouble mark cwd before target temp) :
    ¬Stranded trouble mark cwd before target := by
  rintro ⟨_, hwrite | hsync⟩
  · exact hwrite h.written
  · exact hsync h.synced

variable {trouble mark cwd before target} in
/-- A temporary file is a trace. -/
theorem after_writing_ne {temp : Place} (hfree : Free mark cwd before target)
    (hbegins : Begins trouble mark cwd before target temp) (bytes : Bytes)
    (result : Except Fault Unit) : Run.after ⟨writing temp bytes, result⟩ before ≠ before := by
  have hset := before.entry_set_self temp (.file bytes) hbegins.ne_nil
  rw [Run.after, reached_writing before temp hbegins.ne_nil]
  intro heq
  rw [heq, temp_absent hfree hbegins] at hset
  simp at hset

/-- A run that fails leaves no trace unless it is stranded. -/
theorem failure_traceless_iff (fault : Fault) (hfree : Free mark cwd before target)
    (hremove : trouble.refuses .remove = none)
    (h : (run trouble mark cwd before target content).result = .error fault) :
    (run trouble mark cwd before target content).after before = before ↔
      ¬Stranded trouble mark cwd before target := by
  have hcourse := run_course trouble mark cwd before target content
  generalize run trouble mark cwd before target content = course at h hcourse ⊢
  cases hcourse with
  | unbegun reason hcreate =>
    refine iff_of_true rfl ?_
    rintro ⟨⟨temp, hbegins⟩, _⟩
    rw [Begins, hcreate] at hbegins
    simp at hbegins
  | unwritten temp reason hbegins hwrite =>
    have hdiffers := after_writing_ne hfree hbegins (content.take trouble.written) (.error reason)
    exact iff_of_false hdiffers (not_not_intro ⟨⟨temp, hbegins⟩, Or.inl (by simp [hwrite])⟩)
  | unsynced temp reason hbegins hsync =>
    have hdiffers := after_writing_ne hfree hbegins content (.error reason)
    exact iff_of_false hdiffers (not_not_intro ⟨⟨temp, hbegins⟩, Or.inr (by simp [hsync])⟩)
  | stuck temp reason other hcompletes hstuck =>
    rw [removalPlace_complete content hfree hcompletes.begins, Trouble.attempt, hremove] at hstuck
    simp at hstuck
  | cleared temp place reason hcompletes hplace =>
    refine iff_of_true ?_ hcompletes.not_stranded
    rw [Run.after, reached_append, reached_writing before temp hcompletes.begins.ne_nil]
    exact disk_of_removed content hfree hcompletes.begins hplace
  | moved => simp at h

/-- A file cannot be moved onto a directory. -/
theorem failure_traceless_onto_directory :
    let course := run {} 1 home published (.ofText "../w") [91, 93]
    course.result = .error .isADirectory ∧ course.after published = published := by
  have hfree : Free 1 home published (.ofText "../w") := by decide +kernel
  have herror : (run {} 1 home published (.ofText "../w") [91, 93]).result =
      .error .isADirectory := by decide +kernel
  refine ⟨herror, (failure_traceless_iff {} 1 home published (.ofText "../w") [91, 93] _ hfree rfl
    herror).mpr ?_⟩
  rintro ⟨_, hwrite | hsync⟩
  · exact hwrite rfl
  · exact hsync rfl

/-- A system that runs out of space after one byte. -/
def crowded : Trouble := ⟨fun call => if call = .write then some .noSpace else none, 1⟩

/-- The temporary file of a run that cannot write is left behind, though it could be removed. -/
theorem crowded_leaves_trace :
    let course := run crowded 1 home published output [91, 93]
    Free 1 home published output ∧ crowded.refuses .remove = none ∧
      course.result = .error .noSpace ∧
      Disk.entry? (course.after published) (.ofTexts ["w", ".out.json.tmp.1"]) = some (.file [91]) ∧
      course.after published ≠ published := by
  have hfree : Free 1 home published output := by decide +kernel
  have hleft : Disk.entry? ((run crowded 1 home published output [91, 93]).after published)
      (.ofTexts ["w", ".out.json.tmp.1"]) = some (.file [91]) := by decide +kernel
  have habsent : published.entry? (.ofTexts ["w", ".out.json.tmp.1"]) = none := by decide +kernel
  refine ⟨hfree, rfl, by decide +kernel, hleft, ?_⟩
  intro heq
  rw [heq, habsent] at hleft
  simp at hleft

end EntryPoints.Replace
