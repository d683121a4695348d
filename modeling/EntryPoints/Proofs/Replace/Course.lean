import EntryPoints.Proofs.Replace.Temp

/-!
# The course of a run

A file that is written holds the bytes written so far, which is what a run rests on. It takes one of
six courses: it is stopped before it begins, while it writes or while it makes sure of what it
wrote, it fails to move the complete file and then removes it or does not, or it moves it. What is
moved is what stands under the temporary name, and it goes to the slot that the destination had from
the start.
-/

set_option autoImplicit false

namespace EntryPoints

namespace Disk

variable (disk : Disk)

theorem append_set_file (place : Place) (content : Bytes) (byte : UInt8) (h : place ≠ []) :
    (disk.set place (.file content)).append place byte =
      disk.set place (.file (content ++ [byte])) := by
  rw [append, disk.entry_set_self place _ h]
  exact disk.set_set place _ _

theorem move_set_file (source target : Place) (entry : Entry) (h : source ≠ []) :
    (disk.set source entry).move source target = (disk.erase source).set target entry := by
  rw [move, disk.entry_set_self source entry h]
  exact congrArg (Disk.set · target entry) (disk.erase_set source entry)

/-- What is moved, and to where, are slots. -/
theorem slots_of_rename (cwd first last : Place) (source target : Path)
    (h : disk.renamePlaces cwd source target = .ok (first, last)) :
    ∃ moved slot, disk.slot cwd source = .ok moved ∧ moved.place = first ∧
      disk.slot cwd target = .ok slot ∧ slot.place = last := by
  obtain ⟨moved, hmoved, h⟩ := (bind_eq_ok _ _ _).mp h
  obtain ⟨slot, hslot, h⟩ := (bind_eq_ok _ _ _).mp h
  split at h
  · simp at h
  split at h
  · simp at h
  split at h
  · simp at h
  cases h
  exact ⟨moved, slot, hmoved, rfl, hslot, rfl⟩

end Disk

namespace Replace

theorem Trouble.attempt_eq_ok {α : Type} (trouble : Trouble) (call : Call)
    (answer : Except Fault α) (a : α) :
    trouble.attempt call answer = .ok a ↔ trouble.refuses call = none ∧ answer = .ok a := by
  rw [Trouble.attempt]
  cases trouble.refuses call <;> simp

theorem Trouble.attempt_unit_eq_error (trouble : Trouble) (call : Call) (fault : Fault) :
    trouble.attempt call (.ok ()) = .error fault ↔ trouble.refuses call = some fault := by
  rw [Trouble.attempt]
  cases trouble.refuses call <;> simp

theorem reached_append (disk : Disk) (acts more : List Act) :
    reached disk (acts ++ more) = reached (reached disk acts) more := by
  induction acts generalizing disk with
  | nil => rfl
  | cons act acts ih => exact ih _

theorem reached_bytes (disk : Disk) (place : Place) (h : place ≠ []) (content bytes : Bytes) :
    reached (disk.set place (.file content)) (bytes.map (.append place)) =
      disk.set place (.file (content ++ bytes)) := by
  induction bytes generalizing content with
  | nil =>
    rw [List.append_nil]
    rfl
  | cons byte bytes ih =>
    rw [List.map_cons, reached, Act.apply, disk.append_set_file place content byte h, ih,
      List.append_assoc, List.singleton_append]

/-- A file that is written holds what has been written. -/
theorem reached_writing (disk : Disk) (place : Place) (h : place ≠ []) (bytes : Bytes) :
    reached disk (writing place bytes) = disk.set place (.file bytes) :=
  reached_bytes disk place h [] bytes

theorem take_writing (place : Place) (bytes : Bytes) (count : Nat) :
    (writing place bytes).take (count + 1) = writing place (bytes.take count) := by
  rw [writing, List.take_succ_cons, ← List.map_take]
  rfl

variable (trouble : Trouble) (mark : Nat) (cwd : Place) (before : Disk) (target : Path)
  (content : Bytes)

/-- The temporary file is made, and this is its place. -/
def Begins (temp : Place) : Prop :=
  trouble.attempt .create (before.creationPlace cwd (tempPath mark target)) = .ok temp

theorem Begins.created {trouble : Trouble} {mark : Nat} {cwd : Place} {before : Disk}
    {target : Path} {temp : Place} (h : Begins trouble mark cwd before target temp) :
    before.creationPlace cwd (tempPath mark target) = .ok temp :=
  ((trouble.attempt_eq_ok _ _ _).mp h).2

theorem Begins.ne_nil {trouble : Trouble} {mark : Nat} {cwd : Place} {before : Disk}
    {target : Path} {temp : Place} (h : Begins trouble mark cwd before target temp) : temp ≠ [] :=
  before.creationPlace_ne_nil cwd temp _ h.created

/-- The temporary file gets all of its content. -/
structure Completes (temp : Place) : Prop where
  begins : Begins trouble mark cwd before target temp
  written : trouble.refuses .write = none
  synced : trouble.refuses .sync = none

/-- The disk with a complete temporary file, as it is when the file is to be moved. -/
def complete (temp : Place) : Disk := before.set temp (.file content)

/-- The ways a run can go, each with what has been refused for it to end there. -/
inductive Course : Run → Prop where
  | unbegun (fault : Fault)
      (h : trouble.attempt .create (before.creationPlace cwd (tempPath mark target)) =
        .error fault) :
      Course ⟨[], .error fault⟩
  | unwritten (temp : Place) (fault : Fault) (hbegins : Begins trouble mark cwd before target temp)
      (h : trouble.refuses .write = some fault) :
      Course ⟨writing temp (content.take trouble.written), .error fault⟩
  | unsynced (temp : Place) (fault : Fault) (hbegins : Begins trouble mark cwd before target temp)
      (h : trouble.refuses .sync = some fault) :
      Course ⟨writing temp content, .error fault⟩
  | stuck (temp : Place) (fault reason : Fault)
      (hcompletes : Completes trouble mark cwd before target temp)
      (h : trouble.attempt .remove
        ((complete before content temp).removalPlace cwd (tempPath mark target)) = .error reason) :
      Course ⟨writing temp content, .error fault⟩
  | cleared (temp place : Place) (fault : Fault)
      (hcompletes : Completes trouble mark cwd before target temp)
      (h : (complete before content temp).removalPlace cwd (tempPath mark target) = .ok place) :
      Course ⟨writing temp content ++ [.remove place], .error fault⟩
  | moved (temp source place : Place) (hcompletes : Completes trouble mark cwd before target temp)
      (h : (complete before content temp).renamePlaces cwd (tempPath mark target) target =
        .ok (source, place)) :
      Course ⟨writing temp content ++ [.move source place], .ok ()⟩

theorem run_course : Course trouble mark cwd before target content
    (run trouble mark cwd before target content) := by
  unfold run
  dsimp only
  split
  case h_1 fault hcreate => exact Course.unbegun fault hcreate
  case h_2 temp hbegins =>
    split
    case h_1 fault hwrite =>
      exact Course.unwritten temp fault hbegins ((trouble.attempt_unit_eq_error _ _).mp hwrite)
    case h_2 hwrite =>
      have hwritten := ((trouble.attempt_eq_ok _ _ _).mp hwrite).1
      split
      case h_1 fault hsync =>
        exact Course.unsynced temp fault hbegins ((trouble.attempt_unit_eq_error _ _).mp hsync)
      case h_2 hsync =>
        have hcompletes : Completes trouble mark cwd before target temp :=
          ⟨hbegins, hwritten, ((trouble.attempt_eq_ok _ _ _).mp hsync).1⟩
        have hcomplete : reached before (writing temp content) = complete before content temp :=
          reached_writing before temp (Begins.ne_nil hbegins) content
        rw [hcomplete]
        unfold finish
        split
        case h_1 source place hrename =>
          exact Course.moved temp source place hcompletes
            ((trouble.attempt_eq_ok _ _ _).mp hrename).2
        case h_2 fault _ =>
          split
          case h_1 place hremove =>
            exact Course.cleared temp place fault hcompletes
              ((trouble.attempt_eq_ok _ _ _).mp hremove).2
          case h_2 reason hremove =>
            dsimp only
            rw [List.append_nil]
            exact Course.stuck temp fault reason hcompletes hremove

/-- The disks a run can come by. -/
inductive Stage : Disk → Prop where
  | untouched : Stage before
  | begun (temp : Place) (bytes : Bytes) (hbegins : Begins trouble mark cwd before target temp) :
      Stage (before.set temp (.file bytes))
  | removed (temp place : Place) (hbegins : Begins trouble mark cwd before target temp)
      (h : (complete before content temp).removalPlace cwd (tempPath mark target) = .ok place) :
      Stage ((complete before content temp).erase place)
  | moved (temp source place : Place) (hbegins : Begins trouble mark cwd before target temp)
      (h : (complete before content temp).renamePlaces cwd (tempPath mark target) target =
        .ok (source, place)) :
      Stage ((complete before content temp).move source place)

theorem stage_writing (temp : Place) (hbegins : Begins trouble mark cwd before target temp)
    (bytes : Bytes) (count : Nat) :
    Stage trouble mark cwd before target content
      (reached before ((writing temp bytes).take count)) := by
  cases count with
  | zero => exact Stage.untouched
  | succ count =>
    rw [take_writing, reached_writing before temp hbegins.ne_nil]
    exact Stage.begun temp _ hbegins

/-- A last act on the complete file. -/
theorem stage_finished (temp : Place) (hbegins : Begins trouble mark cwd before target temp)
    (act : Act) (hact : Stage trouble mark cwd before target content
      (act.apply (complete before content temp))) (count : Nat) :
    Stage trouble mark cwd before target content
      (reached before ((writing temp content ++ [act]).take count)) := by
  by_cases hcount : count ≤ (writing temp content).length
  · rw [List.take_append_of_le_length hcount]
    exact stage_writing trouble mark cwd before target content temp hbegins content count
  · rw [List.take_of_length_le (by simp only [List.length_append, List.length_singleton]; omega),
      reached_append, reached_writing before temp hbegins.ne_nil]
    exact hact

/-- Wherever a run is cut off, it has come to one of its stages. -/
theorem stage_of_take (count : Nat) :
    Stage trouble mark cwd before target content
      (reached before ((run trouble mark cwd before target content).acts.take count)) := by
  have hcourse := run_course trouble mark cwd before target content
  generalize run trouble mark cwd before target content = course at hcourse
  cases hcourse with
  | unbegun fault _ =>
    rw [List.take_nil]
    exact Stage.untouched
  | unwritten temp _ hbegins _ => exact stage_writing _ _ _ _ _ _ temp hbegins _ count
  | unsynced temp _ hbegins _ => exact stage_writing _ _ _ _ _ _ temp hbegins _ count
  | stuck temp _ _ hcompletes _ => exact stage_writing _ _ _ _ _ _ temp hcompletes.begins _ count
  | cleared temp place _ hcompletes h =>
    exact stage_finished _ _ _ _ _ _ temp hcompletes.begins _
      (Stage.removed temp place hcompletes.begins h) count
  | moved temp source place hcompletes h =>
    exact stage_finished _ _ _ _ _ _ temp hcompletes.begins _
      (Stage.moved temp source place hcompletes.begins h) count

section Unlinked

variable {trouble mark cwd before target}
variable (hunlinked : Unlinked mark cwd before target)
include hunlinked

/-- The temporary file is what is moved, to the slot that its destination had before. -/
theorem moved_complete {temp source place : Place}
    (hbegins : Begins trouble mark cwd before target temp)
    (h : (complete before content temp).renamePlaces cwd (tempPath mark target) target =
      .ok (source, place)) :
    ∃ slot, before.slot cwd target = .ok slot ∧ slot.place = place ∧
      (complete before content temp).move source place =
        (before.erase temp).set place (.file content) := by
  obtain ⟨moved, slot, hmoved, rfl, hslot, rfl⟩ := Disk.slots_of_rename _ _ _ _ _ _ h
  have hcreated := (temp_created mark cwd before target temp hunlinked hbegins.created).1
  have hsame := before.slot_of_set_file temp cwd content _ moved hmoved
  rw [hcreated] at hsame
  obtain rfl := Except.ok.inj hsame
  refine ⟨slot, before.slot_of_set_file temp cwd content target slot hslot, rfl, ?_⟩
  exact before.move_set_file temp slot.place _ hbegins.ne_nil

/-- The disk of a run that has succeeded. -/
theorem after_of_ok (h : (run trouble mark cwd before target content).result = .ok ()) :
    ∃ temp slot, Begins trouble mark cwd before target temp ∧ before.slot cwd target = .ok slot ∧
      (run trouble mark cwd before target content).after before =
        (before.erase temp).set slot.place (.file content) := by
  have hcourse := run_course trouble mark cwd before target content
  generalize run trouble mark cwd before target content = course at h hcourse
  cases hcourse with
  | moved temp source place hcompletes hrename =>
    obtain ⟨slot, hslot, rfl, hmoved⟩ :=
      moved_complete content hunlinked hcompletes.begins hrename
    refine ⟨temp, slot, hcompletes.begins, hslot, ?_⟩
    rw [Run.after, reached_append, reached_writing before temp hcompletes.begins.ne_nil, ← hmoved]
    rfl
  | unbegun | unwritten | unsynced | stuck | cleared => simp at h

end Unlinked

/-- A replacement that has succeeded holds its content, unless a link was in the way of the
temporary file. -/
theorem written_of_ok (hunlinked : Unlinked mark cwd before target)
    (h : (before.replace mark cwd target content).2 = .ok ()) :
    ∃ slot, before.slot cwd target = .ok slot ∧
      Disk.entry? (before.replace mark cwd target content).1 slot.place =
        some (.file content) := by
  simp only [Disk.replace] at h ⊢
  obtain ⟨temp, slot, _, hslot, hafter⟩ := after_of_ok content hunlinked h
  refine ⟨slot, hslot, ?_⟩
  rw [hafter]
  exact Disk.entry_set_self _ _ _ (before.slot_ne_nil cwd target slot hslot)

end Replace

end EntryPoints
