import EntryPoints.Proofs.Disk.Walk

/-!
# Changing one entry

Setting an entry leaves all others as they are, and erasing one that is not there changes nothing. A
walk that has to end in a directory comes by directories and links alone, so it arrives on any disk
that has those too: a new file opens no way to anything, and where nothing was it is in no way.
-/

set_option autoImplicit false

namespace EntryPoints.Disk

variable (disk : Disk)

theorem entry_nil : disk.entry? [] = some .directory := rfl

theorem entry_of_ne_nil (place : Place) (h : place ≠ []) :
    disk.entry? place = disk.entries[place]? := if_neg h

theorem entry_set_self (place : Place) (entry : Entry) (h : place ≠ []) :
    Disk.entry? (disk.set place entry) place = some entry := by
  rw [entry_of_ne_nil _ place h, set, Std.ExtTreeMap.getElem?_insert_self]

theorem entry_set_other (place other : Place) (entry : Entry) (h : other ≠ place) :
    Disk.entry? (disk.set place entry) other = disk.entry? other := by
  have hne : Place.order place other ≠ .eq := fun heq => h (Std.LawfulEqCmp.eq_of_compare heq).symm
  by_cases hnil : other = []
  · rw [hnil, entry_nil, entry_nil]
  · rw [entry_of_ne_nil _ other hnil, entry_of_ne_nil _ other hnil, set,
      Std.ExtTreeMap.getElem?_insert, if_neg hne]

theorem erase_absent (place : Place) (h : disk.entry? place = none) : disk.erase place = disk := by
  have hne : place ≠ [] := by
    rintro rfl
    simp [entry_nil] at h
  rw [entry_of_ne_nil _ place hne] at h
  refine congrArg Disk.mk (Std.ExtTreeMap.ext_getElem? fun other => ?_)
  rw [Std.ExtTreeMap.getElem?_erase]
  split
  · rename_i heq
    rw [← Std.LawfulEqCmp.eq_of_compare heq, h]
  · rfl

theorem erase_set (place : Place) (entry : Entry) :
    Disk.erase (disk.set place entry) place = disk.erase place := by
  refine congrArg Disk.mk (Std.ExtTreeMap.ext_getElem? fun other => ?_)
  rw [set, Std.ExtTreeMap.getElem?_erase, Std.ExtTreeMap.getElem?_erase]
  split
  · rfl
  · rename_i hne
    rw [Std.ExtTreeMap.getElem?_insert, if_neg hne]

theorem set_set (place : Place) (entry other : Entry) :
    Disk.set (disk.set place entry) place other = disk.set place other := by
  refine congrArg Disk.mk (Std.ExtTreeMap.ext_getElem? fun key => ?_)
  simp only [set, Std.ExtTreeMap.getElem?_insert]
  split <;> rfl

/-- All directories and links of one disk are on another, which leads at least as far. -/
def Opens (disk other : Disk) : Prop :=
  ∀ place entry, entry.isFile = false → disk.entry? place = some entry →
    other.entry? place = some entry

/-- A file that is put on a disk opens nothing. -/
theorem opens_of_set_file (place : Place) (content : Bytes) :
    Opens (disk.set place (.file content)) disk := by
  intro other entry hentry h
  by_cases hother : other = place
  · subst hother
    by_cases hnil : other = []
    · rw [hnil, entry_nil] at h ⊢
      exact h
    · rw [entry_set_self disk other _ hnil, Option.some_inj] at h
      subst h
      simp [Entry.isFile] at hentry
  · rwa [entry_set_other disk place other _ hother] at h

/-- A file that is put where nothing is closes nothing. -/
theorem opens_set_absent (place : Place) (entry : Entry) (h : disk.entry? place = none) :
    Opens disk (disk.set place entry) := by
  intro other found _ hfound
  have hne : other ≠ place := by
    rintro rfl
    simp [h] at hfound
  rw [entry_set_other disk place other entry hne, hfound]

theorem walkSegments_of_opens (other : Disk) (hopens : Opens disk other)
    (jump beyond : Place → List Bytes → Except Fault Place)
    (hjump : ∀ start last segments,
      jump start (segments ++ [[]]) = .ok last → beyond start (segments ++ [[]]) = .ok last)
    (start last : Place) (segments : List Bytes)
    (h : disk.walkSegments .followed jump start (segments ++ [[]]) = .ok last) :
    other.walkSegments .followed beyond start (segments ++ [[]]) = .ok last := by
  induction segments generalizing start with
  | nil =>
    rw [List.nil_append, walkSegments_eq_ok, if_pos (Or.inl rfl)] at h ⊢
    exact ⟨hopens start .directory rfl h.1, h.2⟩
  | cons segment rest ih =>
    rw [List.cons_append, walkSegments_eq_ok] at h ⊢
    obtain ⟨hdir, h⟩ := h
    refine ⟨hopens start .directory rfl hdir, ?_⟩
    by_cases hsilent : segment = [] ∨ segment = [Path.dot]
    · rw [if_pos hsilent] at h ⊢
      exact ih start h
    rw [if_neg hsilent] at h ⊢
    by_cases hup : segment = [Path.dot, Path.dot]
    · rw [if_pos hup] at h ⊢
      exact ih start.dropLast h
    rw [if_neg hup] at h ⊢
    obtain ⟨hshort, entry, hentry, h⟩ := h
    cases entry with
    | file bytes =>
      -- Nothing is below a file, not even the empty segment at the end.
      have hdirectory := walkSegments_start _ _ _ _ last (rest ++ [[]]) (by simp) h
      rw [hentry] at hdirectory
      simp at hdirectory
    | directory =>
      exact ⟨hshort, .directory, hopens _ .directory rfl hentry, ih (start ++ [segment]) h⟩
    | link target =>
      refine ⟨hshort, .link target, hopens _ (.link target) rfl hentry, ?_⟩
      simp only [← List.append_assoc] at h ⊢
      exact hjump _ last _ h

theorem walk_of_opens (other : Disk) (hopens : Opens disk other) (links : Nat)
    (start last : Place) (segments : List Bytes)
    (h : disk.walk .followed links start (segments ++ [[]]) = .ok last) :
    other.walk .followed links start (segments ++ [[]]) = .ok last := by
  induction links generalizing start last segments with
  | zero =>
    exact walkSegments_of_opens disk other hopens (fun _ _ => .error .tooManyLinks) _
      (fun _ _ _ h => by simp at h) start last segments h
  | succ links ih =>
    exact walkSegments_of_opens disk other hopens _ _ ih start last segments h

end EntryPoints.Disk
