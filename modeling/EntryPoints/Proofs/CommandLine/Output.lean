import EntryPoints.CommandLine.Run
import EntryPoints.Proofs.Json.RoundTrip
import EntryPoints.Proofs.Replace.Course
import EntryPoints.Proofs.Resolver.Fixpoint

/-!
# Output for machines

With JSON asked for, a run puts out one object and a line break, and a reader gets out of it what
the flattening came to: the rows of the table, or the error under a key that no table has. A file
that is written instead holds the same bytes.
-/

set_option autoImplicit false

namespace EntryPoints.CommandLine
open Json Resolver

/-- A text that is one JSON object and a line break. -/
def Reads (output : String) (members : List (String × Json)) : Prop :=
  ∃ text, output = text ++ "\n" ∧ Json.read? text = some (.object members) ∧
    (text = (Json.object members).compact ∨ text = (Json.object members).pretty)

/-- The members are the rows of a table, in ascending order. -/
structure Lists (members : List (String × Json)) (flat : Table String) : Prop where
  rows : ∀ k v, (k, v) ∈ members ↔ ∃ t, flat[k]? = some t ∧ v = .string t
  ascending : members.Pairwise fun a b => Text.byteOrder a.1 b.1 = .lt

/-- What a report tells of an outcome, in an object with these members. -/
structure Tells (outcome : Except Error (Table String)) (report : Report)
    (members : List (String × Json)) : Prop where
  reads : Reads report.output members
  exit : report.exit = 0 ∨ report.exit = 1
  marked : (∃ v, ("ok", v) ∈ members) ↔ report.exit = 1
  failed : report.exit = 1 → ∃ e, outcome = .error e ∧ members = [("ok", .boolean false),
    ("error", .object [("code", .string e.code), ("message", .string e.message)])]
  listed : report.exit = 0 → ∃ flat, outcome = .ok flat ∧ Lists members flat

/-- What the manifest that a run finds comes to. -/
def outcome (around : Surroundings) (invocation : Invocation) : Except Error (Table String) :=
  flatten (setup invocation around.workingDirectory) invocation around.source
    (around.disk.view around.cwd)

theorem reads_failure (e : Error) : Reads ((failure e).compact ++ "\n") [("ok", .boolean false),
    ("error", .object [("code", .string e.code), ("message", .string e.message)])] := by
  refine ⟨(failure e).compact, rfl, read_compact (failure e) ?_, Or.inl rfl⟩
  apply Readable.object 126 _ (by simp)
  simp only [List.forall_mem_cons, List.not_mem_nil, false_implies, implies_true, and_true]
  refine ⟨Readable.boolean 126 false, Readable.object 125 _ (by simp) ?_⟩
  simp only [List.forall_mem_cons, List.not_mem_nil, false_implies, implies_true, and_true]
  exact ⟨Readable.string 125 e.code, Readable.string 125 e.message⟩

theorem reads_document (flat : Table String) : Reads (document flat) (members flat.toList) := by
  refine ⟨flat.toJson.pretty, rfl, read_pretty flat.toJson ?_, Or.inr rfl⟩
  apply Readable.object 126 _ (nodup_members flat.toList flat (List.Perm.refl _))
  intro member hmember
  obtain ⟨t, _, hvalue⟩ := (mem_members flat.toList member.1 member.2).mp hmember
  rw [hvalue]
  exact Readable.string 126 t

theorem lists_members (flat : Table String) : Lists (members flat.toList) flat where
  rows k v := by
    simp only [mem_members, mem_rows flat.toList flat (List.Perm.refl _)]
  ascending := by
    rw [members, List.pairwise_map]
    exact flat.ordered_keys_toList

theorem presentable_of_outcome (around : Surroundings) (invocation : Invocation)
    (flat : Table String) (h : outcome around invocation = .ok flat) : Presentable flat := by
  obtain ⟨manifest, _, hflatten⟩ := (bind_eq_ok _ _ _).mp h
  exact presentable_of_flatten _ _ _ _ flat hflatten

theorem no_verdict_key (flat : Table String) (hflat : Presentable flat) (v : Json) :
    ("ok", v) ∉ members flat.toList := by
  intro hmember
  obtain ⟨t, hrow, _⟩ := ((lists_members flat).rows "ok" v).mp hmember
  exact absurd (hflat.subpath "ok" t hrow) (by decide)

theorem jsonLogs_setup (invocation : Invocation) (workingDirectory : Path) :
    (setup invocation workingDirectory).jsonLogs = invocation.json := rfl

theorem resolve_error (around : Surroundings) (invocation : Invocation) (e : Error)
    (hjson : invocation.json = true) (h : outcome around invocation = .error e) :
    resolve around invocation = (⟨1, (failure e).compact ++ "\n"⟩, around.disk) := by
  rw [outcome] at h
  unfold resolve
  simp [h, deliver, jsonLogs_setup, hjson]

theorem resolve_presented (around : Surroundings) (invocation : Invocation) (flat : Table String)
    (hjson : invocation.json = true) (hout : invocation.out? = none)
    (h : outcome around invocation = .ok flat) :
    resolve around invocation = (⟨0, document flat⟩, around.disk) := by
  rw [outcome] at h
  unfold resolve
  simp [h, deliver, jsonLogs_setup, hjson, hout]

theorem resolve_written (around : Surroundings) (invocation : Invocation) (flat : Table String)
    (path : Path) (h : outcome around invocation = .ok flat) :
    resolve around { invocation with out? := some path } =
      (afterWrite (around.disk.replace around.mark around.cwd
          ((setup invocation around.workingDirectory).locate path) (Text.bytes (document flat))).2,
        (around.disk.replace around.mark around.cwd
          ((setup invocation around.workingDirectory).locate path)
            (Text.bytes (document flat))).1) := by
  have hflat : outcome around { invocation with out? := some path } = .ok flat := h
  rw [outcome] at hflat
  unfold resolve
  simp only [hflat, deliver]
  rfl

theorem afterWrite_exit (result : Except Fault Unit) :
    (afterWrite result).exit = 0 ↔ result = .ok () := by
  cases result <;> simp [afterWrite]

/-- What a run presents tells its outcome. -/
theorem tells_of_resolve (around : Surroundings) (invocation : Invocation)
    (hjson : invocation.json = true) (hout : invocation.out? = none) :
    ∃ members, Tells (outcome around invocation) (resolve around invocation).1 members := by
  cases houtcome : outcome around invocation with
  | error e =>
    rw [resolve_error around invocation e hjson houtcome]
    exact ⟨_, reads_failure e, Or.inr rfl, by simp, fun _ => ⟨e, rfl, rfl⟩, by simp⟩
  | ok flat =>
    rw [resolve_presented around invocation flat hjson hout houtcome]
    have hflat := presentable_of_outcome around invocation flat houtcome
    exact ⟨_, reads_document flat, Or.inl rfl, by simp [no_verdict_key flat hflat], by simp,
      fun _ => ⟨flat, rfl, lists_members flat⟩⟩

/-- A file that a run has written holds what the run would have presented. -/
theorem written_of_exit (around : Surroundings) (invocation : Invocation) (path : Path)
    (hjson : invocation.json = true) (hout : invocation.out? = none)
    (hunlinked : Replace.Unlinked around.mark around.cwd around.disk
      ((setup invocation around.workingDirectory).locate path))
    (hexit : (resolve around { invocation with out? := some path }).1.exit = 0) :
    ∃ slot, around.disk.slot around.cwd
        ((setup invocation around.workingDirectory).locate path) = .ok slot ∧
      Disk.entry? (resolve around { invocation with out? := some path }).2 slot.place =
        some (.file (Text.bytes (resolve around invocation).1.output)) := by
  cases houtcome : outcome around invocation with
  | error e =>
    rw [resolve_error around { invocation with out? := some path } e hjson houtcome] at hexit
    simp at hexit
  | ok flat =>
    rw [resolve_written around invocation flat path houtcome] at hexit ⊢
    rw [resolve_presented around invocation flat hjson hout houtcome]
    dsimp only at hexit ⊢
    exact Replace.written_of_ok _ _ _ _ _ hunlinked ((afterWrite_exit _).mp hexit)

/-- The arguments of a run that puts its table out. -/
def printing : List Bytes := ["--json", "resolve"].map Text.bytes

/-- The arguments of a run that writes its table to a file. -/
def filing (path : String) : List Bytes := ["--json", "resolve", "--out", path].map Text.bytes

def home : Place := .ofTexts ["w"]

/-- A directory with nothing in it but a manifest. -/
def packaged (manifest : String) : Surroundings where
  disk := Disk.set (Disk.set {} home .directory) (.ofTexts ["w", "package.json"])
    (.file (Text.bytes manifest))
  cwd := home
  complaint := fun _ => "EOF while parsing a value at line 1 column 0"

example : (run (packaged "") printing).1 =
    ⟨1, "\x7b\"ok\":false,\"error\":\x7b\"code\":\"MANIFEST_PARSE_ERROR\",\"message\":" ++
      "\"Failed to parse manifest at /w/package.json: " ++
      "EOF while parsing a value at line 1 column 0\"\x7d\x7d\n"⟩ := by decide +kernel

/-- A package whose subpath has to be escaped. -/
def quotedPackage : Surroundings :=
  packaged "\x7b\"exports\":\x7b\"./\\\"\":\"./a\\n.js\"\x7d\x7d"

/-- A package beside whose destination a link to it has the name of the temporary file. -/
def linkedPackage : Surroundings :=
  let around := packaged "\x7b\"exports\":\"./a.js\"\x7d"
  { around with disk := around.disk.set (.ofTexts ["w", ".o.tmp.1"]) (.link (.ofText "o")) }

end EntryPoints.CommandLine
