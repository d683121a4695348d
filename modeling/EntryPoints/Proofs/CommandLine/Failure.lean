import EntryPoints.Proofs.CommandLine.Output

/-!
# Reports of failed runs

With JSON asked for, a run that fails to resolve says so in one object on one line. A run that has
resolved everything can still fail, when the file it was asked for cannot be written, and then it
puts out nothing. These are the only failures that go unreported.
-/

set_option autoImplicit false

namespace EntryPoints.CommandLine
open Json

/-- The line that tells machines of a failure. -/
def failureLine (code message : String) : String :=
  "\x7b\"ok\":false,\"error\":\x7b\"code\":" ++ String.ofList (quote code) ++ ",\"message\":" ++
    String.ofList (quote message) ++ "\x7d\x7d\n"

theorem write_failure (e : Error) : Layout.compact.write 0 (failure e) =
    '\x7b' :: quote "ok" ++ ':' :: "false".toList ++ ',' :: quote "error" ++ ':' :: '\x7b' ::
      quote "code" ++ ':' :: quote e.code ++ ',' :: quote "message" ++ ':' :: quote e.message ++
        ['\x7d', '\x7d'] := by
  simp only [failure, Layout.write, Layout.members, Layout.bracket, Layout.compact, List.map_cons,
    List.map_nil, List.intercalate_cons_cons, List.intercalate_singleton, List.append_assoc,
    List.cons_append, List.nil_append, List.append_nil, Bool.false_eq_true, if_false]

theorem compact_failure (e : Error) :
    (failure e).compact ++ "\n" = failureLine e.code e.message := by
  have hlead : "\x7b\"ok\":false,\"error\":\x7b\"code\":".toList =
      '\x7b' :: quote "ok" ++ ':' :: "false".toList ++ ',' :: quote "error" ++ ':' :: '\x7b' ::
        quote "code" ++ [':'] := by decide
  have hnext : ",\"message\":".toList = ',' :: quote "message" ++ [':'] := by decide
  have hend : "\x7d\x7d\n".toList = ['\x7d', '\x7d'] ++ "\n".toList := by decide
  apply String.toList_inj.1
  -- The definition is unfolded by name, as its equation takes long to be made.
  unfold failureLine
  simp only [compact, write_failure, String.toList_append, String.toList_ofList, hlead, hnext,
    hend, List.append_assoc, List.cons_append, List.nil_append]

theorem failureLine_ne_empty (code message : String) : failureLine code message ≠ "" := by
  unfold failureLine
  simp

/-- Everything is resolved, but the file asked for is not written. -/
def Unwritten (around : Surroundings) (invocation : Invocation) : Prop :=
  ∃ flat path fault, outcome around invocation = .ok flat ∧ invocation.out? = some path ∧
    (around.disk.replace around.mark around.cwd
      ((setup invocation around.workingDirectory).locate path)
      (Text.bytes (document flat))).2 = .error fault

variable (around : Surroundings) (invocation : Invocation)

theorem run_resolve (arguments : List Bytes)
    (hparse : parse around.conditions? arguments = .ok invocation)
    (hcommand : invocation.command = .resolve) :
    run around arguments = resolve around invocation := by
  rw [run, hparse]
  simp only [hcommand]

theorem resolve_to (flat : Table String) (path : Path) (hout : invocation.out? = some path)
    (h : outcome around invocation = .ok flat) : (resolve around invocation).1 =
      afterWrite (around.disk.replace around.mark around.cwd
        ((setup invocation around.workingDirectory).locate path)
        (Text.bytes (document flat))).2 := by
  have hsame : { invocation with out? := some path } = invocation := by rw [← hout]
  have hwritten := resolve_written around invocation flat path h
  rw [hsame] at hwritten
  rw [hwritten]

/-- A failed run has met an error, which it reports, or an obstacle to writing, which it does
not. -/
theorem resolve_failed (hjson : invocation.json = true)
    (hexit : (resolve around invocation).1.exit = 1) :
    (∃ e, outcome around invocation = .error e ∧
      (resolve around invocation).1.output = failureLine e.code e.message) ∨
    (Unwritten around invocation ∧ (resolve around invocation).1.output = "") := by
  cases houtcome : outcome around invocation with
  | error e =>
    rw [resolve_error around invocation e hjson houtcome]
    exact Or.inl ⟨e, rfl, compact_failure e⟩
  | ok flat =>
    cases hout : invocation.out? with
    | none =>
      rw [resolve_presented around invocation flat hjson hout houtcome] at hexit
      simp at hexit
    | some path =>
      have hreport := resolve_to around invocation flat path hout houtcome
      rw [hreport] at hexit ⊢
      cases hresult : (around.disk.replace around.mark around.cwd
          ((setup invocation around.workingDirectory).locate path)
          (Text.bytes (document flat))).2 with
      | ok done => simp [hresult, afterWrite] at hexit
      | error fault => exact Or.inr ⟨⟨flat, path, fault, houtcome, hout, hresult⟩, rfl⟩

/-- With JSON asked for, a failed run puts out an object that tells of a failure unless it was the
file that could not be written, and an error of the resolution is told as it is. -/
theorem failure_reported_iff (arguments : List Bytes)
    (hparse : parse around.conditions? arguments = .ok invocation)
    (hcommand : invocation.command = .resolve) (hjson : invocation.json = true)
    (hexit : (run around arguments).1.exit = 1) :
    ((∃ code message, (run around arguments).1.output = failureLine code message) ↔
      ¬Unwritten around invocation) ∧
    ∀ e, outcome around invocation = .error e →
      (run around arguments).1.output = failureLine e.code e.message := by
  rw [run_resolve around invocation arguments hparse hcommand] at hexit ⊢
  rcases resolve_failed around invocation hjson hexit with ⟨e, he, hline⟩ | ⟨hunwritten, hempty⟩
  · refine ⟨iff_of_true ⟨_, _, hline⟩ ?_, fun other hother => ?_⟩
    · rintro ⟨flat, _, _, hflat, _⟩
      simp [he] at hflat
    · rw [he, Except.error.injEq] at hother
      rw [← hother, hline]
  · refine ⟨iff_of_false ?_ (not_not_intro hunwritten), fun e he => ?_⟩
    · rintro ⟨code, message, hline⟩
      exact failureLine_ne_empty code message (hline.symm.trans hempty)
    · obtain ⟨flat, _, _, hflat, _⟩ := hunwritten
      simp [he] at hflat

/-- An invocation that asks for a file. -/
def filed (path : String) : Invocation :=
  { command := .resolve, json := true, out? := some (.ofText path) }

/-- A manifest that exports nothing: there is no table to write to the file. -/
theorem failure_reported_undefined :
    let report := (run (packaged "\x7b\x7d") (filing "o.json")).1
    report = ⟨1, "\x7b\"ok\":false,\"error\":\x7b\"code\":\"UNDEFINED_EXPORTS\",\"message\":" ++
        "\"exports field is undefined\"\x7d\x7d\n"⟩ ∧
      ∃ code message, report.output = failureLine code message := by
  have hreport : (run (packaged "\x7b\x7d") (filing "o.json")).1 =
      ⟨1, "\x7b\"ok\":false,\"error\":\x7b\"code\":\"UNDEFINED_EXPORTS\",\"message\":" ++
        "\"exports field is undefined\"\x7d\x7d\n"⟩ := by decide +kernel
  have hparse : parse none (filing "o.json") = .ok (filed "o.json") := by decide +kernel
  have hfailed : (outcome (packaged "\x7b\x7d") (filed "o.json")).toOption.isSome = false := by
    decide +kernel
  refine ⟨hreport, (failure_reported_iff (packaged "\x7b\x7d") (filed "o.json") _ hparse rfl rfl
    (congrArg Report.exit hreport)).1.mpr ?_⟩
  rintro ⟨flat, _, _, hflat, _⟩
  rw [hflat] at hfailed
  exact absurd hfailed (by simp [Except.toOption])

/-- The file is to stand in a directory that is not there. -/
theorem unwritable_unreported :
    ¬∀ (around : Surroundings) (invocation : Invocation) (arguments : List Bytes),
      parse around.conditions? arguments = .ok invocation → invocation.command = .resolve →
      invocation.json = true → (run around arguments).1.exit = 1 →
      ∃ code message, (run around arguments).1.output = failureLine code message := by
  intro hreported
  have hparse : parse none (filing "missing/o.json") = .ok (filed "missing/o.json") := by
    decide +kernel
  have hreport : (run (packaged "\x7b\"exports\":\"./a.js\"\x7d")
      (filing "missing/o.json")).1 = ⟨1, ""⟩ := by decide +kernel
  obtain ⟨code, message, hline⟩ := hreported (packaged "\x7b\"exports\":\"./a.js\"\x7d")
    (filed "missing/o.json") _ hparse rfl rfl (congrArg Report.exit hreport)
  rw [hreport] at hline
  exact failureLine_ne_empty code message hline.symm

end EntryPoints.CommandLine
