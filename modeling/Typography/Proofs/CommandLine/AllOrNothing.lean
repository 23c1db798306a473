import Typography.Proofs.CommandLine.Steps

/-!
# All or nothing

A run that fails has changed no file and has written nothing to the standard output, and one
that ends well has put the processed stylesheet where it was asked for and has touched nothing
else: `CommandLine.run_allOrNothing`. Every path is looked at in the workspace as it was at the
start, since the only write comes last; so it does not matter whether some of them lead to
the same file.
-/

namespace Typography.CommandLine

variable {host : Host (StateM Workspace)}

/-- What a run with settings comes to. -/
theorem runWith_cases (h : host.IsFaithful) (s : Settings) (w : Workspace) :
    (∃ cause w', (runWith host s).run w = (.failed cause, w') ∧
        w'.files = w.files ∧ w'.output = w.output) ∨
      ∃ w' configured css text, (runWith host s).run w = (.done, w') ∧
        Configured w s configured ∧ Supplied w s css ∧
        (Processed.ofText none css ⟨s.rootSize.or configured.rootSize⟩).output = .ok text ∧
        Received s text w w' := by
  rcases effectiveOptions_cases h w s with ⟨cause, hrefused⟩ | ⟨configured, hconfig, hoptions⟩
  · exact .inl ⟨_, w, runWith_of_refused hrefused, rfl, rfl⟩
  · rcases processInput_cases h w s ⟨s.rootSize.or configured.rootSize⟩ with
      ⟨cause, events, hfailed⟩ | ⟨css, text, events, hsupplied, houtput, hinput⟩
    · obtain ⟨notes, hnotes⟩ := h.notes_run w (events.filter (isNoted s.isVerbose))
      exact .inl ⟨cause, _, runWith_of_failed hoptions hnotes hfailed, rfl, rfl⟩
    · obtain ⟨notes, hnotes⟩ := h.notes_run w (events.filter (isNoted s.isVerbose))
      rcases writeResult_cases h { w with notes } s text with ⟨cause, hwrite⟩ | ⟨w', hreceived, hwrite⟩
      · exact .inl ⟨cause, _, runWith_of_written hoptions hnotes hinput hwrite, rfl, rfl⟩
      · exact .inr ⟨w', configured, css, text, runWith_of_written hoptions hnotes hinput hwrite,
          hconfig, hsupplied, houtput, hreceived⟩

/-- A run that ends with code one has changed no file and has written nothing to the standard
output. One that ends with code zero has found its options and its stylesheet in the workspace
as it was, and the processed text with a line break behind it is all that it has written. No run
ends otherwise. -/
theorem run_allOrNothing (h : host.IsFaithful) {arguments : List String} {s : Settings}
    (hs : Settings.ofArguments arguments = .ok s) (w : Workspace) :
    ∃ outcome w', (run host arguments).run w = (outcome, w') ∧
      (outcome.exitCode = 1 ∧ w'.files = w.files ∧ w'.output = w.output ∨
        outcome.exitCode = 0 ∧ ∃ configured css text,
          Configured w s configured ∧ Supplied w s css ∧
          (Processed.ofText none css ⟨s.rootSize.or configured.rootSize⟩).output = .ok text ∧
          Received s text w w') := by
  have hrun : run host arguments = runWith host s := by rw [run, hs]
  rw [hrun]
  rcases runWith_cases h s w with ⟨cause, w', hend, hfiles, houtput⟩ |
    ⟨w', configured, css, text, hend, hrest⟩
  · exact ⟨_, w', hend, .inl ⟨rfl, hfiles, houtput⟩⟩
  · exact ⟨_, w', hend, .inr ⟨rfl, configured, css, text, hrest⟩⟩

/-- A workspace with a stylesheet and a configuration file. -/
def ofConfiguredSheet : Workspace :=
  ⟨(Files.empty.put ["a.css"] (.file "a \x7b type: 16px \x7d".toUTF8)).put ["c.toml"]
    (.file "rootSize = \"16px\"".toUTF8), ByteArray.empty, "", []⟩

/-- The stylesheet is written over itself, by another path, and the root size that is configured is
taken back. Without another one, the configured root size is used. -/
theorem run_allOrNothing_ofConfiguredSheet :
    (Settings.ofArguments ["a.css", "-o", "./a.css", "-c", "c.toml", "--root-size="] =
        .ok ⟨some "a.css", some "./a.css", some "c.toml", some "", false⟩ ∧
      ∃ w', (run Workspace.host
          ["a.css", "-o", "./a.css", "-c", "c.toml", "--root-size="]).run ofConfiguredSheet =
        (.done, w') ∧ w'.output = "" ∧ ∃ css text,
          (Processed.ofText none css ⟨some ""⟩).output = .ok text ∧
          w'.files.read "./a.css" = .ok (text ++ "\n").toUTF8) ∧
    Settings.ofArguments ["a.css", "-c", "c.toml"] =
        .ok ⟨some "a.css", none, some "c.toml", none, false⟩ ∧
      ∃ w', (run Workspace.host ["a.css", "-c", "c.toml"]).run ofConfiguredSheet = (.done, w') ∧
        w'.files = ofConfiguredSheet.files ∧
        w'.output = "a \x7b\n    font-size: 1rem\n\x7d\n" ∧ ∃ css text,
          (Processed.ofText none css ⟨some "16px"⟩).output = .ok text ∧
          w'.output = text ++ "\n" := by
  refine ⟨?_, ?_⟩
  · have hs : Settings.ofArguments ["a.css", "-o", "./a.css", "-c", "c.toml", "--root-size="] =
        .ok ⟨some "a.css", some "./a.css", some "c.toml", some "", false⟩ := by
      decide +kernel
    have hdone : ((run Workspace.host
        ["a.css", "-o", "./a.css", "-c", "c.toml", "--root-size="]).run ofConfiguredSheet).1 =
          .done := by
      decide +kernel
    obtain ⟨outcome, w', hend, hcases⟩ :=
      run_allOrNothing Workspace.isFaithful_host hs ofConfiguredSheet
    rw [hend] at hdone
    obtain rfl : outcome = .done := hdone
    refine ⟨hs, w', hend, ?_⟩
    rcases hcases with ⟨hcode, -⟩ | ⟨-, configured, css, text, -, -, htext, hwrote, houtput⟩
    · cases hcode
    · exact ⟨houtput, css, text, htext, hwrote.read_eq⟩
  · have hs : Settings.ofArguments ["a.css", "-c", "c.toml"] =
        .ok ⟨some "a.css", none, some "c.toml", none, false⟩ := by
      decide +kernel
    have hend' : ((run Workspace.host ["a.css", "-c", "c.toml"]).run ofConfiguredSheet).1 =
          .done ∧
        ((run Workspace.host ["a.css", "-c", "c.toml"]).run ofConfiguredSheet).2.output =
          "a \x7b\n    font-size: 1rem\n\x7d\n" := by
      decide +kernel
    have hsize : Configured ofConfiguredSheet ⟨some "a.css", none, some "c.toml", none, false⟩
        ⟨some "16px"⟩ :=
      ⟨"rootSize = \"16px\"", by decide +kernel,
        Options.Toml.decode?_eq_some_iff.mp (by decide +kernel)⟩
    obtain ⟨outcome, w', hend, hcases⟩ :=
      run_allOrNothing Workspace.isFaithful_host hs ofConfiguredSheet
    rw [hend] at hend'
    obtain ⟨hdone, hprinted⟩ := hend'
    obtain rfl : outcome = .done := hdone
    refine ⟨hs, w', hend, ?_⟩
    rcases hcases with ⟨hcode, -⟩ | ⟨-, configured, css, text, hconfigured, -, htext, hreceived⟩
    · cases hcode
    · obtain rfl := hconfigured.unique hsize
      obtain ⟨hfiles, houtput⟩ := hreceived
      exact ⟨hfiles, hprinted, css, text, htext, houtput.trans String.empty_append⟩

end Typography.CommandLine
