import Typography.Proofs.CommandLine.Steps

/-!
# All ways in agree

A stylesheet may come as a text without a name, as a text with one, as a file, on the standard
input of the program, or as its input file. `CommandLine.entries_agree` says that it comes out
the same, and that an error is the same but for the file that it names.

What a run of the program comes to is said for one run, `CommandLine.Ends`: in the end the text
that the stylesheet is processed to has been written, with a line break behind it, or there is an
error that says why not. Of two runs, one that reads the standard input and one that reads a file,
each step is compared with its counterpart, on workspaces with the same files and the same output.
-/

namespace Typography

/-- The same files, and the same has been written to the standard output. -/
structure Workspace.Alike (w₁ w₂ : Workspace) : Prop where
  files_eq : w₁.files = w₂.files
  output_eq : w₁.output = w₂.output

/-- On workspaces that are alike, the step answers the same and leaves them alike. -/
def Respects {α : Type} (step : StateM Workspace α) : Prop :=
  ∀ w₁ w₂ : Workspace, w₁.Alike w₂ →
    (step.run w₁).1 = (step.run w₂).1 ∧ (step.run w₁).2.Alike (step.run w₂).2

section

variable {α β : Type}

theorem respects_pure (a : α) : Respects (pure a) := fun _ _ h => ⟨rfl, h⟩

theorem Respects.bind {step : StateM Workspace α} {next : α → StateM Workspace β}
    (hstep : Respects step) (hnext : ∀ a, Respects (next a)) : Respects (step >>= next) := by
  intro w₁ w₂ h
  obtain ⟨hanswer, hleft⟩ := hstep w₁ w₂ h
  have hrun : ∀ w, (step >>= next).run w = (next (step.run w).1).run (step.run w).2 :=
    fun w => run_bind_of rfl
  rw [hrun, hrun, hanswer]
  exact hnext _ _ _ hleft

end

namespace Workspace

theorem respects_readFile (path : String) : Respects (host.readFile path) := by
  intro w₁ w₂ h
  rw [readFile_run, readFile_run, h.files_eq]
  exact ⟨rfl, h⟩

theorem respects_writeFile (path text : String) : Respects (host.writeFile path text) := by
  intro w₁ w₂ h
  rw [writeFile_run, writeFile_run, h.files_eq]
  cases w₂.files.write path text.toUTF8 with
  | error cause => exact ⟨rfl, h⟩
  | ok files => exact ⟨rfl, rfl, h.output_eq⟩

theorem respects_writeOutput (text : String) : Respects (host.writeOutput text) :=
  fun _ _ h => ⟨rfl, h.files_eq, congrArg (· ++ text) h.output_eq⟩

end Workspace

namespace CommandLine

theorem respects_effectiveOptions (s : Settings) :
    Respects (effectiveOptions Workspace.host s) := by
  have hload : ∀ path, Respects (loadOptions Workspace.host path) := fun path => by
    refine (Workspace.respects_readFile path).bind fun answer => ?_
    split
    · exact respects_pure _
    · split <;> exact respects_pure _
  unfold effectiveOptions
  cases s.config with
  | none => exact (respects_pure _).bind fun _ => respects_pure _
  | some path => exact (hload path).bind fun _ => respects_pure _

theorem respects_writeResult (s : Settings) (text : String) :
    Respects (writeResult Workspace.host s text) := by
  unfold writeResult
  cases s.output with
  | none => exact (Workspace.respects_writeOutput _).bind fun _ => respects_pure _
  | some path => exact (Workspace.respects_writeFile path _).bind fun _ => respects_pure _

theorem effectiveOptions_of_configured {s : Settings} {w : Workspace} {configured : Options}
    (h : Configured w s configured) : (effectiveOptions Workspace.host s).run w =
      (.ok ⟨s.rootSize.or configured.rootSize⟩, w) := by
  unfold Configured at h
  cases hconfig : s.config with
  | none =>
    rw [hconfig] at h
    rw [show configured = .unset from h]
    exact effectiveOptions_of_none hconfig w
  | some path =>
    rw [hconfig] at h
    obtain ⟨text, hfile, htext⟩ := h
    exact effectiveOptions_of_loaded hconfig
      (loadOptions_of_read (Workspace.readFile_of_read w hfile) htext)

/-- The options are found without a change of the workspace, and there are none only if the
configuration file does not hold a text of options. -/
theorem effectiveOptions_run (s : Settings) (w : Workspace) :
    (∃ cause, (effectiveOptions Workspace.host s).run w = (.error cause, w) ∧
      ∀ configured, ¬Configured w s configured) ∨
      ∃ configured, Configured w s configured ∧ (effectiveOptions Workspace.host s).run w =
        (.ok ⟨s.rootSize.or configured.rootSize⟩, w) := by
  rcases effectiveOptions_cases Workspace.isFaithful_host w s with ⟨cause, hrun⟩ | hfound
  · refine .inl ⟨cause, hrun, fun configured hconfigured => ?_⟩
    cases hrun.symm.trans (effectiveOptions_of_configured hconfigured)
  · exact .inr hfound

/-- How a run ends that reads a stylesheet under a name, and what it leaves behind. There are no
options to process it under; or it is processed, and comes to an error or to a text, which is
written with a line break behind it unless its file cannot be written. -/
inductive Ends (s : Settings) (name css : String) (w w' : Workspace) : Outcome → Prop
  | unconfigured {cause : PipelineError} :
    (∀ configured, ¬Configured w s configured) → w.Alike w' →
      Ends s name css w w' (.failed (.pipeline cause))
  | faulty {configured : Options} {cause : ExpansionError} :
    Configured w s configured →
      (Processed.ofText none css ⟨s.rootSize.or configured.rootSize⟩).output = .error cause →
      w.Alike w' →
      Ends s name css w w' (.failed (.pipeline (.expansion (cause.inFile (some name)))))
  | unwritten {configured : Options} {text path : String} {cause : FileError} :
    Configured w s configured →
      (Processed.ofText none css ⟨s.rootSize.or configured.rootSize⟩).output = .ok text →
      s.output = some path → w.files.write path (text ++ "\n").toUTF8 = .error cause →
      w.Alike w' → Ends s name css w w' (.failed (.writeFile path cause))
  | written {configured : Options} {text : String} :
    Configured w s configured →
      (Processed.ofText none css ⟨s.rootSize.or configured.rootSize⟩).output = .ok text →
      Received s text w w' → Ends s name css w w' .done

section

variable {s : Settings} {name css text : String} {w w₀ : Workspace}

/-- On a workspace that is alike, the options are the same. -/
theorem effectiveOptions_run_of_alike (halike : w.Alike w₀)
    {answer : Except PipelineError Options}
    (h : (effectiveOptions Workspace.host s).run w₀ = (answer, w₀)) :
    (effectiveOptions Workspace.host s).run w = (answer, w) := by
  have hsame := (respects_effectiveOptions s _ _ halike).1
  rw [h] at hsame
  rcases effectiveOptions_run s w with ⟨cause, hrun, -⟩ | ⟨configured, -, hrun⟩
  all_goals
    rw [hrun] at hsame ⊢
    rw [← show _ = answer from hsame]

/-- A run that has come to writing its text ends, from a workspace that is alike. -/
theorem ends_writeResult {configured : Options} (hconfigured : Configured w s configured)
    (htext : (Processed.ofText none css ⟨s.rootSize.or configured.rootSize⟩).output = .ok text)
    (halike : w.Alike w₀) :
    Ends s name css w ((writeResult Workspace.host s text).run w₀).2
      (.ofWritten ((writeResult Workspace.host s text).run w₀).1) := by
  cases houtput : s.output with
  | none =>
    have hrun : (writeResult Workspace.host s text).run w₀ =
        (.ok (), { w₀ with output := w₀.output ++ (text ++ "\n") }) := by
      rw [writeResult, houtput]
      exact run_bind_of (Workspace.writeOutput_run w₀ _)
    rw [hrun]
    refine .written hconfigured htext ?_
    rw [Received, houtput]
    exact ⟨halike.files_eq.symm, by rw [halike.output_eq]⟩
  | some path =>
    have hrun := Workspace.writeFile_run w₀ path (text ++ "\n")
    have hwrite : (writeResult Workspace.host s text).run w₀ =
        ((((Workspace.host.writeFile path (text ++ "\n")).run w₀).1).mapError (.writeFile path),
          ((Workspace.host.writeFile path (text ++ "\n")).run w₀).2) := by
      rw [writeResult, houtput]
      exact run_bind_of rfl
    rw [hwrite, hrun]
    cases hfiles : w₀.files.write path (text ++ "\n").toUTF8 with
    | error cause =>
      exact .unwritten hconfigured htext houtput (by rw [halike.files_eq, hfiles]) halike
    | ok files =>
      refine .written hconfigured htext ?_
      rw [Received, houtput, halike.files_eq]
      exact ⟨Files.wrote_of_write hfiles, halike.output_eq.symm⟩

end

/-- A stylesheet that can be processed is processed and printed, if no output file is given. -/
theorem Ends.printed {s : Settings} {name css text : String} {w w' : Workspace} {o : Outcome}
    {configured : Options} (h : Ends s name css w w' o) (hconfigured : Configured w s configured)
    (htext : (Processed.ofText none css ⟨s.rootSize.or configured.rootSize⟩).output = .ok text)
    (hprinted : s.output = none) :
    o = .done ∧ w'.files = w.files ∧ w'.output = w.output ++ (text ++ "\n") := by
  cases h with
  | unconfigured hnone => exact absurd hconfigured (hnone configured)
  | faulty hconfigured' hcause =>
    obtain rfl := hconfigured'.unique hconfigured
    cases hcause.symm.trans htext
  | unwritten _ _ hpath => cases hpath.symm.trans hprinted
  | written hconfigured' htext' hreceived =>
    obtain rfl := hconfigured'.unique hconfigured
    cases htext'.symm.trans htext
    rw [Received, hprinted] at hreceived
    exact ⟨rfl, hreceived⟩

/-- The two ends are the same, or the same error told of two files. -/
def Outcome.SameBut (name other : String) (o o' : Outcome) : Prop :=
  o = o' ∨ ∃ cause : ExpansionError,
    o = .failed (.pipeline (.expansion (cause.inFile (some name)))) ∧
      o' = .failed (.pipeline (.expansion (cause.inFile (some other))))

/-- A run that reads a stylesheet from the standard input and one that reads it from a file. -/
theorem runWith_agree {css path : String} {s : Settings} (hinput : s.input = none) {w : Workspace}
    (hfile : w.files.read path = .ok css.toUTF8) :
    ∃ o o' w₁ w₂,
      (runWith Workspace.host s).run { w with input := css.toUTF8 } = (o, w₁) ∧
      (runWith Workspace.host { s with input := some path }).run w = (o', w₂) ∧
      Ends s inputName css { w with input := css.toUTF8 } w₁ o ∧ Ends s path css w w₂ o' ∧
      o.SameBut inputName path o' ∧ w₁.Alike w₂ := by
  have halike : ({ w with input := css.toUTF8 } : Workspace).Alike w := ⟨rfl, rfl⟩
  rcases effectiveOptions_run s w with ⟨cause, hrun, hnone⟩ | ⟨configured, hconfigured, hrun⟩
  · have hpiped := effectiveOptions_run_of_alike halike hrun
    have hnamed : (effectiveOptions Workspace.host { s with input := some path }).run w = _ := hrun
    exact ⟨_, _, _, _, runWith_of_refused hpiped, runWith_of_refused hnamed,
      .unconfigured hnone ⟨rfl, rfl⟩, .unconfigured hnone ⟨rfl, rfl⟩, .inl rfl, halike⟩
  · have hpiped := effectiveOptions_run_of_alike halike hrun
    have hnamed : (effectiveOptions Workspace.host { s with input := some path }).run w = _ := hrun
    obtain ⟨events, htext⟩ := processInput_of_text hinput
      (Workspace.readInput_of_eq { w with input := css.toUTF8 } rfl)
      ⟨s.rootSize.or configured.rootSize⟩
    obtain ⟨events', hfileText⟩ := processInput_of_file (s := { s with input := some path }) rfl
      (Workspace.readFile_of_read w hfile) ⟨s.rootSize.or configured.rootSize⟩
    obtain ⟨notes, hnotes⟩ := Workspace.isFaithful_host.notes_run
      { w with input := css.toUTF8 } (events.filter (isNoted s.isVerbose))
    obtain ⟨notes', hnotes'⟩ := Workspace.isFaithful_host.notes_run
      w (events'.filter (isNoted s.isVerbose))
    cases houtput : (Processed.ofText none css ⟨s.rootSize.or configured.rootSize⟩).output with
    | error cause =>
      rw [houtput] at htext hfileText
      exact ⟨_, _, _, _, runWith_of_failed hpiped hnotes htext,
        runWith_of_failed hnamed hnotes' hfileText, .faulty hconfigured houtput ⟨rfl, rfl⟩,
        .faulty hconfigured houtput ⟨rfl, rfl⟩, .inr ⟨cause, rfl, rfl⟩, rfl, rfl⟩
    | ok text =>
      rw [houtput] at htext hfileText
      have hwrite := respects_writeResult s text
        { w with input := css.toUTF8, notes := notes } { w with notes := notes' } ⟨rfl, rfl⟩
      exact ⟨_, _, _, _, runWith_of_written hpiped hnotes htext rfl,
        runWith_of_written hnamed hnotes' hfileText rfl,
        ends_writeResult hconfigured houtput ⟨rfl, rfl⟩,
        ends_writeResult hconfigured houtput ⟨rfl, rfl⟩,
        .inl (congrArg Outcome.ofWritten hwrite.1), hwrite.2⟩

theorem Outcome.SameBut.exitCode_eq {name other : String} {o o' : Outcome}
    (h : o.SameBut name other o') : o.exitCode = o'.exitCode := by
  rcases h with rfl | ⟨cause, rfl, rfl⟩ <;> rfl

/-- A stylesheet that is processed as it is, under a name or as a file comes to the same text or to
the same error, told of another file. A run of the program on the standard input and one on the
file, which differ in nothing else, both process the stylesheet and write its text with a line
break behind it, or end with the error that keeps them from it. They end in the same way and leave
the same files and the same output. -/
theorem entries_agree {css path : String} {w : Workspace}
    (hfile : w.files.read path = .ok css.toUTF8) :
    (∀ (options : Options) (file : String),
      (∃ text events, (Processed.ofText none css options).output = .ok text ∧
        (Processed.ofText (some file) css options).output = .ok text ∧
        (processFile Workspace.host path options).run w = ((.ok text, events), w)) ∨
      ∃ cause events, (Processed.ofText none css options).output = .error cause ∧
        (Processed.ofText (some file) css options).output = .error (cause.inFile (some file)) ∧
        (processFile Workspace.host path options).run w =
          ((.error (.expansion (cause.inFile (some path))), events), w)) ∧
    ∀ (piped named : List String) (s : Settings), Settings.ofArguments piped = .ok s →
      s.input = none → Settings.ofArguments named = .ok { s with input := some path } →
      ∃ o o' w₁ w₂, (run Workspace.host piped).run { w with input := css.toUTF8 } = (o, w₁) ∧
        (run Workspace.host named).run w = (o', w₂) ∧
        Ends s inputName css { w with input := css.toUTF8 } w₁ o ∧ Ends s path css w w₂ o' ∧
        o.SameBut inputName path o' ∧ o.exitCode = o'.exitCode ∧
        w₁.files = w₂.files ∧ w₁.output = w₂.output := by
  refine ⟨fun options file => ?_, fun piped named s hpiped hinput hnamed => ?_⟩
  · obtain ⟨events, hprocess⟩ := processFile_run (Workspace.readFile_of_read w hfile) options
    have hnameless := Processed.output_ofText (some file) css options
    rw [Processed.output_ofText] at hprocess
    cases houtput : (Processed.ofText none css options).output with
    | ok text =>
      rw [houtput] at hprocess hnameless
      exact .inl ⟨text, events, rfl, hnameless, hprocess⟩
    | error cause =>
      rw [houtput] at hprocess hnameless
      exact .inr ⟨cause, events, rfl, hnameless, hprocess⟩
  · obtain ⟨o, o', w₁, w₂, hend, hend', hends, hends', hsame, hfiles, houtput⟩ :=
      runWith_agree hinput hfile
    refine ⟨o, o', w₁, w₂, ?_, ?_, hends, hends', hsame, hsame.exitCode_eq, hfiles, houtput⟩
    · rw [run, hpiped]
      exact hend
    · rw [run, hnamed]
      exact hend'

/-- A workspace with a stylesheet and one that lacks a font size. -/
def ofTwoSheets : Workspace :=
  ⟨(Files.empty.put ["a.css"] (.file "a \x7b type: 32px \x7d".toUTF8)).put ["b.css"]
    (.file "a \x7b\x7d\n@type;".toUTF8), ByteArray.empty, "", []⟩

theorem entries_agree_ofTwoSheets :
    (ofTwoSheets.files.read "b.css" = .ok "a \x7b\x7d\n@type;".toUTF8 ∧
      Settings.ofArguments ["-v"] = .ok { Settings.unset with isVerbose := true } ∧
      (Processed.ofText (some "c.css") "a \x7b\x7d\n@type;" .unset).output =
        .error (.missingFontSize (some ⟨some "c.css", ⟨2, 1⟩⟩)) ∧
      ∃ o o' w₁ w₂,
        (run Workspace.host ["-v"]).run
          { ofTwoSheets with input := "a \x7b\x7d\n@type;".toUTF8 } = (o, w₁) ∧
        (run Workspace.host ["b.css", "-v"]).run ofTwoSheets = (o', w₂) ∧
        o.exitCode = o'.exitCode ∧ w₁.output = w₂.output) ∧
    ofTwoSheets.files.read "a.css" = .ok "a \x7b type: 32px \x7d".toUTF8 ∧
      Settings.ofArguments ["--root-size=16px"] =
        .ok { Settings.unset with rootSize := some "16px" } ∧
      (Processed.ofText none "a \x7b type: 32px \x7d" ⟨some "16px"⟩).output =
        .ok "a \x7b\n    font-size: 2rem\n\x7d" ∧
      ∃ w₁ w₂,
        (run Workspace.host ["--root-size=16px"]).run
          { ofTwoSheets with input := "a \x7b type: 32px \x7d".toUTF8 } = (.done, w₁) ∧
        (run Workspace.host ["a.css", "--root-size=16px"]).run ofTwoSheets = (.done, w₂) ∧
        w₁.output = "a \x7b\n    font-size: 2rem\n\x7d\n" ∧
        w₂.output = "a \x7b\n    font-size: 2rem\n\x7d\n" := by
  refine ⟨?_, ?_⟩
  · have hfile : ofTwoSheets.files.read "b.css" = .ok "a \x7b\x7d\n@type;".toUTF8 := by
      decide +kernel
    have hpiped : Settings.ofArguments ["-v"] = .ok { Settings.unset with isVerbose := true } := by
      decide +kernel
    have hnamed : Settings.ofArguments ["b.css", "-v"] =
        .ok { Settings.unset with isVerbose := true, input := some "b.css" } := by
      decide +kernel
    have hnameless : (Processed.ofText none "a \x7b\x7d\n@type;" .unset).output =
        .error (.missingFontSize (some ⟨none, ⟨2, 1⟩⟩)) := by
      decide +kernel
    obtain ⟨htexts, hruns⟩ := entries_agree hfile
    refine ⟨hfile, hpiped, ?_, ?_⟩
    · rcases htexts .unset "c.css" with ⟨text, -, htext, -⟩ | ⟨cause, -, hcause, htold, -⟩
      · cases htext.symm.trans hnameless
      · obtain rfl := Except.error.inj (hcause.symm.trans hnameless)
        exact htold
    · obtain ⟨o, o', w₁, w₂, hend, hend', -, -, -, hcode, -, houtput⟩ :=
        hruns ["-v"] ["b.css", "-v"] _ hpiped rfl hnamed
      exact ⟨o, o', w₁, w₂, hend, hend', hcode, houtput⟩
  · have hfile : ofTwoSheets.files.read "a.css" = .ok "a \x7b type: 32px \x7d".toUTF8 := by
      decide +kernel
    have hpiped : Settings.ofArguments ["--root-size=16px"] =
        .ok { Settings.unset with rootSize := some "16px" } := by
      decide +kernel
    have hnamed : Settings.ofArguments ["a.css", "--root-size=16px"] =
        .ok { Settings.unset with rootSize := some "16px", input := some "a.css" } := by
      decide +kernel
    have htext : (Processed.ofText none "a \x7b type: 32px \x7d" ⟨some "16px"⟩).output =
        .ok "a \x7b\n    font-size: 2rem\n\x7d" := by
      decide +kernel
    obtain ⟨o, o', w₁, w₂, hend, hend', hends, hends', -⟩ :=
      (entries_agree hfile).2 ["--root-size=16px"] ["a.css", "--root-size=16px"] _ hpiped rfl
        hnamed
    obtain ⟨rfl, -, hprinted⟩ := hends.printed (show Configured _ _ .unset from rfl) htext rfl
    obtain ⟨rfl, -, hprinted'⟩ := hends'.printed (show Configured _ _ .unset from rfl) htext rfl
    exact ⟨hfile, hpiped, htext, w₁, w₂, hend, hend', hprinted, hprinted'⟩

end CommandLine

end Typography
