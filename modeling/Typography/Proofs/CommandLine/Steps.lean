import Typography.CommandLine.Run
import Typography.Proofs.Options.Toml
import Typography.Proofs.Pipeline.Entry

/-!
# The steps of a run

A host is faithful if each of its operations does what the workspace does, or is refused
without an effect; so a write is done completely or not at all. On a faithful host each step
of a run before the last one only reads, and the last one is refused or writes one file or to
the standard output. What the steps find is named here: the options that are `Configured`, the
stylesheet that is `Supplied`, and the text that is `Received`.
-/

namespace Typography

/-- The step answers with an error, and nothing has happened. -/
def IsRefused {ε α : Type} (step : StateM Workspace (Except ε α)) (w : Workspace) : Prop :=
  ∃ cause, step.run w = (.error cause, w)

/-- Each operation does what the workspace does, or is refused without an effect. -/
structure Host.IsFaithful (host : Host (StateM Workspace)) : Prop where
  readFile : ∀ path w, IsRefused (host.readFile path) w ∨
    (host.readFile path).run w = (Workspace.host.readFile path).run w
  writeFile : ∀ path text w, IsRefused (host.writeFile path text) w ∨
    (host.writeFile path text).run w = (Workspace.host.writeFile path text).run w
  readInput : ∀ w, IsRefused host.readInput w ∨
    host.readInput.run w = Workspace.host.readInput.run w
  writeOutput : ∀ text w, IsRefused (host.writeOutput text) w ∨
    (host.writeOutput text).run w = (Workspace.host.writeOutput text).run w
  note : ∀ line w, ∃ notes, (host.note line).run w = ((), { w with notes })

theorem Workspace.isFaithful_host : Workspace.host.IsFaithful where
  readFile _ _ := .inr rfl
  writeFile _ _ _ := .inr rfl
  readInput _ := .inr rfl
  writeOutput _ _ := .inr rfl
  note _ _ := ⟨_, rfl⟩

namespace Workspace

variable (w : Workspace)

theorem readFile_run (path : String) :
    (host.readFile path).run w = (w.files.read path >>= decodeText, w) := rfl

theorem readFile_of_read {path text : String} (h : w.files.read path = .ok text.toUTF8) :
    (host.readFile path).run w = (.ok text, w) := by
  have hdecode := decodeText_eq_ok_iff.mpr (Eq.refl text.toUTF8)
  rw [readFile_run, h, ← hdecode]
  rfl

theorem readInput_run : host.readInput.run w = (decodeText w.input, w) := rfl

theorem readInput_of_eq {text : String} (h : w.input = text.toUTF8) :
    host.readInput.run w = (.ok text, w) := by
  rw [readInput_run, decodeText_eq_ok_iff.mpr h]

theorem writeOutput_run (text : String) :
    (host.writeOutput text).run w = (.ok (), { w with output := w.output ++ text }) := rfl

theorem writeFile_run (path text : String) :
    (host.writeFile path text).run w =
      match w.files.write path text.toUTF8 with
      | .ok files => (.ok (), { w with files })
      | .error cause => (.error cause, w) := by
  have hget : (get : StateM Workspace Workspace).run w = (w, w) := rfl
  refine (run_bind_of hget).trans ?_
  cases w.files.write path text.toUTF8 <;> rfl

end Workspace

namespace Host.IsFaithful

variable {host : Host (StateM Workspace)} (h : host.IsFaithful) (w : Workspace)
include h

theorem readFile_cases (path : String) :
    IsRefused (host.readFile path) w ∨ ∃ text, w.files.read path = .ok text.toUTF8 ∧
      (host.readFile path).run w = (.ok text, w) := by
  refine (h.readFile path w).elim .inl fun hrun => ?_
  rw [Workspace.readFile_run] at hrun
  cases hread : w.files.read path >>= decodeText with
  | error cause => exact .inl ⟨cause, hrun.trans (by rw [hread])⟩
  | ok text =>
    obtain ⟨bytes, hbytes, htext⟩ := Files.exists_of_bind_eq_ok hread
    rw [decodeText_eq_ok_iff] at htext
    exact .inr ⟨text, htext ▸ hbytes, hrun.trans (by rw [hread])⟩

theorem readInput_cases :
    IsRefused host.readInput w ∨ ∃ text, w.input = text.toUTF8 ∧
      host.readInput.run w = (.ok text, w) := by
  refine (h.readInput w).elim .inl fun hrun => ?_
  rw [Workspace.readInput_run] at hrun
  cases hread : decodeText w.input with
  | error cause => exact .inl ⟨cause, hrun.trans (by rw [hread])⟩
  | ok text => exact .inr ⟨text, decodeText_eq_ok_iff.mp hread, hrun.trans (by rw [hread])⟩

theorem writeFile_cases (path text : String) :
    IsRefused (host.writeFile path text) w ∨ ∃ files, w.files.Wrote files path text.toUTF8 ∧
      (host.writeFile path text).run w = (.ok (), { w with files }) := by
  refine (h.writeFile path text w).elim .inl fun hrun => ?_
  rw [Workspace.writeFile_run] at hrun
  cases hwrite : w.files.write path text.toUTF8 with
  | error cause => exact .inl ⟨cause, hrun.trans (by rw [hwrite])⟩
  | ok files => exact .inr ⟨files, Files.wrote_of_write hwrite, hrun.trans (by rw [hwrite])⟩

theorem notes_run (lines : List Event) :
    ∃ notes, (lines.forM fun event => host.note (CommandLine.eventLine event)).run w =
      ((), { w with notes }) := by
  induction lines generalizing w with
  | nil => exact ⟨w.notes, rfl⟩
  | cons event lines ih =>
    obtain ⟨notes, hnote⟩ := h.note (CommandLine.eventLine event) w
    obtain ⟨notes', hnotes⟩ := ih { w with notes }
    exact ⟨notes', (run_bind_of hnote).trans hnotes⟩

end Host.IsFaithful

namespace CommandLine

/-- The options of the configuration file, which holds a text of them, or none if no file is
given. -/
def Configured (w : Workspace) (s : Settings) (options : Options) : Prop :=
  match s.config with
  | some path => ∃ text : String, w.files.read path = .ok text.toUTF8 ∧
      Options.Toml.IsText options text
  | none => options = .unset

/-- The options of the configuration file are determined. -/
theorem Configured.unique {w : Workspace} {s : Settings} {options options' : Options}
    (h : Configured w s options) (h' : Configured w s options') : options = options' := by
  unfold Configured at h h'
  cases hconfig : s.config with
  | none =>
    rw [hconfig] at h h'
    exact h.trans h'.symm
  | some path =>
    rw [hconfig] at h h'
    obtain ⟨text, hfile, htext⟩ := h
    obtain ⟨text', hfile', htext'⟩ := h'
    obtain rfl : text = text' :=
      String.toByteArray_inj.mp (Except.ok.inj (hfile.symm.trans hfile'))
    rw [← Options.Toml.decode?_eq_some_iff] at htext htext'
    exact Option.some.inj (htext.symm.trans htext')

/-- The stylesheet of the input file, or of the standard input if no file is given. -/
def Supplied (w : Workspace) (s : Settings) (css : String) : Prop :=
  match s.input with
  | some path => w.files.read path = .ok css.toUTF8
  | none => w.input = css.toUTF8

/-- The text is what the output file holds, or is at the end of the standard output if no file
is given, with a line break behind it. Nothing else has changed. -/
def Received (s : Settings) (text : String) (w w' : Workspace) : Prop :=
  match s.output with
  | some path => w.files.Wrote w'.files path (text ++ "\n").toUTF8 ∧ w'.output = w.output
  | none => w'.files = w.files ∧ w'.output = w.output ++ (text ++ "\n")

variable {host : Host (StateM Workspace)}

/-- The answer of processing a stylesheet, in a run that gives it this name. -/
abbrev told (name : String) (output : Except ExpansionError String) : Except RunError String :=
  output.mapError fun cause => .pipeline (.expansion (cause.inFile (some name)))

theorem processInput_of_file {s : Settings} {path css : String} (hinput : s.input = some path)
    {w w' : Workspace} (hread : (host.readFile path).run w = (.ok css, w')) (options : Options) :
    ∃ events, (processInput host s options).run w =
      ((told path (Processed.ofText none css options).output, events), w') := by
  obtain ⟨events, hprocess⟩ := processFile_run hread options
  refine ⟨events, ?_⟩
  rw [processInput, hinput]
  refine (run_bind_of hprocess).trans ?_
  rw [Processed.output_ofText]
  cases (Processed.ofText none css options).output <;> rfl

theorem processInput_of_text {s : Settings} {css : String} (hinput : s.input = none)
    {w w' : Workspace} (hread : host.readInput.run w = (.ok css, w')) (options : Options) :
    ∃ events, (processInput host s options).run w =
      ((told inputName (Processed.ofText none css options).output, events), w') := by
  refine ⟨(Processed.ofText (some inputName) css options).events, ?_⟩
  rw [processInput, hinput]
  refine (run_bind_of hread).trans (congrArg (fun answer => ((answer, _), w')) ?_)
  have houtput := Processed.output_ofText (some inputName) css options
  rw [Processed.output] at houtput
  generalize (Processed.ofText (some inputName) css options).result = result at houtput
  cases hnone : (Processed.ofText none css options).output <;> rw [hnone] at houtput <;>
    cases result <;> cases houtput <;> rfl

/-- How a run ends that has come to writing its text. -/
def Outcome.ofWritten : Except RunError Unit → Outcome
  | .ok () => .done
  | .error cause => .failed cause

section

variable {s : Settings} {w w₁ w₂ w₃ : Workspace} {options : Options} {events : List Event}

theorem runWith_of_refused {cause : PipelineError}
    (hoptions : (effectiveOptions host s).run w = (.error cause, w₁)) :
    (runWith host s).run w = (.failed (.pipeline cause), w₁) :=
  run_bind_of hoptions

variable (hoptions : (effectiveOptions host s).run w = (.ok options, w₁))
  (hnotes : ((events.filter (isNoted s.isVerbose)).forM fun event =>
    host.note (eventLine event)).run w₂ = ((), w₃))
include hoptions hnotes

theorem runWith_of_failed {cause : RunError}
    (hinput : (processInput host s options).run w₁ = ((.error cause, events), w₂)) :
    (runWith host s).run w = (.failed cause, w₃) :=
  (run_bind_of hoptions).trans ((run_bind_of hinput).trans (run_bind_of hnotes))

theorem runWith_of_written {text : String} {answer : Except RunError Unit} {w' : Workspace}
    (hinput : (processInput host s options).run w₁ = ((.ok text, events), w₂))
    (hwrite : (writeResult host s text).run w₃ = (answer, w')) :
    (runWith host s).run w = (.ofWritten answer, w') := by
  refine (run_bind_of hoptions).trans ((run_bind_of hinput).trans ((run_bind_of hnotes).trans ?_))
  refine (run_bind_of hwrite).trans ?_
  cases answer <;> rfl

end

/-- Options are loaded from a text of them. -/
theorem loadOptions_of_read {path text : String} {options : Options} {w w' : Workspace}
    (hread : (host.readFile path).run w = (.ok text, w'))
    (htext : Options.Toml.IsText options text) :
    (loadOptions host path).run w = (.ok options, w') := by
  refine (run_bind_of hread).trans ?_
  simp only [Options.Toml.decode?_eq_some_iff.mpr htext]
  rfl

/-- The root size of the command line has precedence over the one that is loaded. -/
theorem effectiveOptions_of_loaded {s : Settings} {path : String} (hconfig : s.config = some path)
    {options : Options} {w w' : Workspace}
    (hload : (loadOptions host path).run w = (.ok options, w')) :
    (effectiveOptions host s).run w = (.ok ⟨s.rootSize.or options.rootSize⟩, w') := by
  rw [effectiveOptions, hconfig]
  refine (run_bind_of hload).trans ?_
  cases s.rootSize <;> rfl

theorem effectiveOptions_of_none {s : Settings} (hconfig : s.config = none) (w : Workspace) :
    (effectiveOptions host s).run w = (.ok ⟨s.rootSize.or none⟩, w) := by
  rw [effectiveOptions, hconfig]
  cases s.rootSize <;> rfl

variable (h : host.IsFaithful) (w : Workspace) (s : Settings)
include h

theorem loadOptions_cases (path : String) :
    IsRefused (loadOptions host path) w ∨ ∃ text options,
      w.files.read path = .ok text.toUTF8 ∧ Options.Toml.IsText options text ∧
        (loadOptions host path).run w = (.ok options, w) := by
  rcases h.readFile_cases w path with ⟨cause, hread⟩ | ⟨text, hfile, hread⟩
  · exact .inl ⟨_, run_bind_of hread⟩
  · cases hdecode : Options.Toml.decode? text with
    | none =>
      refine .inl ⟨.invalidOptions path, (run_bind_of hread).trans ?_⟩
      simp only [hdecode]
      rfl
    | some options =>
      have htext := Options.Toml.decode?_eq_some_iff.mp hdecode
      exact .inr ⟨text, options, hfile, htext, loadOptions_of_read hread htext⟩

theorem effectiveOptions_cases :
    IsRefused (effectiveOptions host s) w ∨ ∃ configured, Configured w s configured ∧
      (effectiveOptions host s).run w = (.ok ⟨s.rootSize.or configured.rootSize⟩, w) := by
  cases hconfig : s.config with
  | none =>
    exact .inr ⟨.unset, by rw [Configured, hconfig], effectiveOptions_of_none hconfig w⟩
  | some path =>
    rcases loadOptions_cases h w path with ⟨cause, hload⟩ | ⟨text, options, hfile, htext, hload⟩
    · refine .inl ⟨cause, ?_⟩
      rw [effectiveOptions, hconfig]
      exact run_bind_of hload
    · exact .inr ⟨options, by rw [Configured, hconfig]; exact ⟨text, hfile, htext⟩,
        effectiveOptions_of_loaded hconfig hload⟩

/-- The stylesheet cannot be read, or it is processed under some name. -/
theorem processInput_told_cases (options : Options) :
    (∃ cause events, (processInput host s options).run w = ((.error cause, events), w)) ∨
      ∃ css name events, Supplied w s css ∧ (processInput host s options).run w =
        ((told name (Processed.ofText none css options).output, events), w) := by
  cases hinput : s.input with
  | some path =>
    rcases h.readFile_cases w path with ⟨cause, hread⟩ | ⟨css, hfile, hread⟩
    · refine .inl ⟨.pipeline (.readStylesheet path cause), [], ?_⟩
      have hrefused : (processFile host path options).run w =
          ((.error (.readStylesheet path cause), []), w) := run_bind_of hread
      rw [processInput, hinput]
      exact run_bind_of hrefused
    · obtain ⟨events, hprocess⟩ := processInput_of_file hinput hread options
      exact .inr ⟨css, path, events, by simpa only [Supplied, hinput], hprocess⟩
  | none =>
    rcases h.readInput_cases w with ⟨cause, hread⟩ | ⟨css, htext, hread⟩
    · refine .inl ⟨.readInput cause, [], ?_⟩
      rw [processInput, hinput]
      exact run_bind_of hread
    · obtain ⟨events, hprocess⟩ := processInput_of_text hinput hread options
      exact .inr ⟨css, inputName, events, by simpa only [Supplied, hinput], hprocess⟩

theorem processInput_cases (options : Options) :
    (∃ cause events, (processInput host s options).run w = ((.error cause, events), w)) ∨
      ∃ css text events, Supplied w s css ∧
        (Processed.ofText none css options).output = .ok text ∧
        (processInput host s options).run w = ((.ok text, events), w) := by
  rcases processInput_told_cases h w s options with hrefused | ⟨css, name, events, hsupplied, hrun⟩
  · exact .inl hrefused
  · cases houtput : (Processed.ofText none css options).output with
    | error cause =>
      rw [houtput] at hrun
      exact .inl ⟨_, events, hrun⟩
    | ok text =>
      rw [houtput] at hrun
      exact .inr ⟨css, text, events, hsupplied, houtput, hrun⟩

theorem writeResult_cases (text : String) :
    IsRefused (writeResult host s text) w ∨ ∃ w', Received s text w w' ∧
      (writeResult host s text).run w = (.ok (), w') := by
  unfold writeResult Received
  cases s.output with
  | some path =>
    rcases h.writeFile_cases w path (text ++ "\n") with ⟨cause, hwrite⟩ | ⟨files, hwrote, hwrite⟩
    · exact .inl ⟨_, run_bind_of hwrite⟩
    · exact .inr ⟨{ w with files }, ⟨hwrote, rfl⟩, run_bind_of hwrite⟩
  | none =>
    rcases h.writeOutput (text ++ "\n") w with ⟨cause, hwrite⟩ | hwrite
    · exact .inl ⟨_, run_bind_of hwrite⟩
    · rw [Workspace.writeOutput_run] at hwrite
      exact .inr ⟨{ w with output := w.output ++ (text ++ "\n") }, ⟨rfl, rfl⟩, run_bind_of hwrite⟩

end CommandLine

end Typography
