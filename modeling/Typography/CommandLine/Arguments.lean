/-!
# Arguments

The command line takes the path of a stylesheet, and the options `--output` (`-o`),
`--config` (`-c`), `--root-size`, `--verbose` (`-v`), `--version` (`-V`) and `--help`
(`-h`). A value stands in the next argument or is joined to its option; in the
next argument it may start with a hyphen only if it is a hyphen. Letters may share
one hyphen. Everything behind `--` is a path.

Arguments are gone through in order. The version and the help are asked for as
soon as they are met, and whatever is wrong before them comes first. Nothing may
be given twice, and no path may be empty.
-/

namespace Typography.CommandLine

/-- What the program is asked to do with a stylesheet. -/
structure Settings where
  input : Option String
  output : Option String
  config : Option String
  rootSize : Option String
  isVerbose : Bool
  deriving DecidableEq, Repr

/-- Settings with nothing given. -/
def Settings.unset : Settings := ⟨none, none, none, none, false⟩

/-- Why the program is not run on a stylesheet. -/
inductive Stop where
  | misuse
  | version
  | help
  deriving DecidableEq, Repr

/-- A setting with a value. -/
inductive Setting where
  | input
  | output
  | config
  | rootSize
  deriving DecidableEq, Repr

/-- An option that has no value. -/
inductive Switch where
  | verbose
  | version
  | help
  deriving DecidableEq, Repr

/-- What a name or a letter behind a hyphen asks for. -/
inductive Named where
  | setting (setting : Setting)
  | switch (switch : Switch)
  deriving DecidableEq, Repr

/-- The option with a name. -/
def Named.ofName? : String → Option Named
  | "output" => some (.setting .output)
  | "config" => some (.setting .config)
  | "root-size" => some (.setting .rootSize)
  | "verbose" => some (.switch .verbose)
  | "version" => some (.switch .version)
  | "help" => some (.switch .help)
  | _ => none

/-- The option with a letter. -/
def Named.ofLetter? : Char → Option Named
  | 'o' => some (.setting .output)
  | 'c' => some (.setting .config)
  | 'v' => some (.switch .verbose)
  | 'V' => some (.switch .version)
  | 'h' => some (.switch .help)
  | _ => none

namespace Settings

/-- Sets a path, which must not be empty or set already. -/
def setPath (old : Option String) (path : String) : Except Stop (Option String) :=
  if old.isSome || path.isEmpty then .error .misuse else .ok (some path)

/-- Gives a setting its value. -/
def give (s : Settings) (value : String) : Setting → Except Stop Settings
  | .input => (setPath s.input value).map fun input => { s with input }
  | .output => (setPath s.output value).map fun output => { s with output }
  | .config => (setPath s.config value).map fun config => { s with config }
  | .rootSize =>
    if s.rootSize.isSome then .error .misuse else .ok { s with rootSize := some value }

/-- Turns a switch on. -/
def turnOn (s : Settings) : Switch → Except Stop Settings
  | .verbose => if s.isVerbose then .error .misuse else .ok { s with isVerbose := true }
  | .version => .error .version
  | .help => .error .help

end Settings

/-- What an argument leaves to do: nothing, or to find the value of a setting in
the next argument. -/
structure Taken where
  settings : Settings
  awaited : Option Setting
  deriving DecidableEq, Repr

/-- Takes the letters behind a hyphen. The letter of a setting ends them: what is
behind it is its value, after an equals sign if there is one. -/
def takeLetters (s : Settings) : List Char → Except Stop Taken
  | [] => .ok ⟨s, none⟩
  | c :: cs =>
    match Named.ofLetter? c with
    | none => .error .misuse
    | some (.switch switch) => do takeLetters (← s.turnOn switch) cs
    | some (.setting setting) =>
      match cs with
      | [] => .ok ⟨s, some setting⟩
      | '=' :: value => do return ⟨← s.give (String.ofList value) setting, none⟩
      | value => do return ⟨← s.give (String.ofList value) setting, none⟩

/-- Takes what stands behind two hyphens: a name, and a value after an equals
sign. -/
def takeName (s : Settings) (text : List Char) : Except Stop Taken :=
  match Named.ofName? (String.ofList (text.takeWhile (· != '='))), text.dropWhile (· != '=') with
  | some (.setting setting), [] => .ok ⟨s, some setting⟩
  | some (.setting setting), _ :: value => do
    return ⟨← s.give (String.ofList value) setting, none⟩
  | some (.switch switch), [] => do return ⟨← s.turnOn switch, none⟩
  | some (.switch _), _ :: _ => .error .misuse
  | none, _ => .error .misuse

/-- Takes an argument that is not a value and not `--`. -/
def takeArgument (s : Settings) (argument : String) : Except Stop Taken :=
  match argument.toList with
  | '-' :: '-' :: text => takeName s text
  | '-' :: c :: cs => takeLetters s (c :: cs)
  | _ => do return ⟨← s.give argument .input, none⟩

/-- Whether an argument may be a value of its own. -/
def isValue (argument : String) : Bool :=
  match argument.toList with
  | '-' :: _ :: _ => false
  | _ => true

/-- Takes paths, each argument for what it is. -/
def takePaths (s : Settings) : List String → Except Stop Settings
  | [] => .ok s
  | path :: paths => do takePaths (← s.give path .input) paths

/-- Takes all arguments, when the value of `awaited` has to come first. -/
def takeAll (s : Settings) (awaited : Option Setting) : List String → Except Stop Settings
  | [] => if awaited.isSome then .error .misuse else .ok s
  | argument :: arguments =>
    match awaited with
    | some setting =>
      if isValue argument then do takeAll (← s.give argument setting) none arguments
      else .error .misuse
    | none =>
      if argument == "--" then takePaths s arguments
      else do
        let taken ← takeArgument s argument
        takeAll taken.settings taken.awaited arguments

/-- The settings that arguments ask for. -/
def Settings.ofArguments (arguments : List String) : Except Stop Settings :=
  takeAll .unset none arguments

end Typography.CommandLine
