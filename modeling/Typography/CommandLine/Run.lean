import Typography.CommandLine.Arguments
import Typography.Pipeline

/-!
# Running the program

The options come from the configuration file and the root size from the command
line, where it is given. The stylesheet comes from a file or the standard input
and goes, processed and with a line break behind it, to a file or the standard
output. Nothing is written before all else is done.
-/

namespace Typography.CommandLine

/-- The name of the program with its version. -/
def versionLine : String := "type-shorthand 1.0.0\n"

/-- What the program is for and the options it takes. -/
def helpText : String :=
  "Expand @type typography shorthands into standard CSS\n\n" ++
    "Usage: type-shorthand [OPTIONS] [INPUT]\n\n" ++
    "Options:\n" ++
    "  -o, --output <OUTPUT>        Write the result here instead of stdout\n" ++
    "      --root-size <ROOT_SIZE>  Root font size used to convert pixel font sizes to rem\n" ++
    "  -c, --config <CONFIG>        TOML file with options\n" ++
    "  -v, --verbose                Show debug logging\n" ++
    "  -h, --help                   Print help\n" ++
    "  -V, --version                Print version\n"

/-- Why a run fails. -/
inductive RunError where
  | pipeline (cause : PipelineError)
  | readInput (cause : FileError)
  | writeFile (path : String) (cause : FileError)
  | writeOutput (cause : FileError)
  deriving DecidableEq, Repr

/-- What is said about the error, with its cause. -/
def RunError.message : RunError → String
  | pipeline cause =>
    cause.message ++
      match cause.cause? with
      | some cause => ": " ++ cause
      | none => ""
  | readInput cause => "Failed to read stdin: " ++ cause.message
  | writeFile path cause => "Failed to write " ++ path ++ ": " ++ cause.message
  | writeOutput cause => "Failed to write stdout: " ++ cause.message

/-- How the program ends. -/
inductive Outcome where
  | done
  | misused
  | failed (error : RunError)
  deriving DecidableEq, Repr

/-- The exit code. -/
def Outcome.exitCode : Outcome → Nat
  | done => 0
  | failed _ => 1
  | misused => 2

/-- The name that the standard input has in messages. -/
def inputName : String := "<stdin>"

/-- An event on one line. -/
def eventLine (event : Event) : String :=
  event.level.name ++ " " ++ event.target ++ ": " ++ event.message ++
    String.join (event.fields.map fun (name, value) =>
      " " ++ name ++ "=" ++
        match value with
        | .number n => toString n
        | .text s => s)

/-- Whether an event is noted: warnings always, the others when asked for. -/
def isNoted (isVerbose : Bool) (event : Event) : Bool :=
  isVerbose || event.level == .warn

variable {m : Type → Type} [Monad m]

/-- The options of a run. The root size of the command line has precedence over
the one of the configuration file, also when it is empty. -/
def effectiveOptions (host : Host m) (s : Settings) : m (Except PipelineError Options) := do
  let configured ← match s.config with
    | some path => loadOptions host path
    | none => pure (.ok .unset)
  return configured.map fun options =>
    match s.rootSize with
    | some size => { options with rootSize := some size }
    | none => options

/-- Processes the stylesheet of a run. -/
def processInput (host : Host m) (s : Settings) (options : Options) :
    m (Except RunError String × List Event) := do
  match s.input with
  | some path =>
    let (result, events) ← processFile host path options
    return (result.mapError .pipeline, events)
  | none =>
    match ← host.readInput with
    | .error cause => return (.error (.readInput cause), [])
    | .ok css =>
      let processed := Processed.ofText (some inputName) css options
      return ((processed.result.mapError (.pipeline ∘ .expansion)).map Prod.snd,
        processed.events)

/-- Writes the text of a run. -/
def writeResult (host : Host m) (s : Settings) (text : String) : m (Except RunError Unit) := do
  match s.output with
  | some path => return (← host.writeFile path (text ++ "\n")).mapError (.writeFile path)
  | none => return (← host.writeOutput (text ++ "\n")).mapError .writeOutput

/-- Runs the program with settings. -/
def runWith (host : Host m) (s : Settings) : m Outcome := do
  match ← effectiveOptions host s with
  | .error cause => return .failed (.pipeline cause)
  | .ok options =>
    let (result, events) ← processInput host s options
    (events.filter (isNoted s.isVerbose)).forM fun event => host.note (eventLine event)
    match result with
    | .error cause => return .failed cause
    | .ok text =>
      match ← writeResult host s text with
      | .error cause => return .failed cause
      | .ok () => return .done

/-- Prints a text that was asked for instead of a run. -/
def printText (host : Host m) (text : String) : m Outcome := do
  match ← host.writeOutput text with
  | .error cause => return .failed (.writeOutput cause)
  | .ok () => return .done

/-- Runs the program with the arguments of its command line. -/
def run (host : Host m) (arguments : List String) : m Outcome := do
  match Settings.ofArguments arguments with
  | .ok settings => runWith host settings
  | .error .version => printText host versionLine
  | .error .help => printText host helpText
  | .error .misuse => return .misused

end Typography.CommandLine
