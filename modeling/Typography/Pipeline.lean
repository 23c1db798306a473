import Typography.Expansion.Pass
import Typography.Host
import Typography.Options.Toml
import Typography.Stylesheet.Layout
import Typography.Stylesheet.Reader

/-!
# From text to text

A stylesheet is read, its shorthands are expanded, and what is left is written in
its canonical layout. The text comes as it is or from a file; the file is named in
messages and has no other influence.
-/

namespace Typography

/-- What processing a stylesheet came to, and what happened. -/
structure Processed where
  result : Except ExpansionError (Report × String)
  events : List Event

/-- Processes a stylesheet. -/
def Processed.ofText (file : Option String) (css : String) (options : Options) : Processed :=
  let reading := Reading.ofText css
  let document := Document.ofTrees file reading.trees
  let expansion := document.expand options
  ⟨expansion.result.map fun report => (report, Layout.stylesheet expansion.document.trees),
    reading.warnings.map .skippedStatement ++ .readStylesheet document.size ::
      expansion.events⟩

/-- Why processing a file fails. -/
inductive PipelineError where
  | readStylesheet (path : String) (cause : FileError)
  | readOptions (path : String) (cause : FileError)
  | invalidOptions (path : String)
  | expansion (cause : ExpansionError)
  deriving DecidableEq, Repr

namespace PipelineError

/-- What is said about the error. -/
def message : PipelineError → String
  | readStylesheet path cause =>
    "Failed to read stylesheet '" ++ path ++ "': " ++ cause.message
  | readOptions path cause => "Failed to read options '" ++ path ++ "': " ++ cause.message
  | invalidOptions path => "Invalid options in '" ++ path ++ "'"
  | expansion cause => cause.message

/-- What is said about the cause of the error, if another error is its cause. -/
def cause? : PipelineError → Option String
  | readStylesheet _ cause => some cause.message
  | readOptions _ cause => some cause.message
  | invalidOptions _ => none
  | expansion (.tree cause) => some cause.message
  | expansion _ => none

end PipelineError

variable {m : Type → Type} [Monad m]

/-- Processes the stylesheet of a file. Answers the text and what happened. -/
def processFile (host : Host m) (path : String) (options : Options) :
    m (Except PipelineError String × List Event) := do
  match ← host.readFile path with
  | .error cause => return (.error (.readStylesheet path cause), [])
  | .ok css =>
    let processed := Processed.ofText (some path) css options
    match processed.result with
    | .error cause => return (.error (.expansion cause), processed.events)
    | .ok (report, text) =>
      return (.ok text, processed.events ++ [.processedFile (some path) report])

/-- Reads options from a file. -/
def loadOptions (host : Host m) (path : String) : m (Except PipelineError Options) := do
  match ← host.readFile path with
  | .error cause => return .error (.readOptions path cause)
  | .ok text =>
    match Options.Toml.decode? text with
    | some options => return .ok options
    | none => return .error (.invalidOptions path)

end Typography
