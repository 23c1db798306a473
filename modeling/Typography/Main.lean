import Typography.CommandLine.Run

/-!
# The program

The host that works on the real files and streams, and the entry point.
-/

namespace Typography

/-- The number of an error of the system, which is reported with either sign. -/
def errorNumber (code : UInt32) : Nat :=
  code.toInt32.toInt.natAbs

/-- The error that an operation of the system ended with. -/
def FileError.ofSystem (error : IO.Error) : FileError :=
  match error with
  | .noFileOrDirectory .. => .missing
  | .inappropriateType _ code _ =>
    if errorNumber code = 20 then .notADirectory else .isDirectory
  | .invalidArgument _ code _ =>
    if errorNumber code = 36 then .nameTooLong else .other (toString error)
  | _ => .other (toString error)

/-- Runs an effect and catches its error. -/
def attempt {α : Type} (effect : IO α) : IO (Except FileError α) := do
  try
    return .ok (← effect)
  catch error =>
    return .error (.ofSystem error)

/-- The host that works on the real files and streams. -/
def systemHost : Host IO where
  readFile path := do
    return (← attempt (IO.FS.readBinFile path)) >>= decodeText
  writeFile path text := attempt (IO.FS.writeFile path text)
  readInput := do
    return (← attempt do (← IO.getStdin).readBinToEnd) >>= decodeText
  writeOutput text := attempt do
    let output ← IO.getStdout
    output.putStr text
    output.flush
  note line := IO.eprintln line

end Typography

/-- Expands the typography shorthand in a stylesheet. -/
def main (arguments : List String) : IO UInt32 := do
  let outcome ← Typography.CommandLine.run Typography.systemHost arguments
  match outcome with
  | .failed error => IO.eprintln ("error: " ++ error.message)
  | .misused => IO.eprintln "error: the arguments are not understood, see --help"
  | .done => pure ()
  return outcome.exitCode.toUInt32
