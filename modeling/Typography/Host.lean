import Typography.Files

/-!
# Hosts

What the program needs of its surroundings: files, the standard streams, and a
place for notes. The program is written for any host. One host is a workspace,
which is a plain value, so what the program does to it can be stated.
-/

namespace Typography

/-- The surroundings of the program, whose operations are effects in `m`. -/
structure Host (m : Type → Type) where
  readFile : (path : String) → m (Except FileError String)
  writeFile : (path text : String) → m (Except FileError Unit)
  readInput : m (Except FileError String)
  writeOutput : (text : String) → m (Except FileError Unit)
  note : (line : String) → m Unit

/-- A working directory, the bytes of the standard input, and what has been
written to the standard output and noted. -/
structure Workspace where
  files : Files
  input : ByteArray
  output : String
  notes : List String

/-- The host that works on a workspace. -/
def Workspace.host : Host (StateM Workspace) where
  readFile path := do
    return (← get).files.read path >>= decodeText
  writeFile path text := do
    let workspace ← get
    match workspace.files.write path text.toUTF8 with
    | .ok files =>
      set { workspace with files }
      return .ok ()
    | .error cause => return .error cause
  readInput := do
    return decodeText (← get).input
  writeOutput text := do
    modify fun workspace => { workspace with output := workspace.output ++ text }
    return .ok ()
  note line := modify fun workspace => { workspace with notes := workspace.notes ++ [line] }

end Typography
