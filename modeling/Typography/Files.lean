/-!
# Files

The files and directories below a working directory, as a value. A path is a row
of names with slashes between them, read from the working directory on. What lies
above that directory is taken to hold no files.
-/

namespace Typography

/-- Why a file cannot be read or written. -/
inductive FileError where
  | missing
  | isDirectory
  | notADirectory
  | nameTooLong
  | nullInName
  | notText
  | other (message : String)
  deriving DecidableEq, Repr

/-- What is said about the error. -/
def FileError.message : FileError → String
  | missing => "No such file or directory (os error 2)"
  | isDirectory => "Is a directory (os error 21)"
  | notADirectory => "Not a directory (os error 20)"
  | nameTooLong => "File name too long (os error 36)"
  | nullInName => "file name contained an unexpected NUL byte"
  | notText => "stream did not contain valid UTF-8"
  | other message => message

/-- The text that bytes encode in UTF-8. -/
def decodeText (bytes : ByteArray) : Except FileError String :=
  match String.fromUTF8? bytes with
  | some text => .ok text
  | none => .error .notText

/-- What stands at a place in the working directory. -/
inductive Entry where
  | file (bytes : ByteArray)
  | directory

/-- The entries below a working directory by their places, latest first. -/
structure Files where
  entries : List (List String × Entry)

namespace Files

/-- An empty working directory. -/
def empty : Files := ⟨[]⟩

/-- The name of the directory above. -/
def parentName : String := ".."

/-- The bytes that a name may have. -/
def longestName : Nat := 255

/-- The bytes that a path may have. -/
def longestPath : Nat := 4095

/-- The entry at a place. -/
def get? (files : Files) (place : List String) : Option Entry :=
  if place.all (· == parentName) then some .directory
  else (files.entries.find? fun entry => entry.1 == place).map Prod.snd

/-- Puts an entry at a place. -/
def put (files : Files) (place : List String) (entry : Entry) : Files :=
  ⟨(place, entry) :: files.entries⟩

/-- The names of a path. -/
def namesOf (path : String) : List String :=
  (path.toList.splitOn '/').map String.ofList

/-- Only a directory has something below it. -/
def checkDirectory (files : Files) (place : List String) : Except FileError Unit :=
  match files.get? place with
  | none => .error .missing
  | some (.file _) => .error .notADirectory
  | some .directory => .ok ()

/-- Follows names from a place on. Each place but the last has to be a directory,
and a name that is looked up in it must not be too long. -/
def follow (files : Files) (place : List String) : List String → Except FileError (List String)
  | [] => .ok place
  | name :: names => do
    files.checkDirectory place
    if name.isEmpty || name == "." then files.follow place names
    else if name == parentName && place.getLast?.any (· != parentName) then
      files.follow place.dropLast names
    else if longestName < name.utf8ByteSize then throw .nameTooLong
    else files.follow (place ++ [name]) names

/-- The place that a path starts from: one with a slash in front starts above the
working directory. -/
def startOf (path : String) : List String :=
  if path.toList.head? = some '/' then [parentName] else []

/-- What a path has to be before any of its names is looked up. -/
def checkPath (path : String) : Except FileError Unit :=
  if path.toList.contains '\u0000' then .error .nullInName
  else if path.isEmpty then .error .missing
  else if longestPath < path.utf8ByteSize then .error .nameTooLong
  else .ok ()

/-- The place that a path leads to. -/
def locate (files : Files) (path : String) : Except FileError (List String) := do
  checkPath path
  files.follow (startOf path) (namesOf path)

/-- The place that the names of a path before its last one lead to. -/
def locateParent (files : Files) (path : String) : Except FileError (List String) := do
  checkPath path
  let names := (namesOf path).reverse.dropWhile String.isEmpty
  files.follow (startOf path) (names.drop 1).reverse

/-- Reads the bytes of a file. -/
def read (files : Files) (path : String) : Except FileError ByteArray := do
  match files.get? (← files.locate path) with
  | some (.file bytes) => return bytes
  | some .directory => throw .isDirectory
  | none => throw .missing

/-- Writes a file, which is created if it is missing. A path with a slash at its
end is taken for a directory, and what stands before its last name has to be one. -/
def write (files : Files) (path : String) (bytes : ByteArray) : Except FileError Files := do
  if path.toList.getLast? = some '/' then
    files.checkDirectory (← files.locateParent path)
    throw .isDirectory
  let place ← files.locate path
  match files.get? place with
  | some .directory => throw .isDirectory
  | _ => return files.put place (.file bytes)

end Files

end Typography
