import Typography.Node
import Typography.Source.Position
import Typography.Text.Blank

/-!
# Statements without a block

The text of a statement that opens no block is a declaration: a property, a
colon and a value, which may end with the flag `!important`. A text that is none
is skipped, with a warning that says why.
-/

namespace Typography

/-- The flag of an important declaration, in lower case. -/
def importantFlag : List Char :=
  "!important".toList

/-- Cuts the flag `!important`, in letters of either case, off a value. Answers
the trimmed value and whether the flag was there. -/
def splitImportant (value : List Char) : List Char × Bool :=
  let trimmed := Text.trim value
  let count := trimmed.length - importantFlag.length
  if (trimmed.drop count).map Char.toLower = importantFlag then
    (Text.trimEnd (trimmed.take count), true)
  else (trimmed, false)

/-- Why a statement is skipped. -/
inductive SkipReason where
  | withoutColon (text : String)
  | withoutProperty
  deriving DecidableEq, Repr

/-- What a warning says about a skipped statement. -/
def SkipReason.message : SkipReason → String
  | withoutColon text => "Skipping statement without ':': " ++ text
  | withoutProperty => "Skipping declaration without a property name"

/-- A statement that was skipped, by its first position. -/
structure Warning where
  position : Position
  reason : SkipReason
  deriving DecidableEq, Repr

/-- Reads a declaration from the text of a statement, which the first colon
divides into property and value. -/
def readDeclaration (text : List Char) : Except SkipReason NodeKind :=
  match text.dropWhile (· != ':') with
  | [] => .error (.withoutColon (String.ofList (Text.trim text)))
  | _ :: value =>
    let property := Text.trim (text.takeWhile (· != ':'))
    if property.isEmpty then .error .withoutProperty
    else
      let (value, important) := splitImportant value
      .ok (.declaration (String.ofList property) (String.ofList value) important)

end Typography
