import Typography.Text.Line

/-!
# Positions in a text

A position is a line and a column, both counted from one. Columns count UTF-16
code units, so a character outside the Basic Multilingual Plane takes two.

`Position.after p cs` is the position behind `cs` when `cs` starts at `p`. A
carriage return with its line feed moves to a new line once, so positions add up
over a cut of the text that does not separate the two.
-/

namespace Typography

/-- A place in a text. -/
structure Position where
  line : Nat
  column : Nat
  deriving DecidableEq, Repr

namespace Position

/-- The position of the first character of a text. -/
def start : Position := ⟨1, 1⟩

/-- The first position of the next line. -/
def nextLine (p : Position) : Position := ⟨p.line + 1, 1⟩

/-- The number of UTF-16 code units of a character. -/
def unitsOf (c : Char) : Nat :=
  if c.toNat < 0x10000 then 1 else 2

/-- The position behind the text `cs` when `cs` starts at `p`. -/
def after (p : Position) : List Char → Position
  | [] => p
  | '\r' :: '\n' :: cs => after p.nextLine cs
  | c :: cs =>
    if Text.isLineBreak c then after p.nextLine cs
    else after ⟨p.line, p.column + unitsOf c⟩ cs

/-- Line and column with a colon between them. -/
def toText (p : Position) : String :=
  toString p.line ++ ":" ++ toString p.column

@[simp] theorem after_nil (p : Position) : p.after [] = p := rfl

end Position

/-- The stretch of a text that a node was read from. The end is unknown for a
node that was placed by hand. -/
structure Span where
  start : Position
  stop : Option Position
  deriving DecidableEq, Repr

/-- A place to name in a message: the file, when the text came from one, and the
position in it. -/
structure Location where
  file : Option String
  position : Position
  deriving DecidableEq, Repr

/-- File, line and column with colons between them; a text without a file is
called `<input>`. -/
def Location.toText (l : Location) : String :=
  l.file.getD "<input>" ++ ":" ++ l.position.toText

end Typography
