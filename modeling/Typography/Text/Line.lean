/-!
# Line breaks

Four spellings end a line: a line feed, a form feed, a carriage return, and a
carriage return with its line feed, which is one break. Whitespace of a
stylesheet is these characters with the space and the tab.
-/

namespace Typography.Text

/-- A character that ends a line, alone or as a part of a break. -/
def isLineBreak (c : Char) : Bool :=
  c == '\n' || c == '\r' || c == '\u000c'

/-- The whitespace of a stylesheet: space, tab and the line breaks. -/
def isSpace (c : Char) : Bool :=
  c == ' ' || c == '\t' || isLineBreak c

/-- Whether a line break comes next. -/
def startsLineBreak : List Char → Bool
  | [] => false
  | c :: _ => isLineBreak c

/-- The line break at the front of a text, if one comes next: a carriage return
takes the line feed behind it along. -/
def lineBreak : List Char → List Char
  | '\r' :: '\n' :: _ => ['\r', '\n']
  | c :: _ => if isLineBreak c then [c] else []
  | [] => []

/-- The text behind the line break at its front, if one comes next. -/
def afterLineBreak : List Char → List Char
  | '\r' :: '\n' :: cs => cs
  | c :: cs => if isLineBreak c then cs else c :: cs
  | [] => []

theorem lineBreak_append_afterLineBreak (cs : List Char) :
    lineBreak cs ++ afterLineBreak cs = cs := by
  fun_cases lineBreak cs <;> simp_all [afterLineBreak]

theorem length_afterLineBreak_le (cs : List Char) :
    (afterLineBreak cs).length ≤ cs.length := by
  have h := congrArg List.length (lineBreak_append_afterLineBreak cs)
  rw [List.length_append] at h
  omega

end Typography.Text
