import Typography.Token.Escape

/-!
# Quoted text

A quoted text ends at its quote or at the end of the input. A line break that no
backslash precedes breaks it off: the break is left to be read as whitespace,
and the text counts as broken.
-/

namespace Typography

/-- The characters of a quoted text, and whether a line break cut it off. -/
structure Quoted where
  text : List Char
  isBroken : Bool
  deriving DecidableEq, Repr

namespace Quoted

/-- The same quoted text with characters in front. -/
def behind (before : List Char) (q : Quoted) : Quoted :=
  ⟨before ++ q.text, q.isBroken⟩

/-- Reads a quoted text, from behind the opening `quote`. A backslash before a
line break continues the text on the next line, and one at the end of the input
stands for nothing. -/
def scan (quote : Char) : List Char → Scan Quoted
  | [] => ⟨[], ⟨[], false⟩, []⟩
  | c :: cs =>
    if c = quote then
      ⟨[c], ⟨[], false⟩, cs⟩
    else if Text.isLineBreak c then
      ⟨[], ⟨[], true⟩, c :: cs⟩
    else if c = '\\' then
      if cs.isEmpty then
        ⟨[c], ⟨[], false⟩, cs⟩
      else if Text.startsLineBreak cs then
        (scan quote (Text.afterLineBreak cs)).behind (c :: Text.lineBreak cs) id
      else
        (scan quote (Escape.scan cs).rest).behind (c :: (Escape.scan cs).lexeme)
          (behind [(Escape.scan cs).value])
    else
      (scan quote cs).behind [c] (behind [Escape.shown c])
termination_by cs => cs.length
decreasing_by
  · have := Text.length_afterLineBreak_le cs
    simp only [List.length_cons]
    omega
  · have := (Escape.splits_scan cs).length_rest_le
    simp only [List.length_cons]
    omega
  · simp

theorem splits_scan (quote : Char) (text : List Char) : (scan quote text).Splits text := by
  fun_induction scan quote text with
  | case1 => rfl
  | case2 => rfl
  | case3 => rfl
  | case4 => rfl
  | case5 cs _ _ _ _ ih =>
    have := ih.behind ('\\' :: Text.lineBreak cs) id
    rwa [List.cons_append, Text.lineBreak_append_afterLineBreak] at this
  | case6 cs _ _ _ _ ih =>
    have := ih.behind ('\\' :: (Escape.scan cs).lexeme) (behind [(Escape.scan cs).value])
    rwa [List.cons_append, Escape.splits_scan cs] at this
  | case7 c cs _ _ _ ih => exact ih.behind_cons c _

end Quoted

end Typography
