/-!
# Blank characters

The characters with the Unicode property `White_Space`, and the two things that
are done with them: blanks are trimmed from the ends of a text, and a text is
cut into its fragments, the maximal runs without a blank.

A stylesheet's own whitespace (`Text.isSpace`) is a smaller set: a no-break
space separates fragments, but it is an ordinary character of a name.
-/

namespace Typography.Text

/-- The property `White_Space`: the controls from tab to carriage return, the
space, next line, and the spaces and separators above ASCII. -/
def isBlank (c : Char) : Bool :=
  ('\t' ≤ c && c ≤ '\r') || c == ' ' || c == '\u0085' || c == '\u00a0' ||
    c == '\u1680' || ('\u2000' ≤ c && c ≤ '\u200a') || c == '\u2028' ||
    c == '\u2029' || c == '\u202f' || c == '\u205f' || c == '\u3000'

/-- A text without its leading blanks. -/
def trimStart (cs : List Char) : List Char :=
  cs.dropWhile isBlank

/-- A text without its trailing blanks. -/
def trimEnd (cs : List Char) : List Char :=
  (cs.reverse.dropWhile isBlank).reverse

/-- A text without its blanks at either end. -/
def trim (cs : List Char) : List Char :=
  trimEnd (trimStart cs)

/-- The fragments of a text, when the characters `word` of the current fragment
have been met already. -/
def fragmentsFrom (word : List Char) : List Char → List (List Char)
  | [] => if word.isEmpty then [] else [word]
  | c :: cs =>
    if isBlank c then
      if word.isEmpty then fragmentsFrom [] cs else word :: fragmentsFrom [] cs
    else
      fragmentsFrom (word ++ [c]) cs

/-- The maximal runs of characters without a blank, in order. -/
def fragments (cs : List Char) : List (List Char) :=
  fragmentsFrom [] cs

@[simp] theorem trimStart_nil : trimStart [] = [] := rfl

@[simp] theorem trimEnd_nil : trimEnd [] = [] := rfl

@[simp] theorem trim_nil : trim [] = [] := rfl

@[simp] theorem fragments_nil : fragments [] = [] := rfl

theorem trimStart_cons (c : Char) (cs : List Char) :
    trimStart (c :: cs) = if isBlank c then trimStart cs else c :: cs := by
  simp [trimStart, List.dropWhile_cons]

end Typography.Text
