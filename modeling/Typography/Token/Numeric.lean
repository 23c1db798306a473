import Typography.Text.Scan

/-!
# Numbers of a stylesheet

A number is an optional sign, digits with an optional fraction or a fraction
alone, and an optional exponent. Only its extent matters: `Numeric.extent` is
the longest number at the front of a text, empty where no number starts.
-/

namespace Typography.Numeric

/-- The sign at the front of a text, if there is one. -/
def sign : List Char → List Char
  | c :: _ => if c = '+' ∨ c = '-' then [c] else []
  | [] => []

/-- The digits at the front of a text. -/
def digits (text : List Char) : List Char :=
  text.takeWhile Char.isDigit

/-- A point with digits behind it, at the front of a text. -/
def fraction : List Char → List Char
  | '.' :: cs => if (digits cs).isEmpty then [] else '.' :: digits cs
  | _ => []

/-- An exponent with its digits, at the front of a text. -/
def exponent : List Char → List Char
  | c :: cs =>
    if (c = 'e' ∨ c = 'E') ∧ digits (cs.drop (sign cs).length) ≠ [] then
      c :: (sign cs ++ digits (cs.drop (sign cs).length))
    else []
  | [] => []

/-- The longest number at the front of a text. -/
def extent (text : List Char) : List Char :=
  let plus := sign text
  let afterSign := text.drop plus.length
  let whole := digits afterSign
  let afterWhole := afterSign.drop whole.length
  let part := fraction afterWhole
  if whole.isEmpty && part.isEmpty then []
  else plus ++ whole ++ part ++ exponent (afterWhole.drop part.length)

/-- Reads the longest number at the front of a text. -/
def scan (text : List Char) : Scan (List Char) :=
  ⟨extent text, extent text, text.drop (extent text).length⟩

theorem append_drop_of_front {front text : List Char} (h : front <+: text) :
    front ++ text.drop front.length = text := by
  obtain ⟨behind, rfl⟩ := h
  simp

theorem sign_front (text : List Char) : sign text <+: text := by
  unfold sign
  split
  · split
    · exact ⟨_, rfl⟩
    · exact List.nil_prefix
  · exact List.nil_prefix

theorem digits_front (text : List Char) : digits text <+: text :=
  List.takeWhile_prefix _

theorem fraction_front (text : List Char) : fraction text <+: text := by
  unfold fraction
  split
  · split
    · exact List.nil_prefix
    · exact (List.prefix_cons_inj _).mpr (digits_front _)
  · exact List.nil_prefix

/-- A front of a text with a front of what is left is a front of the text. -/
theorem front_append {front next text : List Char} (h : front <+: text)
    (hn : next <+: text.drop front.length) : front ++ next <+: text := by
  obtain ⟨behind, rfl⟩ := h
  rw [List.drop_left] at hn
  exact (List.prefix_append_right_inj front).mpr hn

theorem exponent_front (text : List Char) : exponent text <+: text := by
  unfold exponent
  split
  · split
    · exact (List.prefix_cons_inj _).mpr
        (front_append (sign_front _) (digits_front _))
    · exact List.nil_prefix
  · exact List.nil_prefix

theorem extent_front (text : List Char) : extent text <+: text := by
  unfold extent
  simp only
  split
  · exact List.nil_prefix
  · rw [List.append_assoc, List.append_assoc]
    refine front_append (sign_front _) ?_
    refine front_append (digits_front _) ?_
    exact front_append (fraction_front _) (exponent_front _)

theorem splits_scan (text : List Char) : (scan text).Splits text :=
  append_drop_of_front (extent_front text)

end Typography.Numeric
