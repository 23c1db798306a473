import Typography.Text.Hex
import Typography.Text.Line
import Typography.Text.Scan

/-!
# Escapes

What may follow a backslash: up to six hexadecimal digits with one whitespace
behind them, or any other character, which then stands for itself. A code point
that no character has, the null character and the end of the text stand for
U+FFFD, the replacement character.
-/

namespace Typography.Escape

/-- The character that takes the place of one that cannot be shown. -/
def replacement : Char := '\ufffd'

/-- The character with a code point; zero and code points of no character give
the replacement character. -/
def charOf (codePoint : Nat) : Char :=
  if codePoint = 0 then replacement else (Text.charOf? codePoint).getD replacement

/-- The null character cannot be shown, any other character stands for itself. -/
def shown (c : Char) : Char :=
  if c = '\u0000' then replacement else c

/-- The one whitespace that ends a hexadecimal escape, if one comes next. -/
def gap : List Char → List Char
  | c :: cs => if c = ' ' ∨ c = '\t' then [c] else Text.lineBreak (c :: cs)
  | [] => []

/-- The text behind the one whitespace that ends a hexadecimal escape. -/
def afterGap : List Char → List Char
  | c :: cs => if c = ' ' ∨ c = '\t' then cs else Text.afterLineBreak (c :: cs)
  | [] => []

theorem gap_append_afterGap (cs : List Char) : gap cs ++ afterGap cs = cs := by
  cases cs with
  | nil => rfl
  | cons c cs =>
    by_cases h : c = ' ' ∨ c = '\t'
    · simp [gap, afterGap, h]
    · simp [gap, afterGap, h, Text.lineBreak_append_afterLineBreak]

/-- Reads an escape, the text behind its backslash. -/
def scan : List Char → Scan Char
  | [] => ⟨[], replacement, []⟩
  | c :: cs =>
    if Text.isHex c then
      let digits := c :: (cs.take 5).takeWhile Text.isHex
      let behind := (c :: cs).drop digits.length
      ⟨digits ++ gap behind, charOf ((Text.hexNumber? digits).getD 0), afterGap behind⟩
    else
      ⟨[c], shown c, cs⟩

theorem takeWhile_take_append_drop (p : Char → Bool) (n : Nat) (cs : List Char) :
    (cs.take n).takeWhile p ++ cs.drop ((cs.take n).takeWhile p).length = cs := by
  induction n generalizing cs with
  | zero => simp
  | succ n ih =>
    cases cs with
    | nil => simp
    | cons c cs =>
      rw [List.take_succ_cons, List.takeWhile_cons]
      split
      · simpa using ih cs
      · simp

theorem splits_scan (text : List Char) : (scan text).Splits text := by
  cases text with
  | nil => rfl
  | cons c cs =>
    rw [scan]
    split
    · simp only [Scan.Splits, List.append_assoc, gap_append_afterGap, List.cons_append,
        List.length_cons, List.drop_succ_cons, takeWhile_take_append_drop]
    · rfl

end Typography.Escape
