import Typography.Token.Escape

/-!
# Names

A name is a run of name characters and escapes. Names stand behind `@` and `#`,
as units behind numbers, before the parenthesis of a function, and alone as
identifiers; except behind `#` a name has to start like an identifier,
`Name.starts`.
-/

namespace Typography.Name

/-- A character that may start a name: a letter, an underscore, the null
character, and every character outside ASCII. -/
def isStart (c : Char) : Bool :=
  c.isAlpha || c == '_' || c == '\u0000' || 0x80 ≤ c.toNat

/-- A character of a name: one that may start it, a digit or a hyphen. -/
def isPart (c : Char) : Bool :=
  isStart c || c.isDigit || c == '-'

/-- Whether a name starts here. A hyphen starts one when a character that may
start a name, another hyphen or any backslash follows; a backslash alone must
not stand before a line break. -/
def starts : List Char → Bool
  | '-' :: c :: _ => isStart c || c == '-' || c == '\\'
  | '\\' :: cs => !Text.startsLineBreak cs
  | c :: _ => isStart c
  | [] => false

/-- Whether a name comes behind a hash sign, where it may start with a digit or a
single hyphen too. -/
def startsHash : List Char → Bool
  | c :: cs => starts (c :: cs) || c.isDigit || c == '-'
  | [] => false

/-- Reads the longest name, which may be empty. A backslash before a line break
is not an escape and ends the name. -/
def scan : List Char → Scan (List Char)
  | [] => ⟨[], [], []⟩
  | c :: cs =>
    if isPart c then
      (scan cs).behind [c] (Escape.shown c :: ·)
    else if c = '\\' ∧ Text.startsLineBreak cs = false then
      (scan (Escape.scan cs).rest).behind ('\\' :: (Escape.scan cs).lexeme)
        ((Escape.scan cs).value :: ·)
    else
      ⟨[], [], c :: cs⟩
termination_by cs => cs.length
decreasing_by
  · simp
  · have := (Escape.splits_scan cs).length_rest_le
    simp only [List.length_cons]
    omega

theorem splits_scan (text : List Char) : (scan text).Splits text := by
  fun_induction scan text with
  | case1 => rfl
  | case2 c cs _ ih => exact ih.behind_cons c _
  | case3 c cs _ h ih =>
    have := ih.behind ('\\' :: (Escape.scan cs).lexeme) ((Escape.scan cs).value :: ·)
    rw [h.1]
    rwa [List.cons_append, Escape.splits_scan cs] at this
  | case4 => rfl

/-- Where a name starts, it has a character. -/
theorem lexeme_scan_ne_nil {text : List Char} (h : starts text) :
    (scan text).lexeme ≠ [] := by
  unfold scan
  split
  · simp [starts] at h
  · rename_i c cs
    split
    · simp
    · split
      · simp
      · rename_i hpart hesc
        exfalso
        by_cases hc : c = '\\'
        · subst hc
          simp_all [starts]
        · by_cases hd : c = '-'
          · simp [hd, isPart] at hpart
          · have hs : starts (c :: cs) = isStart c := by
              unfold starts
              split <;> simp_all
            rw [hs] at h
            simp [isPart, h] at hpart

end Typography.Name
