import Typography.Token.Escape

/-!
# Addresses without quotes

The text behind `url(` is one token up to the closing parenthesis or the end of
the input, unless a quoted text comes first. Whitespace may stand at its ends
only. What is not allowed inside breaks the address; a broken address still runs
to a closing parenthesis that no backslash precedes, and its value is the text
as it is written.
-/

namespace Typography

/-- An address, or the text of a broken one. -/
structure Address where
  text : List Char
  isBroken : Bool
  deriving DecidableEq, Repr

namespace Address

/-- A sound address gets the character `value` in front, a broken one the
stretch of text `written`. -/
def behind (written : List Char) (value : Char) (a : Address) : Address :=
  if a.isBroken then ⟨written ++ a.text, true⟩ else ⟨value :: a.text, false⟩

/-- A control character that an address must not hold. -/
def isUnprintable (c : Char) : Bool :=
  ('\u0001' ≤ c && c ≤ '\u0008') || c == '\u000b' || ('\u000e' ≤ c && c ≤ '\u001f') ||
    c == '\u007f'

/-- A character that breaks an address. -/
def isForbidden (c : Char) : Bool :=
  c == '"' || c == '\'' || c == '(' || isUnprintable c

/-- Reads the remainder of a broken address: to the next closing parenthesis,
where a backslash takes a parenthesis or a backslash behind it along. -/
def scanBroken : List Char → Scan (List Char)
  | [] => ⟨[], [], []⟩
  | ')' :: cs => ⟨[')'], [], cs⟩
  | '\\' :: ')' :: cs => (scanBroken cs).behind ['\\', ')'] (['\\', ')'] ++ ·)
  | '\\' :: '\\' :: cs => (scanBroken cs).behind ['\\', '\\'] (['\\', '\\'] ++ ·)
  | c :: cs => (scanBroken cs).behind [c] (c :: ·)

/-- The broken address that starts with the text `written`. -/
def broken (written cs : List Char) : Scan Address :=
  (scanBroken cs).behind written fun text => ⟨written ++ text, true⟩

/-- Reads the end of an address from the whitespace behind it: a closing
parenthesis or the end of the input, and anything else breaks the address. -/
def scanEnd (text : List Char) : Scan Address :=
  match text.dropWhile Text.isSpace with
  | [] => ⟨text.takeWhile Text.isSpace, ⟨[], false⟩, []⟩
  | ')' :: cs => ⟨text.takeWhile Text.isSpace ++ [')'], ⟨[], false⟩, cs⟩
  | c :: cs => broken (text.takeWhile Text.isSpace ++ [c]) cs

/-- Reads an address from its first character. -/
def scanBody : List Char → Scan Address
  | [] => ⟨[], ⟨[], false⟩, []⟩
  | c :: cs =>
    if c = ')' then
      ⟨[c], ⟨[], false⟩, cs⟩
    else if Text.isSpace c then
      scanEnd (c :: cs)
    else if isForbidden c then
      broken [c] cs
    else if c = '\\' then
      if Text.startsLineBreak cs then
        broken [c] cs
      else
        (scanBody (Escape.scan cs).rest).behind (c :: (Escape.scan cs).lexeme)
          (behind (c :: (Escape.scan cs).lexeme) (Escape.scan cs).value)
    else
      (scanBody cs).behind [c] (behind [c] (Escape.shown c))
termination_by cs => cs.length
decreasing_by
  · have := (Escape.splits_scan cs).length_rest_le
    simp only [List.length_cons]
    omega
  · simp

/-- Reads an address from behind `url(`, with the whitespace before it. There is
none if a quote comes first. -/
def scan? (text : List Char) : Option (Scan Address) :=
  match text.dropWhile Text.isSpace with
  | '"' :: _ | '\'' :: _ => none
  | body => some ((scanBody body).behind (text.takeWhile Text.isSpace) id)

theorem splits_scanBroken (text : List Char) : (scanBroken text).Splits text := by
  fun_induction scanBroken text with
  | case1 => rfl
  | case2 => rfl
  | case3 cs ih => exact ih.behind ['\\', ')'] _
  | case4 cs ih => exact ih.behind ['\\', '\\'] _
  | case5 c cs _ _ _ ih => exact ih.behind_cons c _

theorem splits_broken (written cs : List Char) :
    (broken written cs).Splits (written ++ cs) :=
  (splits_scanBroken cs).behind written _

theorem splits_scanEnd (text : List Char) : (scanEnd text).Splits text := by
  have h := List.takeWhile_append_dropWhile (p := Text.isSpace) (l := text)
  unfold scanEnd
  split
  · rename_i hd
    rw [hd] at h
    exact h
  · rename_i cs hd
    rw [hd] at h
    simpa [Scan.Splits] using h
  · rename_i c cs _ hd
    have := splits_broken (text.takeWhile Text.isSpace ++ [c]) cs
    rw [hd] at h
    rwa [List.append_assoc, List.singleton_append, h] at this

theorem splits_scanBody (text : List Char) : (scanBody text).Splits text := by
  fun_induction scanBody text with
  | case1 => rfl
  | case2 => rfl
  | case3 c cs => exact splits_scanEnd (c :: cs)
  | case4 c cs => exact splits_broken [c] cs
  | case5 cs => exact splits_broken ['\\'] cs
  | case6 cs _ _ _ _ ih =>
    have := ih.behind ('\\' :: (Escape.scan cs).lexeme)
      (behind ('\\' :: (Escape.scan cs).lexeme) (Escape.scan cs).value)
    rwa [List.cons_append, Escape.splits_scan cs] at this
  | case7 c cs _ _ _ _ ih => exact ih.behind_cons c _

theorem splits_of_scan?_eq_some {text : List Char} {s : Scan Address}
    (h : scan? text = some s) : s.Splits text := by
  unfold scan? at h
  split at h
  · simp at h
  · simp at h
  · cases h
    have := (splits_scanBody (text.dropWhile Text.isSpace)).behind
      (text.takeWhile Text.isSpace) id
    rwa [List.takeWhile_append_dropWhile] at this

end Address

end Typography
