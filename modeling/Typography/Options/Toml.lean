import Typography.Options.Basic
import Typography.Text.Hex

/-!
# Options as TOML

An options file has the one key `rootSize`, whose value is a string of any of the
four kinds: between quotes or apostrophes, on one line or, with three of them, on
several. Blank lines and comments may stand around it. A file that holds anything
else is refused, also where it is sound TOML.
-/

namespace Typography.Options.Toml

/-- The key of the root size. -/
def rootSizeKey : List Char :=
  "rootSize".toList

/-- The whitespace within a line. -/
def isBlank (c : Char) : Bool :=
  c == ' ' || c == '\t'

/-- A character that may stand in comments and strings: the tab and whatever is
not a control character of ASCII. -/
def isPlain (c : Char) : Bool :=
  c == '\t' || (' ' ≤ c && c ≠ '\u007f')

/-- A character of a key without quotes. -/
def isKeyChar (c : Char) : Bool :=
  c.isAlphanum || c == '_' || c == '-'

/-- Skips blank lines and comments, from within a comment if `inComment` holds.
There is no rest if a comment holds a control character. -/
def skipComments? : Bool → List Char → Option (List Char)
  | _, [] => some []
  | _, '\n' :: cs => skipComments? false cs
  | _, '\r' :: '\n' :: cs => skipComments? false cs
  | true, c :: cs => if isPlain c then skipComments? true cs else none
  | false, '#' :: cs => skipComments? true cs
  | false, c :: cs => if isBlank c then skipComments? false cs else some (c :: cs)

/-- The character that a one-letter escape stands for. -/
def escapedChar? : Char → Option Char
  | '"' => some '"'
  | '\\' => some '\\'
  | 'b' => some '\u0008'
  | 'f' => some '\u000c'
  | 'n' => some '\n'
  | 'r' => some '\r'
  | 't' => some '\t'
  | _ => none

/-- Reads the character whose code point is written in `count` hexadecimal
digits. -/
def readCodePoint? (count : Nat) (cs : List Char) : Option (Char × List Char) :=
  if cs.length < count then none
  else ((Text.hexNumber? (cs.take count)).bind Text.charOf?).map fun ch => (ch, cs.drop count)

/-- Reads an escape from behind its backslash. -/
def readEscape? : List Char → Option (Char × List Char)
  | [] => none
  | 'u' :: cs => readCodePoint? 4 cs
  | 'U' :: cs => readCodePoint? 8 cs
  | c :: cs => (escapedChar? c).map fun ch => (ch, cs)

theorem length_of_readCodePoint?_eq_some {count : Nat} {cs rest : List Char} {ch : Char}
    (h : readCodePoint? count cs = some (ch, rest)) : rest.length ≤ cs.length := by
  unfold readCodePoint? at h
  split at h
  · cases h
  · simp only [Option.map_eq_some_iff, Prod.mk.injEq] at h
    obtain ⟨_, _, _, rfl⟩ := h
    simp only [List.length_drop]
    omega

theorem length_of_readEscape?_eq_some {cs rest : List Char} {ch : Char}
    (h : readEscape? cs = some (ch, rest)) : rest.length < cs.length := by
  unfold readEscape? at h
  split at h
  · cases h
  · exact Nat.lt_succ_of_le (length_of_readCodePoint?_eq_some h)
  · exact Nat.lt_succ_of_le (length_of_readCodePoint?_eq_some h)
  · simp only [Option.map_eq_some_iff, Prod.mk.injEq] at h
    obtain ⟨_, _, _, rfl⟩ := h
    simp

/-- Reads a string on one line from behind its opening `quote`. -/
def readLine? (quote : Char) (hasEscapes : Bool) : List Char → Option (List Char × List Char)
  | [] => none
  | c :: cs =>
    if c = quote then some ([], cs)
    else if hasEscapes ∧ c = '\\' then
      match _h : readEscape? cs with
      | some (ch, rest) =>
        (readLine? quote hasEscapes rest).map fun (text, rest) => (ch :: text, rest)
      | none => none
    else if isPlain c then
      (readLine? quote hasEscapes cs).map fun (text, rest) => (c :: text, rest)
    else none
termination_by cs => cs.length
decreasing_by
  · have := length_of_readEscape?_eq_some _h
    simp only [List.length_cons]
    omega
  · simp

/-- The text behind a line break, if one comes next. -/
def afterLineBreak? : List Char → Option (List Char)
  | '\n' :: cs => some cs
  | '\r' :: '\n' :: cs => some cs
  | _ => none

/-- Skips blanks and line breaks. -/
def skipLines : List Char → List Char
  | '\n' :: cs => skipLines cs
  | '\r' :: '\n' :: cs => skipLines cs
  | c :: cs => if isBlank c then skipLines cs else c :: cs
  | [] => []

/-- Skips the end of a line and the blanks and line breaks behind it, from behind
a backslash that is the last character of its line but for blanks. -/
def continuation? (cs : List Char) : Option (List Char) :=
  (afterLineBreak? (cs.dropWhile isBlank)).map skipLines

theorem length_skipLines_le (cs : List Char) : (skipLines cs).length ≤ cs.length := by
  fun_induction skipLines cs with
  | case1 cs ih => exact Nat.le_succ_of_le ih
  | case2 cs ih => exact Nat.le_succ_of_le (Nat.le_succ_of_le ih)
  | case3 c cs _ _ _ ih => exact Nat.le_succ_of_le ih
  | case4 => exact Nat.le_refl _
  | case5 => exact Nat.le_refl _

theorem length_of_afterLineBreak?_eq_some {cs rest : List Char}
    (h : afterLineBreak? cs = some rest) : rest.length < cs.length := by
  unfold afterLineBreak? at h
  split at h
  · cases h
    exact Nat.lt_succ_self _
  · cases h
    exact Nat.lt_succ_of_lt (Nat.lt_succ_self _)
  · cases h

theorem length_of_continuation?_eq_some {cs rest : List Char}
    (h : continuation? cs = some rest) : rest.length < cs.length := by
  simp only [continuation?, Option.map_eq_some_iff] at h
  obtain ⟨behind, hb, rfl⟩ := h
  have h₁ := length_of_afterLineBreak?_eq_some hb
  have h₂ := length_skipLines_le behind
  have h₃ := (List.dropWhile_sublist isBlank (l := cs)).length_le
  omega

/-- Reads a string on several lines from behind its opening quotes. Three quotes
close it, and up to two more that stand before them belong to it. -/
def readLines? (quote : Char) (hasEscapes : Bool) : List Char → Option (List Char × List Char)
  | [] => none
  | c :: cs =>
    let quotes := ((c :: cs).takeWhile (· == quote)).length
    if 3 ≤ quotes then
      let inside := min (quotes - 3) 2
      some (List.replicate inside quote, (c :: cs).drop (3 + inside))
    else if hasEscapes ∧ c = '\\' then
      match _h : continuation? cs, _h' : readEscape? cs with
      | some rest, _ => readLines? quote hasEscapes rest
      | none, some (ch, rest) =>
        (readLines? quote hasEscapes rest).map fun (text, rest) => (ch :: text, rest)
      | none, none => none
    else
      match _h : afterLineBreak? (c :: cs) with
      | some rest =>
        (readLines? quote hasEscapes rest).map fun (text, rest) => ('\n' :: text, rest)
      | none =>
        if isPlain c then
          (readLines? quote hasEscapes cs).map fun (text, rest) => (c :: text, rest)
        else none
termination_by cs => cs.length
decreasing_by
  · have := length_of_continuation?_eq_some _h
    simp only [List.length_cons]
    omega
  · have := length_of_readEscape?_eq_some _h'
    simp only [List.length_cons]
    omega
  · have := length_of_afterLineBreak?_eq_some _h
    simp only [List.length_cons] at this ⊢
    omega
  · simp

/-- A text without the line break at its front. -/
def skipLineBreak (cs : List Char) : List Char :=
  (afterLineBreak? cs).getD cs

/-- Reads a string of any kind. -/
def readString? : List Char → Option (List Char × List Char)
  | '"' :: '"' :: '"' :: cs => readLines? '"' true (skipLineBreak cs)
  | '\'' :: '\'' :: '\'' :: cs => readLines? '\'' false (skipLineBreak cs)
  | '"' :: cs => readLine? '"' true cs
  | '\'' :: cs => readLine? '\'' false cs
  | _ => none

/-- Reads a key, which may stand between quotes or apostrophes. -/
def readKey? : List Char → Option (List Char × List Char)
  | '"' :: cs => readLine? '"' true cs
  | '\'' :: cs => readLine? '\'' false cs
  | cs => some (cs.takeWhile isKeyChar, cs.dropWhile isKeyChar)

/-- Reads the root size from its key on. -/
def readRootSize? (text : List Char) : Option (List Char × List Char) := do
  let (key, rest) ← readKey? text
  guard (key = rootSizeKey)
  match rest.dropWhile isBlank with
  | '=' :: rest => readString? (rest.dropWhile isBlank)
  | _ => none

/-- A text without the byte order mark at its front. -/
def skipMark : List Char → List Char
  | '\ufeff' :: cs => cs
  | cs => cs

/-- Reads options. -/
def decode? (text : String) : Option Options := do
  let text ← skipComments? false (skipMark text.toList)
  if text.isEmpty then return .unset
  let (rootSize, rest) ← readRootSize? text
  guard (skipComments? false rest = some [])
  return ⟨some (String.ofList rootSize)⟩

end Typography.Options.Toml
