import Typography.Token.Address
import Typography.Token.Name
import Typography.Token.Numeric
import Typography.Token.Quoted

/-!
# Tokens

The tokens of a stylesheet and the scanner that reads the one at the front of a
text. `Token.scan?` answers on every text but the empty one, and the lexeme it
finds is never empty; both together make reading come to an end. The value of a
token is free of escapes, its lexeme is the text as it is written.
-/

namespace Typography

/-- The three pairs of brackets. -/
inductive Bracket where
  | round
  | square
  | curly
  deriving DecidableEq, Repr

/-- A token of a stylesheet. -/
inductive Token where
  /-- A run of whitespace. -/
  | space
  /-- A comment, without its delimiters. -/
  | comment (body : List Char)
  /-- A name behind `@`. -/
  | atKeyword (name : List Char)
  /-- A name alone. -/
  | identifier (name : List Char)
  /-- A name with an opening parenthesis. -/
  | function (name : List Char)
  /-- A name behind `#`, and whether it starts like an identifier. -/
  | hash (name : List Char) (isIdentifier : Bool)
  /-- A text between quotes, or from a quote to a line break. -/
  | quoted (text : Quoted)
  /-- The word `url` with an address between parentheses. -/
  | url (address : Address)
  /-- A number, as it is written. -/
  | number (digits : List Char)
  /-- A number with a percent sign. -/
  | percentage (digits : List Char)
  /-- A number with a unit. -/
  | dimension (digits unit : List Char)
  /-- An opening bracket without a name. -/
  | opening (bracket : Bracket)
  /-- A closing bracket. -/
  | closing (bracket : Bracket)
  /-- One of `~=`, `|=`, `^=`, `$=` and `*=`, by its first character. -/
  | comparison (sign : Char)
  /-- The opening of a comment of the embedding markup. -/
  | markupOpening
  /-- The closing of a comment of the embedding markup. -/
  | markupClosing
  /-- Any other character. -/
  | delimiter (c : Char)
  deriving DecidableEq, Repr

namespace Token

/-- The bracket that a token opens; a function opens a round one. -/
def opened? : Token → Option Bracket
  | opening bracket => some bracket
  | function _ => some .round
  | _ => none

/-- The bracket that a token closes. -/
def closed? : Token → Option Bracket
  | closing bracket => some bracket
  | _ => none

/-- Reads a comment from behind its opening. Without a closing it runs to the
end of the text. -/
def scanComment : List Char → Scan (List Char)
  | [] => ⟨[], [], []⟩
  | '*' :: '/' :: cs => ⟨['*', '/'], [], cs⟩
  | c :: cs => (scanComment cs).behind [c] (c :: ·)

/-- Reads a number with its unit or percent sign. -/
def scanNumeric (text : List Char) : Scan Token :=
  let n := Numeric.scan text
  match n.rest with
  | '%' :: cs => ⟨n.lexeme ++ ['%'], percentage n.value, cs⟩
  | rest =>
    if Name.starts rest then (Name.scan rest).behind n.lexeme (dimension n.value)
    else n.map number

/-- Reads a name and what it turns into: with a parenthesis behind it a function
or, for the name `url` in any case, an address. -/
def scanNamed (text : List Char) : Scan Token :=
  let n := Name.scan text
  match n.rest with
  | '(' :: cs =>
    if n.value.map Char.toLower = ['u', 'r', 'l'] then
      match Address.scan? cs with
      | some address => address.behind (n.lexeme ++ ['(']) url
      | none => ⟨n.lexeme ++ ['('], function n.value, cs⟩
    else ⟨n.lexeme ++ ['('], function n.value, cs⟩
  | _ => n.map identifier

/-- The token of a character that belongs to no longer one. -/
def ofChar : Char → Token
  | '(' => opening .round
  | '[' => opening .square
  | '{' => opening .curly
  | ')' => closing .round
  | ']' => closing .square
  | '}' => closing .curly
  | c => delimiter c

/-- Reads a token that starts with the character `c` and is neither whitespace,
a comment, a number, a name nor a quoted text. -/
def scanSign (c : Char) (cs : List Char) : Scan Token :=
  if c = '#' ∧ Name.startsHash cs then
    (Name.scan cs).behind [c] fun name => hash name (Name.starts cs)
  else if c = '@' ∧ Name.starts cs then
    (Name.scan cs).behind [c] atKeyword
  else
    match cs with
    | '=' :: rest =>
      if c ∈ ['~', '|', '^', '$', '*'] then ⟨[c, '='], comparison c, rest⟩
      else ⟨[c], ofChar c, cs⟩
    | _ => ⟨[c], ofChar c, cs⟩

/-- Reads the token at the front of a text. -/
def scan? (text : List Char) : Option (Scan Token) :=
  match text with
  | [] => none
  | '/' :: '*' :: cs => some ((scanComment cs).behind ['/', '*'] comment)
  | '<' :: '!' :: '-' :: '-' :: cs => some ⟨['<', '!', '-', '-'], markupOpening, cs⟩
  | '-' :: '-' :: '>' :: cs => some ⟨['-', '-', '>'], markupClosing, cs⟩
  | c :: cs =>
    some <|
      if Text.isSpace c then (Scan.takeWhile Text.isSpace (c :: cs)).map fun _ => space
      else if c = '"' ∨ c = '\'' then (Quoted.scan c cs).behind [c] quoted
      else if (Numeric.extent (c :: cs)).isEmpty = false then scanNumeric (c :: cs)
      else if Name.starts (c :: cs) then scanNamed (c :: cs)
      else scanSign c cs

theorem splits_scanComment (text : List Char) : (scanComment text).Splits text := by
  fun_induction scanComment text with
  | case1 => rfl
  | case2 => rfl
  | case3 c cs _ ih => exact ih.behind_cons c _

theorem splits_scanNumeric (text : List Char) : (scanNumeric text).Splits text := by
  have h := Numeric.splits_scan text
  unfold scanNumeric
  simp only
  split
  · rename_i cs hr
    rw [Scan.Splits, hr] at h
    simpa [Scan.Splits] using h
  · split
    · have := (Name.splits_scan (Numeric.scan text).rest).behind (Numeric.scan text).lexeme
        (dimension (Numeric.scan text).value)
      rwa [h] at this
    · exact h

theorem splits_scanNamed (text : List Char) : (scanNamed text).Splits text := by
  have h := Name.splits_scan text
  unfold scanNamed
  simp only
  split
  · rename_i cs hr
    rw [Scan.Splits, hr] at h
    have h' : ((Name.scan text).lexeme ++ ['(']) ++ cs = text := by simpa using h
    split
    · split
      · rename_i address ha
        have := (Address.splits_of_scan?_eq_some ha).behind
          ((Name.scan text).lexeme ++ ['(']) url
        rwa [h'] at this
      · exact h'
    · exact h'
  · exact h

theorem splits_scanSign (c : Char) (cs : List Char) : (scanSign c cs).Splits (c :: cs) := by
  unfold scanSign
  split
  · exact (Name.splits_scan cs).behind_cons c _
  · split
    · exact (Name.splits_scan cs).behind_cons c _
    · split
      · split <;> rfl
      · rfl

/-- A token and the rest make up the text. -/
theorem splits_of_scan?_eq_some {text : List Char} {s : Scan Token}
    (h : scan? text = some s) : s.Splits text := by
  unfold scan? at h
  split at h
  · simp at h
  · cases h
    exact (splits_scanComment _).behind _ _
  · cases h
    rfl
  · cases h
    rfl
  · rename_i c cs _ _ _
    cases h
    split
    · exact Scan.splits_takeWhile Text.isSpace (c :: cs)
    · split
      · exact (Quoted.splits_scan c cs).behind_cons c _
      · split
        · exact splits_scanNumeric (c :: cs)
        · split
          · exact splits_scanNamed (c :: cs)
          · exact splits_scanSign c cs

theorem lexeme_scanNumeric_ne_nil {text : List Char} (h : Numeric.extent text ≠ []) :
    (scanNumeric text).lexeme ≠ [] := by
  unfold scanNumeric
  simp only
  split
  · simp
  · split
    · simp [Numeric.scan, h]
    · simpa [Numeric.scan] using h

theorem lexeme_scanNamed_ne_nil {text : List Char} (h : Name.starts text) :
    (scanNamed text).lexeme ≠ [] := by
  unfold scanNamed
  simp only
  split
  · split
    · split <;> simp
    · simp
  · exact Name.lexeme_scan_ne_nil h

theorem lexeme_scanSign_ne_nil (c : Char) (cs : List Char) :
    (scanSign c cs).lexeme ≠ [] := by
  unfold scanSign
  split
  · simp
  · split
    · simp
    · split
      · split <;> simp
      · simp

/-- No token is empty. -/
theorem lexeme_ne_nil_of_scan?_eq_some {text : List Char} {s : Scan Token}
    (h : scan? text = some s) : s.lexeme ≠ [] := by
  unfold scan? at h
  split at h
  · simp at h
  · cases h
    simp
  · cases h
    simp
  · cases h
    simp
  · rename_i c cs _ _ _
    cases h
    split
    · rename_i hc
      simp [Scan.takeWhile, hc]
    · split
      · simp
      · split
        · rename_i hn
          exact lexeme_scanNumeric_ne_nil (by simpa using hn)
        · split
          · rename_i hn
            exact lexeme_scanNamed_ne_nil hn
          · exact lexeme_scanSign_ne_nil c cs

/-- The text behind a token is shorter. -/
theorem length_rest_lt_of_scan?_eq_some {text : List Char} {s : Scan Token}
    (h : scan? text = some s) : s.rest.length < text.length :=
  (splits_of_scan?_eq_some h).length_rest_lt (lexeme_ne_nil_of_scan?_eq_some h)

/-- Only the empty text has no token at its front. -/
@[simp] theorem scan?_eq_none_iff {text : List Char} : scan? text = none ↔ text = [] := by
  unfold scan?
  split <;> simp

end Token

end Typography
