import Typography.Options.Basic
import Typography.Text.Hex

/-!
# Options as JSON

Options are written as an object with the key `rootSize`, which is left out when
nothing is set. They are read from such an object, where the value may be `null`,
and from an array with at most one element, the root size. Any other key, a key
twice and any text behind the value are refused.
-/

namespace Typography.Options.Json

/-- The key of the root size. -/
def rootSizeKey : List Char :=
  "rootSize".toList

/-- The whitespace of JSON. -/
def isSpace (c : Char) : Bool :=
  c == ' ' || c == '\t' || c == '\n' || c == '\r'

/-- A text without the whitespace at its front. -/
def skipSpace (cs : List Char) : List Char :=
  cs.dropWhile isSpace

/-- The character that a one-letter escape stands for. -/
def escapedChar? : Char → Option Char
  | '"' => some '"'
  | '\\' => some '\\'
  | '/' => some '/'
  | 'b' => some '\u0008'
  | 'f' => some '\u000c'
  | 'n' => some '\n'
  | 'r' => some '\r'
  | 't' => some '\t'
  | _ => none

/-- The first half of a surrogate pair. -/
def isHighSurrogate (n : Nat) : Bool :=
  0xd800 ≤ n && n ≤ 0xdbff

/-- The second half of a surrogate pair. -/
def isLowSurrogate (n : Nat) : Bool :=
  0xdc00 ≤ n && n ≤ 0xdfff

/-- The character that two halves of a surrogate pair stand for. -/
def ofSurrogates? (high low : Nat) : Option Char :=
  if isHighSurrogate high && isLowSurrogate low then
    Text.charOf? (0x10000 + (high - 0xd800) * 0x400 + (low - 0xdc00))
  else none

/-- Reads a string from behind its opening quote. Answers the characters and the
text behind the closing quote. -/
def readString? : List Char → Option (List Char × List Char)
  | [] => none
  | '"' :: cs => some ([], cs)
  | '\\' :: 'u' :: a :: b :: c :: d :: cs => do
    let n ← Text.hexNumber? [a, b, c, d]
    match Text.charOf? n with
    | some ch =>
      let (text, rest) ← readString? cs
      return (ch :: text, rest)
    | none =>
      match cs with
      | '\\' :: 'u' :: a' :: b' :: c' :: d' :: cs =>
        let ch ← ofSurrogates? n (← Text.hexNumber? [a', b', c', d'])
        let (text, rest) ← readString? cs
        return (ch :: text, rest)
      | _ => none
  | '\\' :: c :: cs => do
    let ch ← escapedChar? c
    let (text, rest) ← readString? cs
    return (ch :: text, rest)
  | c :: cs => do
    guard (' ' ≤ c)
    let (text, rest) ← readString? cs
    return (c :: text, rest)

/-- Reads a root size, which may be `null`. -/
def readRootSize? : List Char → Option (Option String × List Char)
  | '"' :: cs => (readString? cs).map fun (text, rest) => (some (String.ofList text), rest)
  | 'n' :: 'u' :: 'l' :: 'l' :: cs => some (none, cs)
  | _ => none

/-- Reads the one member of an object from behind the quote of its key, with the
whitespace behind it. -/
def readMember? (text : List Char) : Option (Option String × List Char) := do
  let (key, rest) ← readString? text
  guard (key = rootSizeKey)
  match skipSpace rest with
  | ':' :: rest =>
    let (rootSize, rest) ← readRootSize? (skipSpace rest)
    return (rootSize, skipSpace rest)
  | _ => none

/-- Reads the brackets of an object or an array with what is inside, from behind
the opening one to behind the closing one. -/
def readContainer? : List Char → Option (Option String × List Char)
  | '{' :: cs =>
    match skipSpace cs with
    | '}' :: rest => some (none, rest)
    | '"' :: cs => do
      let (rootSize, rest) ← readMember? cs
      match rest with
      | '}' :: rest => return (rootSize, rest)
      | _ => none
    | _ => none
  | '[' :: cs =>
    match skipSpace cs with
    | ']' :: rest => some (none, rest)
    | cs => do
      let (rootSize, rest) ← readRootSize? cs
      match skipSpace rest with
      | ']' :: rest => return (rootSize, rest)
      | _ => none
  | _ => none

/-- Reads options. -/
def decode? (text : String) : Option Options := do
  let (rootSize, rest) ← readContainer? (skipSpace text.toList)
  guard (skipSpace rest).isEmpty
  return ⟨rootSize⟩

/-- The digit of a number below sixteen. -/
def hexDigit (n : Nat) : Char :=
  Char.ofNat (if n < 10 then 48 + n else 87 + n)

/-- A character as it is written in a string: the quote, the backslash and the
control characters below the space are escaped. -/
def escaped (c : Char) : List Char :=
  if c = '"' then ['\\', '"']
  else if c = '\\' then ['\\', '\\']
  else if c = '\u0008' then ['\\', 'b']
  else if c = '\u000c' then ['\\', 'f']
  else if c = '\n' then ['\\', 'n']
  else if c = '\r' then ['\\', 'r']
  else if c = '\t' then ['\\', 't']
  else if c < ' ' then
    ['\\', 'u', '0', '0', hexDigit (c.toNat / 16), hexDigit (c.toNat % 16)]
  else [c]

/-- A string with its quotes. -/
def encodeString (text : List Char) : List Char :=
  '"' :: (text.flatMap escaped ++ ['"'])

/-- Writes options. -/
def encode (options : Options) : String :=
  match options.rootSize with
  | none => "\x7b\x7d"
  | some size =>
    String.ofList
      ('{' :: encodeString rootSizeKey ++ ':' :: encodeString size.toList ++ ['}'])

end Typography.Options.Json
