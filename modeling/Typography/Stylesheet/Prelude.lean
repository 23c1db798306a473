import Typography.Text.Blank
import Typography.Token.Basic

/-!
# Preludes

The prelude of a statement is its text up to a semicolon or a block of its own,
or to the end of the block around it. It is cut into pieces: whitespace,
comments, and everything else, where brackets with what is inside them are one
piece.

What is kept of a prelude is its text without loose comments. A comment is loose
when whitespace or an end of the prelude is beside it; a comment wedged between
two other pieces stays, so that it goes on keeping them apart.
-/

namespace Typography

/-- The brackets that are open behind a token, innermost first, when those of
`brackets` are open before it. A closing bracket that does not match the
innermost one is ignored. -/
def Token.nest (token : Token) (brackets : List Bracket) : List Bracket :=
  match token.opened?, token.closed?, brackets with
  | some bracket, _, _ => bracket :: brackets
  | none, some bracket, innermost :: outer =>
    if bracket = innermost then outer else brackets
  | none, _, _ => brackets

/-- Reads to the end of the open brackets, which the end of the text closes. -/
def scanBrackets (brackets : List Bracket) (text : List Char) : Scan Unit :=
  if brackets.isEmpty then ⟨[], (), text⟩
  else
    match _h : Token.scan? text with
    | none => ⟨[], (), text⟩
    | some t => (scanBrackets (t.value.nest brackets) t.rest).behind t.lexeme id
termination_by text.length
decreasing_by exact Token.length_rest_lt_of_scan?_eq_some _h

theorem splits_scanBrackets (brackets : List Bracket) (text : List Char) :
    (scanBrackets brackets text).Splits text := by
  fun_induction scanBrackets brackets text with
  | case1 => rfl
  | case2 => rfl
  | case3 brackets text _ t h ih =>
    have := ih.behind t.lexeme id
    rwa [Token.splits_of_scan?_eq_some h] at this

/-- What kind of piece of a prelude a stretch of text is. -/
inductive PieceKind where
  | space
  | comment
  | solid
  deriving DecidableEq, Repr

/-- The kind of piece that a token starts. -/
def Token.pieceKind : Token → PieceKind
  | space => .space
  | comment _ => .comment
  | _ => .solid

/-- A piece of a prelude. -/
structure Piece where
  kind : PieceKind
  text : List Char
  deriving DecidableEq, Repr

namespace Prelude

/-- Whether a prelude ends before this text. The closing curly bracket ends it
inside a block only. -/
def endsBefore (inBlock : Bool) : List Char → Bool
  | [] => true
  | c :: _ => c == ';' || c == '{' || (inBlock && c == '}')

/-- Reads the pieces of a prelude. -/
def scan (inBlock : Bool) (text : List Char) : Scan (List Piece) :=
  if endsBefore inBlock text then ⟨[], [], text⟩
  else
    match _h : Token.scan? text with
    | none => ⟨[], [], text⟩
    | some t =>
      let inside := scanBrackets t.value.opened?.toList t.rest
      (scan inBlock inside.rest).behind (t.lexeme ++ inside.lexeme)
        (⟨t.value.pieceKind, t.lexeme ++ inside.lexeme⟩ :: ·)
termination_by text.length
decreasing_by
  have := Token.length_rest_lt_of_scan?_eq_some _h
  have := (splits_scanBrackets t.value.opened?.toList t.rest).length_rest_le
  omega

theorem splits_scan (inBlock : Bool) (text : List Char) :
    (scan inBlock text).Splits text := by
  fun_induction scan inBlock text with
  | case1 => rfl
  | case2 => rfl
  | case3 text _ t h inside ih =>
    have := ih.behind (t.lexeme ++ inside.lexeme)
      (⟨t.value.pieceKind, t.lexeme ++ inside.lexeme⟩ :: ·)
    rwa [List.append_assoc, splits_scanBrackets, Token.splits_of_scan?_eq_some h] at this

/-- A prelude that does not end at once has a character. -/
theorem lexeme_scan_ne_nil {inBlock : Bool} {text : List Char}
    (h : endsBefore inBlock text = false) : (scan inBlock text).lexeme ≠ [] := by
  unfold scan
  simp only [h, Bool.false_eq_true, if_false]
  split
  · rename_i ht
    rw [Token.scan?_eq_none_iff] at ht
    simp [ht, endsBefore] at h
  · rename_i t ht
    simp [Token.lexeme_ne_nil_of_scan?_eq_some ht]

/-- Whether a comment beside this piece is loose: it is whitespace, or the
comment stands at an end. -/
def loosens : Option Piece → Bool
  | none => true
  | some piece => piece.kind == .space

/-- The text that is kept of pieces behind the piece `previous`. -/
def keptFrom (previous : Option Piece) : List Piece → List Char
  | [] => []
  | piece :: pieces =>
    (if piece.kind == .comment && (loosens previous || loosens pieces.head?) then []
      else piece.text) ++ keptFrom (some piece) pieces

/-- The text that is kept of a prelude: its pieces without the loose comments. -/
def kept (pieces : List Piece) : List Char :=
  keptFrom none pieces

end Prelude

end Typography
