import Typography.Stylesheet.Prelude
import Typography.Stylesheet.Statement
import Typography.Tree

/-!
# Reading a stylesheet

A reader goes through the text of a stylesheet one item at a time: whitespace or
a semicolon, a comment, a statement without a block, the opening of a block, or
the closing of one. It holds the blocks that are open, each with the nodes read
before it, so nesting needs no recursion.

Every text is a stylesheet. A statement that makes no sense is skipped with a
warning, and the end of the text closes the blocks that are still open. Each item
takes at least one character away, `length_unread_step_lt`, so reading ends.
-/

namespace Typography

/-- The text that is still to be read, and where it starts. -/
structure Cursor where
  unread : List Char
  position : Position
  deriving Repr

namespace Cursor

/-- The cursor before the first character of a text. -/
def ofText (text : List Char) : Cursor := ⟨text, .start⟩

/-- The cursor behind what was scanned. -/
def pass {α : Type} (cursor : Cursor) (s : Scan α) : Cursor :=
  ⟨s.rest, cursor.position.after s.lexeme⟩

end Cursor

/-- A block whose end has not been read: the kind of its node, the start of the
node, and the nodes before it, latest first. -/
structure OpenBlock where
  kind : NodeKind
  start : Position
  earlier : List Tree
  deriving Repr

/-- The nodes of the surrounding list when a block ends at `stop` with the nodes
`inside`; both lists have the latest node first. -/
def OpenBlock.close (block : OpenBlock) (stop : Position) (inside : List Tree) :
    List Tree :=
  .node block.kind (some ⟨block.start, some stop⟩) inside.reverse :: block.earlier

/-- A reader on its way: the cursor, the nodes of the list it is in, the blocks
around that list from the inside out, and the warnings. Nodes and warnings have
the latest first. -/
structure Reader where
  cursor : Cursor
  siblings : List Tree
  enclosing : List OpenBlock
  warnings : List Warning
  deriving Repr

namespace Reader

/-- The reader before the first character of a text. -/
def ofText (text : List Char) : Reader := ⟨.ofText text, [], [], []⟩

/-- The reader behind what was scanned. -/
def pass {α : Type} (r : Reader) (s : Scan α) : Reader :=
  { r with cursor := r.cursor.pass s }

/-- Adds a node without children that starts at `start` and ends here. -/
def place (r : Reader) (start : Position) (kind : NodeKind) : Reader :=
  { r with
    siblings := .node kind (some ⟨start, some r.cursor.position⟩) [] :: r.siblings }

/-- Adds a warning about a statement that starts at `start`. -/
def warn (r : Reader) (start : Position) (reason : SkipReason) : Reader :=
  { r with warnings := ⟨start, reason⟩ :: r.warnings }

/-- Opens the block of a node that starts at `start`. -/
def openBlock (r : Reader) (start : Position) (kind : NodeKind) : Reader :=
  { r with siblings := [], enclosing := ⟨kind, start, r.siblings⟩ :: r.enclosing }

/-- Closes the innermost block here. -/
def closeBlock (r : Reader) : Reader :=
  match r.enclosing with
  | [] => r
  | block :: outer =>
    { r with
      siblings := block.close r.cursor.position r.siblings
      enclosing := outer }

/-- Whether the reader is inside a block. -/
def inBlock (r : Reader) : Bool :=
  !r.enclosing.isEmpty

/-- Ends a statement that starts at `start` and opens no block. -/
def endStatement (r : Reader) (start : Position) (outcome : Except SkipReason NodeKind) :
    Reader :=
  match outcome with
  | .ok kind => r.place start kind
  | .error reason => r.warn start reason

/-- Reads on from a prelude, whose statement starts at `start`. A block makes a
node of the kind `withBlock` of it; otherwise the statement ends, together with a
semicolon if one comes next, and `outcome` is what it means. -/
def behindPrelude (r : Reader) (start : Position) (head : Scan (List Piece))
    (withBlock : NodeKind) (outcome : Except SkipReason NodeKind) : Reader :=
  match head.rest with
  | '{' :: rest => ((r.pass head).pass ⟨['{'], (), rest⟩).openBlock start withBlock
  | ';' :: rest => ((r.pass head).pass ⟨[';'], (), rest⟩).endStatement start outcome
  | _ => (r.pass head).endStatement start outcome

/-- Reads an at-rule that starts at `start`, from behind its name. -/
def readAtRule (r : Reader) (start : Position) (name : List Char) : Reader :=
  let head := Prelude.scan r.inBlock r.cursor.unread
  let params := String.ofList (Text.trim (Prelude.kept head.value))
  let name := String.ofList name
  r.behindPrelude start head (.atRule name params true) (.ok (.atRule name params false))

/-- Reads a rule or a declaration. -/
def readStatement (r : Reader) : Reader :=
  let head := Prelude.scan r.inBlock r.cursor.unread
  let text := Prelude.kept head.value
  r.behindPrelude r.cursor.position head (.rule (String.ofList (Text.trim text)))
    (readDeclaration text)

/-- Reads an item, of which the token `t` comes first. -/
def step (r : Reader) (t : Scan Token) : Reader :=
  match t.value with
  | .space | .delimiter ';' => r.pass t
  | .comment body => (r.pass t).place r.cursor.position (.comment (String.ofList body))
  | .atKeyword name => (r.pass t).readAtRule r.cursor.position name
  | .closing .curly => if r.inBlock then (r.pass t).closeBlock else r.readStatement
  | _ => r.readStatement

@[simp] theorem unread_pass {α : Type} (r : Reader) (s : Scan α) :
    (r.pass s).cursor.unread = s.rest := rfl

@[simp] theorem cursor_place (r : Reader) (start : Position) (kind : NodeKind) :
    (r.place start kind).cursor = r.cursor := rfl

@[simp] theorem cursor_openBlock (r : Reader) (start : Position) (kind : NodeKind) :
    (r.openBlock start kind).cursor = r.cursor := rfl

@[simp] theorem cursor_closeBlock (r : Reader) : r.closeBlock.cursor = r.cursor := by
  unfold closeBlock
  split <;> rfl

@[simp] theorem cursor_endStatement (r : Reader) (start : Position)
    (outcome : Except SkipReason NodeKind) :
    (r.endStatement start outcome).cursor = r.cursor := by
  cases outcome <;> rfl

/-- The opening of a block is read together with the prelude before it. -/
theorem unread_behindPrelude_of_curly {r : Reader} {start : Position}
    {head : Scan (List Piece)} {withBlock : NodeKind}
    {outcome : Except SkipReason NodeKind} {rest : List Char}
    (h : head.rest = '{' :: rest) :
    (r.behindPrelude start head withBlock outcome).cursor.unread = rest := by
  unfold behindPrelude
  split
  · rename_i hr
    rw [hr] at h
    simpa using h
  · rename_i hr
    rw [hr] at h
    simp at h
  · rename_i hr _
    exact absurd h (hr rest)

/-- Behind a prelude no more is unread than the rest of the prelude. -/
theorem length_unread_behindPrelude_le (r : Reader) (start : Position)
    (head : Scan (List Piece)) (withBlock : NodeKind)
    (outcome : Except SkipReason NodeKind) :
    (r.behindPrelude start head withBlock outcome).cursor.unread.length ≤
      head.rest.length := by
  unfold behindPrelude
  split
  · rename_i hr
    simp [hr]
  · rename_i hr
    simp [hr]
  · simp

theorem length_unread_readAtRule_le (r : Reader) (start : Position) (name : List Char) :
    (r.readAtRule start name).cursor.unread.length ≤ r.cursor.unread.length :=
  Nat.le_trans (length_unread_behindPrelude_le ..)
    (Prelude.splits_scan r.inBlock r.cursor.unread).length_rest_le

/-- A statement takes a character away unless a semicolon, the end of the block
around it or the end of the text comes first. -/
theorem length_unread_readStatement_lt {r : Reader}
    (h : ∀ c cs, r.cursor.unread = c :: cs → c ≠ ';' ∧ (r.inBlock → c ≠ '}'))
    (hne : r.cursor.unread ≠ []) :
    r.readStatement.cursor.unread.length < r.cursor.unread.length := by
  obtain ⟨c, cs, hu⟩ := List.exists_cons_of_ne_nil hne
  obtain ⟨hsemi, hcurly⟩ := h c cs hu
  by_cases hopen : c = '{'
  · subst hopen
    have hs : Prelude.scan r.inBlock r.cursor.unread = ⟨[], [], r.cursor.unread⟩ := by
      unfold Prelude.scan
      simp [hu, Prelude.endsBefore]
    have hrest : (Prelude.scan r.inBlock r.cursor.unread).rest = '{' :: cs := by
      rw [hs, hu]
    rw [readStatement, unread_behindPrelude_of_curly hrest, hu]
    simp
  · have hends : Prelude.endsBefore r.inBlock r.cursor.unread = false := by
      simp only [hu, Prelude.endsBefore]
      by_cases hb : r.inBlock <;> simp_all
    exact Nat.lt_of_le_of_lt (length_unread_behindPrelude_le ..)
      ((Prelude.splits_scan r.inBlock r.cursor.unread).length_rest_lt
        (Prelude.lexeme_scan_ne_nil hends))

/-- A token that starts with a semicolon is one, and a token that starts with a
closing curly bracket is one. -/
theorem value_eq_ofChar_of_scan? {c : Char} {cs : List Char} {t : Scan Token}
    (hc : c = ';' ∨ c = '}') (h : Token.scan? (c :: cs) = some t) :
    t.value = Token.ofChar c := by
  rcases hc with rfl | rfl <;>
    simp [Token.scan?, Text.isSpace, Text.isLineBreak, Numeric.extent, Numeric.sign,
      Numeric.digits, Numeric.fraction, Name.starts, Name.isStart,
      Token.scanSign] at h <;>
    subst h <;> split <;> rfl

/-- Every item takes at least one character away. -/
theorem length_unread_step_lt {r : Reader} {t : Scan Token}
    (h : Token.scan? r.cursor.unread = some t) :
    (r.step t).cursor.unread.length < r.cursor.unread.length := by
  have hrest := Token.length_rest_lt_of_scan?_eq_some h
  have hne : r.cursor.unread ≠ [] := by
    intro hnil
    rw [hnil] at h
    simp [Token.scan?] at h
  have hfirst : ∀ c cs, r.cursor.unread = c :: cs → c = ';' ∨ c = '}' →
      t.value = Token.ofChar c := fun c cs hu hc =>
    value_eq_ofChar_of_scan? hc (hu ▸ h)
  unfold step
  split
  · exact hrest
  · exact hrest
  · simpa using hrest
  · exact Nat.lt_of_le_of_lt (length_unread_readAtRule_le ..) hrest
  · rename_i hv
    split
    · simpa using hrest
    · rename_i hb
      refine length_unread_readStatement_lt (fun c cs hu => ⟨?_, fun h => absurd h hb⟩) hne
      rintro rfl
      simp [hfirst _ _ hu (.inl rfl), Token.ofChar] at hv
  · rename_i hv₁ hv₂ hv₃ hv₄ hv₅
    refine length_unread_readStatement_lt (fun c cs hu => ⟨?_, fun _ => ?_⟩) hne
    · rintro rfl
      exact hv₂ (hfirst _ _ hu (.inl rfl))
    · rintro rfl
      exact hv₅ (hfirst _ _ hu (.inr rfl))

/-- Reads all items. -/
def run (r : Reader) : Reader :=
  match _h : Token.scan? r.cursor.unread with
  | none => r
  | some t => (r.step t).run
termination_by r.cursor.unread.length
decreasing_by exact length_unread_step_lt _h

end Reader

/-- The nodes when the blocks of `enclosing`, from the inside out, all end at
`stop`; the nodes have the latest first. -/
def closeBlocks (stop : Position) : List OpenBlock → List Tree → List Tree
  | [], siblings => siblings
  | block :: outer, siblings => closeBlocks stop outer (block.close stop siblings)

/-- What was read from a stylesheet: the trees and the warnings, in order. -/
structure Reading where
  trees : List Tree
  warnings : List Warning
  deriving Repr

/-- Ends the reading where the reader is. -/
def Reader.finish (r : Reader) : Reading :=
  ⟨(closeBlocks r.cursor.position r.enclosing r.siblings).reverse, r.warnings.reverse⟩

/-- Reads a stylesheet. -/
def Reading.ofText (text : String) : Reading :=
  (Reader.ofText text.toList).run.finish

end Typography
