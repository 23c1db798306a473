import Typography.Proofs.Stylesheet.Mark
import Typography.Stylesheet.Layout

/-!
# The layout as a row of marks

A layout writes one mark after the other: the text of the mark, and then what stands
between it and the next one, a semicolon or none and the start of a new line. So a
layout can be gone through from its front to its end without regard to the nesting,
`Layout.toList_stylesheet`.
-/

namespace Typography

namespace Mark

/-- The text of an at-rule before its block. -/
def atRuleHead (name params : String) : List Char :=
  '@' :: (name.toList ++ if params.isEmpty then [] else ' ' :: params.toList)

/-- The flag of a declaration as it is written behind the value. -/
def flag (important : Bool) : List Char :=
  if important then " !important".toList else []

/-- The text of a mark. -/
def text : Mark → List Char
  | leaf (.atRule name params _) => atRuleHead name params
  | leaf (.declaration property value important) =>
    property.toList ++ ": ".toList ++ value.toList ++ flag important
  | leaf (.comment text) => "/*".toList ++ text.toList ++ "*/".toList
  | leaf _ => []
  | opening (.atRule name params _) => atRuleHead name params ++ " \x7b".toList
  | opening (.rule selector) =>
    selector.toList ++ (if selector.isEmpty then [] else [' ']) ++ ['{']
  | opening _ => ['{']
  | closing => ['}']

/-- Whether a semicolon stands behind a mark, unless the block is closed next. -/
def needsSemicolon : Mark → Bool
  | leaf kind => kind.needsSemicolon
  | _ => false

/-- Whether a mark opens a block. -/
def isOpening : Mark → Bool
  | opening _ => true
  | _ => false

/-- A new line inside `depth` blocks. -/
def newLine (depth : Nat) : List Char :=
  '\n' :: List.replicate (4 * depth) ' '

/-- What stands behind a mark and before the next one, when `depth` blocks are open
between them. -/
def between (semicolon opened : Bool) (depth : Nat) : Option Mark → List Char
  | none => if semicolon then [';'] else []
  | some closing => if opened then [] else newLine (depth - 1)
  | some _ => (if semicolon then [';'] else []) ++ newLine depth

/-- The text of marks that stand inside `depth` blocks. -/
def written (depth : Nat) : List Mark → List Char
  | [] => []
  | mark :: marks =>
    mark.text ++ between mark.needsSemicolon mark.isOpening (mark.depthBehind depth) marks.head? ++
      written (mark.depthBehind depth) marks

theorem importantFlag_eq : importantFlag = ['!', 'i', 'm', 'p', 'o', 'r', 't', 'a', 'n', 't'] :=
  String.toList_ofList

theorem flag_true : flag true = ' ' :: importantFlag := by
  rw [importantFlag_eq]
  exact String.toList_ofList

theorem text_declaration_append (property value : String) (important : Bool) (g : List Char) :
    (leaf (.declaration property value important)).text ++ g =
      property.toList ++ ':' :: ' ' :: (value.toList ++ (flag important ++ g)) := by
  simp [text]

theorem written_cons (depth : Nat) (mark : Mark) (marks : List Mark) :
    written depth (mark :: marks) =
      mark.text ++ between mark.needsSemicolon mark.isOpening (mark.depthBehind depth)
        marks.head? ++ written (mark.depthBehind depth) marks := rfl

end Mark

namespace Layout

open Mark

theorem toList_indent (depth : Nat) : (indent depth).toList = List.replicate (4 * depth) ' ' := by
  simp [indent]

theorem toList_terminator (kind : NodeKind) :
    (terminator kind).toList = if kind.needsSemicolon then [';'] else [] := by
  unfold terminator
  split <;> rfl

/-- A statement without a block. -/
theorem toList_statement_of_not_hasBlock {kind : NodeKind} (hroot : kind ≠ .root)
    (hblock : kind.hasBlock = false) (depth : Nat) (span : Option Span) (children : List Tree) :
    (statement depth (.node kind span children)).toList = (Mark.leaf kind).text := by
  cases kind with
  | root => exact absurd rfl hroot
  | atRule name params block =>
    obtain rfl : block = false := hblock
    unfold statement Mark.text atRuleHead
    split <;> simp_all
  | rule selector => simp [NodeKind.hasBlock] at hblock
  | declaration property value important =>
    unfold statement Mark.text flag
    cases important <;> simp
  | comment text => simp [statement, Mark.text]

theorem toList_block (depth : Nat) (inside : String) :
    (block depth inside).toList =
      '{' :: ((if inside.isEmpty then [] else '\n' :: inside.toList ++ (indent depth).toList) ++
        ['}']) := by
  unfold block
  split <;> simp

/-- A statement with a block. -/
theorem toList_statement_of_hasBlock {kind : NodeKind} (hroot : kind ≠ .root)
    (hblock : kind.hasBlock) (depth : Nat) (span : Option Span) (children : List Tree) :
    (statement depth (.node kind span children)).toList =
      (Mark.opening kind).text ++ (if (lines (depth + 1) children).isEmpty then [] else
        '\n' :: (lines (depth + 1) children).toList ++ (indent depth).toList) ++ ['}'] := by
  cases kind with
  | root => exact absurd rfl hroot
  | atRule name params block =>
    obtain rfl : block = true := hblock
    unfold statement Mark.text atRuleHead
    split <;> simp_all [toList_block]
  | rule selector =>
    unfold statement Mark.text
    split <;> simp_all [toList_block]
  | declaration property value important => simp [NodeKind.hasBlock] at hblock
  | comment text => simp [NodeKind.hasBlock] at hblock

/-- Between a statement and the next one in the list. -/
theorem between_marks (semicolon opened : Bool) (depth : Nat) (tree : Tree) (marks : List Mark) :
    between semicolon opened depth (tree.marks ++ marks).head? =
      (if semicolon then [';'] else []) ++ newLine depth := by
  obtain ⟨mark, others, hmarks⟩ := List.exists_cons_of_ne_nil tree.marks_ne_nil
  rw [hmarks, List.cons_append, List.head?_cons]
  cases mark with
  | closing => exact absurd hmarks (tree.marks_ne_closing_cons others)
  | leaf kind => rfl
  | opening kind => rfl

/-- The lines of a block are the marks in it, if each statement is. -/
theorem toList_lines (depth : Nat) {trees : List Tree} (hne : trees ≠ [])
    (heach : ∀ tree ∈ trees, ∀ marks, written depth (tree.marks ++ marks) =
      (statement depth tree).toList ++
        between tree.kind.needsSemicolon false depth marks.head? ++ written depth marks)
    (marks : List Mark) :
    List.replicate (4 * depth) ' ' ++ written depth (Tree.marksOfAll trees ++ .closing :: marks) =
      (lines depth trees).toList ++ List.replicate (4 * (depth - 1)) ' ' ++
        written depth (.closing :: marks) := by
  induction trees with
  | nil => exact absurd rfl hne
  | cons tree trees ih =>
    rw [Tree.marksOfAll_cons, List.append_assoc, heach tree List.mem_cons_self]
    cases trees with
    | nil =>
      simp [lines, between, newLine, toList_indent]
    | cons other others =>
      have hrest := ih (List.cons_ne_nil _ _)
        fun t hmem => heach t (List.mem_cons_of_mem _ hmem)
      have hbetween : between tree.kind.needsSemicolon false depth
          (Tree.marksOfAll (other :: others) ++ .closing :: marks).head? =
            (if tree.kind.needsSemicolon then [';'] else []) ++ newLine depth := by
        rw [Tree.marksOfAll_cons, List.append_assoc, between_marks]
      rw [hbetween, lines]
      simp only [List.isEmpty_cons, Bool.false_eq_true, if_false, String.toList_append,
        toList_indent, toList_terminator, newLine, List.append_assoc, List.cons_append] at hrest ⊢
      rw [hrest]
      rfl

/-- A statement is its marks. -/
theorem written_marks (tree : Tree) (h : tree.Orderly) :
    ∀ (depth : Nat) (marks : List Mark), written depth (tree.marks ++ marks) =
      (statement depth tree).toList ++
        between tree.kind.needsSemicolon false depth marks.head? ++ written depth marks := by
  induction tree using Tree.induction with
  | step kind span children ih =>
    intro depth marks
    cases hblock : kind.hasBlock with
    | false =>
      rw [Tree.marks_of_not_hasBlock hblock, List.singleton_append, written_cons,
        toList_statement_of_not_hasBlock h.1 hblock]
      rfl
    | true =>
      have hsemicolon : kind.needsSemicolon = false := by
        cases kind <;> simp_all [NodeKind.hasBlock, NodeKind.needsSemicolon]
      rw [Tree.marks_of_hasBlock hblock, toList_statement_of_hasBlock h.1 hblock, List.cons_append,
        List.append_assoc, List.singleton_append, written_cons, Tree.kind_node, hsemicolon]
      have hclosing : written (depth + 1) (.closing :: marks) =
          '}' :: (between false false depth marks.head? ++ written depth marks) := rfl
      cases children with
      | nil => simp [Mark.depthBehind, hclosing, lines, between, isOpening]
      | cons child others =>
        have hlines := toList_lines (depth + 1) (List.cons_ne_nil child others)
          (fun tree hmem => ih tree hmem (Tree.allOrderly_iff.mp h.2.2 tree hmem) (depth + 1))
          marks
        have hbetween : between false true (depth + 1)
            (Tree.marksOfAll (child :: others) ++ .closing :: marks).head? =
              newLine (depth + 1) := by
          rw [Tree.marksOfAll_cons, List.append_assoc, between_marks]
          rfl
        have hisEmpty : (lines (depth + 1) (child :: others)).isEmpty = false := by
          rw [← Bool.not_eq_true, String.isEmpty_iff]
          intro hnil
          have := congrArg String.toList hnil
          simp [lines] at this
        simp only [Mark.depthBehind, needsSemicolon, isOpening, hbetween, hisEmpty,
          Bool.false_eq_true, if_false, newLine, List.append_assoc, List.cons_append] at hlines ⊢
        rw [hlines, hclosing, toList_indent]
        simp

/-- A layout is the marks of its trees. -/
theorem toList_stylesheet {trees : List Tree} (h : Tree.AllOrderly trees) :
    (stylesheet trees).toList = written 0 (Tree.marksOfAll trees) := by
  induction trees with
  | nil => rfl
  | cons tree trees ih =>
    rw [Tree.marksOfAll_cons, written_marks tree h.1, ← ih h.2, stylesheet]
    cases trees with
    | nil => simp [between, toList_terminator, stylesheet]
    | cons other others =>
      rw [Tree.marksOfAll_cons, between_marks]
      simp [toList_terminator, newLine]

end Layout

end Typography
