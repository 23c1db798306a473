import Typography.Tree

/-!
# The layout of a stylesheet

Trees are written one statement a line, four spaces deeper inside each block. A
declaration or an at-rule without a block ends with a semicolon, except as the
last statement of a block. A block without nodes is `{}`.

What stands below a node is written for rules and for at-rules with a block
only.
-/

namespace Typography.Layout

/-- The indentation of a line inside `depth` blocks. -/
def indent (depth : Nat) : String :=
  String.ofList (List.replicate (4 * depth) ' ')

/-- The end of a statement that another one follows. -/
def terminator (kind : NodeKind) : String :=
  if kind.needsSemicolon then ";" else ""

/-- A block around its lines, whose opening line stands inside `depth` blocks. -/
def block (depth : Nat) (inside : String) : String :=
  if inside.isEmpty then "\x7b\x7d" else "\x7b\n" ++ inside ++ indent depth ++ "\x7d"

mutual

/-- Writes a tree whose first line stands inside `depth` blocks. -/
def statement (depth : Nat) : Tree → String
  | .node .root _ _ => ""
  | .node (.atRule name params hasBlock) _ children =>
    "@" ++ name ++ (if params.isEmpty then "" else " " ++ params) ++
      (if hasBlock then " " ++ block depth (lines (depth + 1) children) else "")
  | .node (.rule selector) _ children =>
    selector ++ (if selector.isEmpty then "" else " ") ++
      block depth (lines (depth + 1) children)
  | .node (.declaration property value important) _ _ =>
    property ++ ": " ++ value ++ (if important then " !important" else "")
  | .node (.comment text) _ _ => "/*" ++ text ++ "*/"

/-- Writes the lines of a block, which stand inside `depth` blocks. -/
def lines (depth : Nat) : List Tree → String
  | [] => ""
  | tree :: trees =>
    indent depth ++ statement depth tree ++
      (if trees.isEmpty then "" else terminator tree.kind) ++ "\n" ++ lines depth trees

end

/-- Writes the statements of a stylesheet. -/
def stylesheet : List Tree → String
  | [] => ""
  | tree :: trees =>
    statement 0 tree ++ terminator tree.kind ++
      (if trees.isEmpty then "" else "\n" ++ stylesheet trees)

end Typography.Layout
