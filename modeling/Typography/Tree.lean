import Typography.Node
import Typography.Source.Position

/-!
# Trees of nodes

A tree is a node with the trees below it: what a stylesheet says, without the
identity of its nodes. Reading yields trees, the layout is written from trees,
and a document is seen as the trees below its root.
-/

namespace Typography

/-- A node with its span and the trees below it, in order. -/
inductive Tree where
  | node (kind : NodeKind) (span : Option Span) (children : List Tree)
  deriving Repr

namespace Tree

/-- What the topmost node is. -/
def kind : Tree → NodeKind
  | node kind _ _ => kind

/-- Where the topmost node was read from. -/
def span : Tree → Option Span
  | node _ span _ => span

/-- The trees directly below the topmost node. -/
def children : Tree → List Tree
  | node _ _ children => children

mutual

/-- The number of nodes of a tree. -/
def size : Tree → Nat
  | node _ _ children => sizes children + 1

/-- The number of nodes of a list of trees. -/
def sizes : List Tree → Nat
  | [] => 0
  | tree :: trees => tree.size + sizes trees

end

mutual

/-- The nodes of a tree in pre-order, each with its depth when the topmost node
has the given one. -/
def nodes (depth : Nat) : Tree → List (Nat × NodeKind × Option Span)
  | node kind span children => (depth, kind, span) :: nodesOfAll (depth + 1) children

/-- The nodes of the trees of a list, one tree after the other. -/
def nodesOfAll (depth : Nat) : List Tree → List (Nat × NodeKind × Option Span)
  | [] => []
  | tree :: trees => tree.nodes depth ++ nodesOfAll depth trees

end

@[simp] theorem kind_node (kind : NodeKind) (span : Option Span) (children : List Tree) :
    (node kind span children).kind = kind := rfl

@[simp] theorem span_node (kind : NodeKind) (span : Option Span) (children : List Tree) :
    (node kind span children).span = span := rfl

@[simp] theorem children_node (kind : NodeKind) (span : Option Span)
    (children : List Tree) : (node kind span children).children = children := rfl

end Tree

end Typography
