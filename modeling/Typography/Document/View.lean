import Typography.Document.Basic
import Typography.Tree

/-!
# Looking at a document

The nodes above a node, the nodes below it in pre-order and in post-order, and the
trees below the root. Each follows links between nodes, one level at a time, and no chain of
links is longer than the row of slots; so the number of slots bounds the levels.
-/

namespace Typography.Document

/-- A node and those above it, from the bottom up, `levels` at most. -/
def lineageWithin (d : Document) : Nat → NodeId → List NodeId
  | 0, _ => []
  | levels + 1, id =>
    id :: match (d.get? id).bind Node.parent with
      | some parent => d.lineageWithin levels parent
      | none => []

/-- A node and those above it, from the bottom up. -/
def lineage (d : Document) (id : NodeId) : List NodeId :=
  d.lineageWithin d.slots.size id

/-- The nodes of a list with those below them, `levels` deep at most. A node is put
to the nodes below it by `join`. -/
def gatherWithin (d : Document) (join : NodeId → List NodeId → List NodeId) :
    Nat → List NodeId → Except TreeError (List NodeId)
  | 0, _ => return []
  | levels + 1, ids => do
    let parts ← ids.mapM fun id => do
      let node ← d.find id
      let below ← d.gatherWithin join levels node.children
      return join id below
    return parts.flatten

/-- The nodes below a node, in pre-order. -/
def walk (d : Document) (id : NodeId) : Except TreeError (List NodeId) := do
  let node ← d.find id
  d.gatherWithin List.cons d.slots.size node.children

/-- The nodes below a node, children before parents. -/
def descendants (d : Document) (id : NodeId) : Except TreeError (List NodeId) := do
  let node ← d.find id
  d.gatherWithin (fun id below => below ++ [id]) d.slots.size node.children

/-- The trees of the nodes of a list, `levels` deep at most. -/
def treesWithin (d : Document) : Nat → List NodeId → List Tree
  | 0, _ => []
  | levels + 1, ids =>
    ids.filterMap fun id =>
      (d.get? id).map fun node =>
        .node node.kind node.span (d.treesWithin levels node.children)

/-- The trees of the nodes of a list. -/
def treesOf (d : Document) (ids : List NodeId) : List Tree :=
  d.treesWithin d.slots.size ids

/-- The trees below the root. -/
def trees (d : Document) : List Tree :=
  match d.get? .root with
  | some root => d.treesOf root.children
  | none => []

end Typography.Document
