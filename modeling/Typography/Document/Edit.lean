import Typography.Document.View

/-!
# Editing a document

An edit changes a document and may be refused. A refused edit leaves the document
as far as it came, so that an edit in several steps is the sequence of its steps;
that no step is refused once the first change was made is a fact about the edits
below and not a part of their definition.
-/

namespace Typography

/-- A change of a document that may be refused. -/
abbrev Edit (α : Type) := ExceptT TreeError (StateM Document) α

namespace Document

/-- Takes a node away from its parent. -/
def detach (d : Document) (id : NodeId) : Document :=
  match (d.get? id).bind Node.parent with
  | none => d
  | some parent =>
    (d.modify id fun node => { node with parent := none }).modify parent fun node =>
      { node with children := node.children.filter (· ≠ id) }

/-- Puts a node that has no parent at a place among the children of `parent`,
which gets a block if it is an at-rule. -/
def attach (d : Document) (parent : NodeId) (index : Nat) (child : NodeId) : Document :=
  (d.modify parent fun node =>
    { node with
      children := node.children.insertIdx index child
      kind := node.kind.withBlock }).modify child fun node =>
        { node with parent := some parent }

/-- The reason why a node cannot be put below `parent`, if there is one. -/
def checkInsertable (d : Document) (parent id : NodeId) : Except TreeError Unit := do
  let node ← d.find parent
  if !node.kind.isContainer then throw .notAContainer
  if id = .root then throw .rootNode
  let _ ← d.find id
  if id ∈ d.lineage parent then throw .circularParentage

end Document

namespace Edit

/-- A question about the document, which changes nothing. -/
def ask {α : Type} (f : Document → Except TreeError α) : Edit α := do
  f (← get)

/-- A change that is never refused. -/
def change (f : Document → Document) : Edit Unit :=
  modify f

/-- Creates a node that has no parent. -/
def create (kind : NodeKind) : Edit NodeId := do
  let d ← get
  set (d.push (.ofKind kind))
  return d.nextId

/-- Sets or clears the span of a node. -/
def setSpan (id : NodeId) (span : Option Span) : Edit Unit := do
  let _ ← ask (·.find id)
  change (·.modify id fun node => { node with span })

/-- Makes a node one of another kind. -/
def setKind (id : NodeId) (kind : NodeKind) : Edit Unit := do
  let _ ← ask (·.find id)
  change (·.modify id fun node => { node with kind })

/-- Makes a node the last child of `parent`, away from where it was. -/
def append (parent child : NodeId) : Edit Unit := do
  ask (·.checkInsertable parent child)
  change (·.detach child)
  let node ← ask (·.find parent)
  change (·.attach parent node.children.length child)

/-- Makes a node the child of `parent` directly before its child `anchor`, away
from where it was. -/
def insertBefore (parent anchor id : NodeId) : Edit Unit := do
  ask (·.checkInsertable parent id)
  let _ ← ask (·.indexOf parent anchor)
  if id = anchor then return
  change (·.detach id)
  let index ← ask (·.indexOf parent anchor)
  change (·.attach parent index id)

/-- Removes a node and the nodes below it. -/
def remove (id : NodeId) : Edit Unit := do
  if id = .root then throw .rootNode
  let below ← ask (·.descendants id)
  change (·.detach id)
  change (·.eraseAll below)
  change (·.erase id)

/-- Puts a node where `anchor` is and removes `anchor` with the nodes below it. -/
def replaceWith (anchor id : NodeId) : Edit Unit := do
  let node ← ask (·.find anchor)
  match node.parent with
  | none => throw .detached
  | some parent =>
    insertBefore parent anchor id
    remove anchor

mutual

/-- Creates the nodes of a tree, the topmost one as the last child of `parent`. -/
def graft (parent : NodeId) : Tree → Edit Unit
  | .node kind span children => do
    let id ← create kind
    append parent id
    setSpan id span
    graftAll id children

/-- Creates the nodes of trees, one tree after the other, below `parent`. -/
def graftAll (parent : NodeId) : List Tree → Edit Unit
  | [] => return
  | tree :: trees => do
    graft parent tree
    graftAll parent trees

end

end Edit

/-- The document with the given trees below its root. Its nodes are numbered in
pre-order. -/
def Document.ofTrees (file : Option String) (trees : List Tree) : Document :=
  ((Edit.graftAll .root trees).run.run (.empty file)).2

end Typography
