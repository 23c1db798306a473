import Typography.Node
import Typography.Source.Position

/-!
# Documents

A document keeps the nodes of a stylesheet under identifiers, so that nodes can
be moved, replaced and removed while others refer to them. It is a row of slots:
an identifier is the number of a slot, a new node takes a new slot at the end,
and the slot of a removed node stays empty. So an identifier never comes to name
another node.

Slot zero is empty and slot one holds the root. Parent and children are kept
both ways; nodes that were created and not inserted yet have no parent.

`Document.get?` is the view of a document, and each operation on slots has its
lemma in terms of it.
-/

namespace Typography

/-- The identifier of a node. -/
structure NodeId where
  serial : Nat
  deriving DecidableEq, Repr

namespace NodeId

/-- The identifier that names no node. -/
def null : NodeId := ⟨0⟩

/-- The identifier of the root. -/
def root : NodeId := ⟨1⟩

end NodeId

/-- A node of a document. -/
structure Node where
  kind : NodeKind
  parent : Option NodeId
  children : List NodeId
  span : Option Span
  deriving DecidableEq, Repr

/-- A node that stands alone. -/
def Node.ofKind (kind : NodeKind) : Node := ⟨kind, none, [], none⟩

/-- Why an operation on the nodes of a document is refused. -/
inductive TreeError where
  | unknownNode
  | circularParentage
  | notAContainer
  | notAChild
  | detached
  | rootNode
  deriving DecidableEq, Repr

/-- What is said about a refused operation. -/
def TreeError.message : TreeError → String
  | unknownNode => "Invalid or removed node ID"
  | circularParentage => "Cannot insert a node into itself or its descendants"
  | notAContainer => "Node cannot contain children"
  | notAChild => "Anchor node is not a child of the parent"
  | detached => "Node is not attached to a parent"
  | rootNode => "The root node cannot be moved or removed"

/-- A row of slots for nodes, and the file that the stylesheet was read from. -/
structure Document where
  slots : Array (Option Node)
  file : Option String
  deriving DecidableEq, Repr

namespace Document

/-- A document with nothing below its root. -/
def empty (file : Option String) : Document :=
  ⟨#[none, some (.ofKind .root)], file⟩

/-- The node with an identifier. -/
def get? (d : Document) (id : NodeId) : Option Node :=
  d.slots[id.serial]?.join

/-- Whether an identifier names a node. -/
def contains (d : Document) (id : NodeId) : Bool :=
  (d.get? id).isSome

/-- The number of nodes, the root and detached ones included. -/
def size (d : Document) : Nat :=
  d.slots.countP Option.isSome

/-- The identifier that the next new node gets. -/
def nextId (d : Document) : NodeId := ⟨d.slots.size⟩

/-- Puts a node into a new slot. -/
def push (d : Document) (node : Node) : Document :=
  { d with slots := d.slots.push (some node) }

/-- Changes the node with an identifier, if there is one. -/
def modify (d : Document) (id : NodeId) (f : Node → Node) : Document :=
  { d with slots := d.slots.modify id.serial (Option.map f) }

/-- Empties the slot of an identifier. -/
def erase (d : Document) (id : NodeId) : Document :=
  { d with slots := d.slots.modify id.serial fun _ => none }

/-- Empties the slots of several identifiers. -/
def eraseAll (d : Document) (ids : List NodeId) : Document :=
  ids.foldl erase d

/-- The node with an identifier, or the error that there is none. -/
def find (d : Document) (id : NodeId) : Except TreeError Node :=
  match d.get? id with
  | some node => .ok node
  | none => .error .unknownNode

/-- Whether nothing stands below the root. -/
def isEmpty (d : Document) : Bool :=
  match d.get? .root with
  | some root => root.children.isEmpty
  | none => true

/-- The place of a node in a message: the document's file and the position where
the node starts, if it has a span. -/
def location? (d : Document) (id : NodeId) : Option Location := do
  let node ← d.get? id
  let span ← node.span
  return ⟨d.file, span.start⟩

/-- The place of a child among the children of a node. -/
def indexOf (d : Document) (parent child : NodeId) : Except TreeError Nat := do
  let node ← d.find parent
  match node.children.idxOf? child with
  | some index => return index
  | none => throw .notAChild

@[simp] theorem get?_empty_root (file : Option String) :
    (empty file).get? .root = some (.ofKind .root) := rfl

@[simp] theorem file_push (d : Document) (node : Node) : (d.push node).file = d.file := rfl

@[simp] theorem file_modify (d : Document) (id : NodeId) (f : Node → Node) :
    (d.modify id f).file = d.file := rfl

@[simp] theorem file_erase (d : Document) (id : NodeId) : (d.erase id).file = d.file := rfl

/-- A new slot holds the new node, and all others what they held. -/
theorem get?_push (d : Document) (node : Node) (id : NodeId) :
    (d.push node).get? id = if id = d.nextId then some node else d.get? id := by
  obtain ⟨n⟩ := id
  simp only [get?, push, nextId, Array.getElem?_push, NodeId.mk.injEq]
  split <;> simp_all

/-- A change is seen at its identifier only. -/
theorem get?_modify (d : Document) (id other : NodeId) (f : Node → Node) :
    (d.modify id f).get? other =
      if other = id then (d.get? other).map f else d.get? other := by
  obtain ⟨n⟩ := id
  obtain ⟨m⟩ := other
  simp only [get?, modify, Array.getElem?_modify, NodeId.mk.injEq]
  by_cases h : n = m
  · subst h
    cases d.slots[n]? <;> simp
  · simp [h, Ne.symm h]

/-- An erased identifier names no node, and all others what they named. -/
theorem get?_erase (d : Document) (id other : NodeId) :
    (d.erase id).get? other = if other = id then none else d.get? other := by
  obtain ⟨n⟩ := id
  obtain ⟨m⟩ := other
  simp only [get?, erase, Array.getElem?_modify, NodeId.mk.injEq]
  by_cases h : n = m
  · subst h
    cases d.slots[n]? <;> simp
  · simp [h, Ne.symm h]

@[simp] theorem eraseAll_nil (d : Document) : d.eraseAll [] = d := rfl

@[simp] theorem eraseAll_cons (d : Document) (id : NodeId) (ids : List NodeId) :
    d.eraseAll (id :: ids) = (d.erase id).eraseAll ids := rfl

theorem get?_eraseAll (d : Document) (ids : List NodeId) (other : NodeId) :
    (d.eraseAll ids).get? other = if other ∈ ids then none else d.get? other := by
  induction ids generalizing d with
  | nil => simp
  | cons id ids ih =>
    rw [eraseAll_cons, ih, get?_erase]
    by_cases h : other = id <;> simp [h]

end Document

end Typography
