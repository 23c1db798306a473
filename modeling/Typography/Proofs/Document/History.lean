import Typography.Expansion.Pass
import Typography.Proofs.Document.Graft
import Typography.Proofs.Expansion.Passing
import Typography.Stylesheet.Reader

/-!
# The documents there are

A document starts empty or with a stylesheet that was read, and is changed by
operations, which may be refused and may be given any identifiers. What the
operations keep, every document has. As long as no kind is overwritten, this is
`Document.Sound`.
-/

namespace Typography

/-- The nodes that can be created. The flag of a declaration is not set. -/
inductive NewNode where
  | atRule (name params : String) (hasBlock : Bool)
  | rule (selector : String)
  | declaration (property value : String)
  | comment (text : String)
  deriving DecidableEq, Repr

/-- The kind of a node that is created. -/
def NewNode.kind : NewNode → NodeKind
  | atRule name params hasBlock => .atRule name params hasBlock
  | rule selector => .rule selector
  | declaration property value => .declaration property value false
  | comment text => .comment text

/-- An operation on a document. -/
inductive Operation where
  | create (node : NewNode)
  | append (parent child : NodeId)
  | insertBefore (parent anchor id : NodeId)
  | replaceWith (anchor id : NodeId)
  | remove (id : NodeId)
  | setSpan (id : NodeId) (span : Option Span)
  | setKind (id : NodeId) (kind : NodeKind)
  | expand (options : Options)

namespace Operation

/-- The document that an operation leaves, done or refused. -/
def apply (d : Document) : Operation → Document
  | create node => ((Edit.create node.kind).on d).2
  | append parent child => ((Edit.append parent child).on d).2
  | insertBefore parent anchor id => ((Edit.insertBefore parent anchor id).on d).2
  | replaceWith anchor id => ((Edit.replaceWith anchor id).on d).2
  | remove id => ((Edit.remove id).on d).2
  | setSpan id span => ((Edit.setSpan id span).on d).2
  | setKind id kind => ((Edit.setKind id kind).on d).2
  | expand options => (d.expand options).document

/-- The operation overwrites no kind. -/
def KeepsKinds : Operation → Prop
  | setKind .. => False
  | _ => True

end Operation

namespace Document

/-- The documents that operations lead to, when only those that are `allowed` are
used. -/
inductive Reached (allowed : Operation → Prop) : Document → Prop
  | empty (file : Option String) : Reached allowed (.empty file)
  | read (file : Option String) (css : String) :
      Reached allowed (.ofTrees file (Reading.ofText css).trees)
  | step {d : Document} (operation : Operation) :
      Reached allowed d → allowed operation → Reached allowed (operation.apply d)

theorem Reached.foldl {allowed : Operation → Prop} {d : Document} (h : d.Reached allowed)
    {operations : List Operation} (hallowed : ∀ operation ∈ operations, allowed operation) :
    (operations.foldl Operation.apply d).Reached allowed := by
  induction operations generalizing d with
  | nil => exact h
  | cons operation operations ih =>
    exact ih (.step operation h (hallowed operation List.mem_cons_self))
      fun other hmem => hallowed other (List.mem_cons_of_mem _ hmem)

/-- What the edits on the tree keep, every operation keeps that overwrites no
kind. -/
theorem keeps_apply {P : Document → Prop} (h : Edit.Kept P) {d : Document} (hd : P d)
    {operation : Operation} (hkinds : operation.KeepsKinds) : P (operation.apply d) := by
  cases operation with
  | create node => exact h.keeps_create node.kind d hd
  | append parent child => exact h.keeps_append parent child d hd
  | insertBefore parent anchor id => exact h.keeps_insertBefore parent anchor id d hd
  | replaceWith anchor id => exact h.keeps_replaceWith anchor id d hd
  | remove id => exact h.keeps_remove id d hd
  | setSpan id span => exact h.keeps_setSpan id span d hd
  | setKind id kind => exact hkinds.elim
  | expand options => exact expand_keeps h hd options

theorem Reached.sound {d : Document} (h : d.Reached Operation.KeepsKinds) : d.Sound := by
  induction h with
  | empty file => exact sound_empty file
  | read file css => exact sound_ofTrees file (Reading.ofText css).trees
  | step operation _ hkinds ih => exact keeps_apply Edit.kept_sound ih hkinds

end Document

end Typography
