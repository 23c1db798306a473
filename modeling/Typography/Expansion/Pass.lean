import Typography.Document.Edit
import Typography.Event
import Typography.Shorthand.Values

/-!
# The expansion pass

A pass goes once through the nodes that are below the root when it starts, in
pre-order, and replaces each shorthand by the declarations it stands for. A node
that went away with a shorthand above it is passed over.

With a custom media query the declarations go into a media block that takes the
place of the shorthand; without one they take its place themselves. Generated
nodes have the span of the shorthand, so that messages about them lead to it.

A pass that ends early leaves the document as far as it came.
-/

namespace Typography

/-- The value of a shorthand, if a node of this kind is one. -/
def NodeKind.shorthand? : NodeKind → Option String
  | atRule name params _ => if name == shorthandName then some params else none
  | declaration property value _ => if property == shorthandName then some value else none
  | _ => none

/-- The media at-rule for a custom media query. -/
def NodeKind.mediaBlock (query : String) : NodeKind :=
  .atRule "media" ("(" ++ query ++ ")") true

/-- A pass on its way: the document, what has been done and what has happened. -/
structure Pass where
  document : Document
  report : Report
  events : Array Event

/-- A part of a pass. -/
abbrev Passing (α : Type) := ExceptT ExpansionError (StateM Pass) α

namespace Passing

/-- An edit of the document of the pass. -/
def edit {α : Type} (e : Edit α) : Passing α := do
  let pass ← get
  let (result, document) := e.run.run pass.document
  set { pass with document }
  match result with
  | .ok a => return a
  | .error cause => throw (.tree cause)

/-- Notes an event. -/
def log (event : Event) : Passing Unit :=
  modify fun pass => { pass with events := pass.events.push event }

/-- Counts the parts of the report up. -/
def count (shorthands declarations mediaBlocks : Nat) : Passing Unit :=
  modify fun pass =>
    { pass with
      report :=
        ⟨pass.report.shorthands + shorthands, pass.report.declarations + declarations,
          pass.report.mediaBlocks + mediaBlocks⟩ }

/-- Creates a node with a span that has no parent. -/
def generate (kind : NodeKind) (span : Option Span) : Passing NodeId := do
  let id ← edit (Edit.create kind)
  edit (Edit.setSpan id span)
  return id

/-- Puts declarations where the shorthand `anchor` is, in a media block for the
query if there is one. -/
def replaceShorthand (anchor : NodeId) (span : Option Span) (media : Option String)
    (declarations : List NodeId) : Passing Unit := do
  match media with
  | some query =>
    let block ← generate (.mediaBlock query) span
    declarations.forM fun id => edit (Edit.append block id)
    edit (Edit.replaceWith anchor block)
    count 0 0 1
  | none =>
    let node ← edit (Edit.ask (·.find anchor))
    match node.parent with
    | none => throw (.tree .detached)
    | some parent =>
      declarations.forM fun id => edit (Edit.insertBefore parent anchor id)
      edit (Edit.remove anchor)

/-- Expands the shorthand `anchor` with the value `raw`. -/
def expandShorthand (rootSize : Option String) (anchor : NodeId) (raw : String) :
    Passing Unit := do
  let shorthand := Shorthand.ofText raw
  if shorthand.fontSize.isNone then
    throw (.missingFontSize ((← get).document.location? anchor))
  let node ← edit (Edit.ask (·.find anchor))
  let values := (TypographyValues.ofShorthand shorthand rootSize).declarations
  let declarations ← values.mapM fun (property, value) =>
    generate (.declaration property value false) node.span
  replaceShorthand anchor node.span shorthand.media declarations
  log (.expandedShorthand raw (node.span.map Span.start) shorthand.media declarations.length)
  count 1 declarations.length 0

/-- Expands a node if it is still there and is a shorthand. -/
def visit (rootSize : Option String) (id : NodeId) : Passing Unit := do
  match (← get).document.get? id with
  | none => return
  | some node =>
    match node.kind.shorthand? with
    | none => return
    | some raw => expandShorthand rootSize id raw

/-- Expands every shorthand below the root. -/
def expandAll (options : Options) : Passing Report := do
  match options.validate with
  | .error cause => throw (.options cause)
  | .ok () =>
    let ids ← edit (Edit.ask (·.walk .root))
    ids.forM (visit options.usedRootSize)
    let report := (← get).report
    log (.expandedDocument report)
    return report

end Passing

/-- What an expansion came to, the document as it is then, and what happened. -/
structure Expansion where
  result : Except ExpansionError Report
  document : Document
  events : List Event

/-- Expands every shorthand of a document. -/
def Document.expand (d : Document) (options : Options) : Expansion :=
  let (result, pass) := (Passing.expandAll options).run.run ⟨d, .zero, #[]⟩
  ⟨result, pass.document, pass.events.toList⟩

end Typography
