import Typography.Expansion.Report
import Typography.Stylesheet.Statement

/-!
# Events

What is logged on the way from text to text: the statements that were skipped,
the stylesheet that was read, each shorthand that was expanded, and the expansion
as a whole. An event has a level, a target, a message and fields.
-/

namespace Typography

/-- How much an event matters, from little to much. -/
inductive Level where
  | debug
  | info
  | warn
  deriving DecidableEq, Repr

/-- The name of a level. -/
def Level.name : Level → String
  | debug => "DEBUG"
  | info => "INFO"
  | warn => "WARN"

/-- The value of a field of an event. -/
inductive FieldValue where
  | number (n : Nat)
  | text (s : String)
  deriving DecidableEq, Repr

/-- A thing that happened. -/
inductive Event where
  | skippedStatement (warning : Warning)
  | readStylesheet (nodes : Nat)
  | expandedShorthand (raw : String) (position : Option Position) (media : Option String)
      (declarations : Nat)
  | expandedDocument (report : Report)
  | processedFile (file : Option String) (report : Report)
  deriving DecidableEq, Repr

namespace Event

/-- How much the event matters. -/
def level : Event → Level
  | skippedStatement _ => .warn
  | processedFile .. => .info
  | _ => .debug

/-- The part of the program that the event belongs to. -/
def target : Event → String
  | skippedStatement _ | readStylesheet _ => "type_shorthand_core::parser"
  | expandedShorthand .. | expandedDocument _ => "type_shorthand_expand::expander"
  | processedFile .. => "type_shorthand::pipeline"

/-- What is said about the event. -/
def message : Event → String
  | skippedStatement warning => warning.reason.message
  | readStylesheet _ => "parsed stylesheet"
  | expandedShorthand raw .. => "expanded shorthand '" ++ raw ++ "'"
  | expandedDocument _ => "expanded document"
  | processedFile .. => "processed stylesheet"

/-- The fields of a position. -/
def positionFields (position : Position) : List (String × FieldValue) :=
  [("line", .number position.line), ("column", .number position.column)]

/-- The fields of the event; one without a value is left out. -/
def fields : Event → List (String × FieldValue)
  | skippedStatement warning => positionFields warning.position
  | readStylesheet nodes => [("nodes", .number nodes)]
  | expandedShorthand _ position media declarations =>
    (position.toList.flatMap positionFields) ++
      (media.toList.map fun media => ("media", .text media)) ++
      [("declarations", .number declarations)]
  | expandedDocument report =>
    [("shorthands", .number report.shorthands),
      ("declarations", .number report.declarations),
      ("media_blocks", .number report.mediaBlocks)]
  | processedFile file report =>
    (file.toList.map fun file => ("file", .text file)) ++
      [("shorthands", .number report.shorthands),
        ("declarations", .number report.declarations)]

end Event

end Typography
