import Typography.Document.Basic
import Typography.Options.Basic

/-!
# What an expansion comes to

An expansion ends with a report of what was done, or with an error: options that
are refused, a shorthand without a font size, or an edit of the document that is
refused.
-/

namespace Typography

/-- What an expansion did: the shorthands that were expanded, the declarations
and the media blocks that were generated. -/
structure Report where
  shorthands : Nat
  declarations : Nat
  mediaBlocks : Nat
  deriving DecidableEq, Repr

/-- Nothing was done. -/
def Report.zero : Report := ⟨0, 0, 0⟩

/-- Why an expansion ends early. -/
inductive ExpansionError where
  | options (cause : OptionsError)
  | missingFontSize (location : Option Location)
  | tree (cause : TreeError)
  deriving DecidableEq, Repr

namespace ExpansionError

/-- What is wrong, without the place. -/
def reason : ExpansionError → String
  | options cause => cause.message
  | missingFontSize _ => "Missing typography declarations for @type."
  | tree cause => cause.message

/-- What is said about the error, with the place if it is known. -/
def message : ExpansionError → String
  | options cause => cause.message
  | missingFontSize location =>
    (match location with
      | some location => location.toText ++ ": "
      | none => "") ++ (missingFontSize location).reason
  | tree cause => "Tree error: " ++ cause.message

/-- The place of the error, if it has one. -/
def location? : ExpansionError → Option Location
  | missingFontSize location => location
  | _ => none

end ExpansionError

end Typography
