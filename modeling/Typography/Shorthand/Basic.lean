import Typography.Text.Blank

/-!
# The typography shorthand

The shorthand stands for a font size, a line height and a letter spacing, in this
order, optionally behind the name of a custom media query. Its value is cut into
fragments at blanks. A fragment `/` skips its position, and fragments behind the
last position are ignored.
-/

namespace Typography

/-- The name of the at-rule and of the property that carry the shorthand. -/
def shorthandName : String := "type"

/-- The fragment that skips a position. -/
def skipMarker : String := "/"

/-- Whether a fragment is the name of a custom media query. -/
def isCustomMedia (fragment : String) : Bool :=
  ['-', '-'].isPrefixOf fragment.toList

/-- The fragments of a shorthand by their positions. -/
structure Shorthand where
  media : Option String
  fontSize : Option String
  lineHeight : Option String
  letterSpacing : Option String
  deriving DecidableEq, Repr

namespace Shorthand

/-- Gives the first three fragments their positions. -/
def ofFragments (media : Option String) (fragments : List String) : Shorthand :=
  ⟨media, fragments[0]?, fragments[1]?, fragments[2]?⟩

/-- Reads the value of a shorthand. -/
def ofText (value : String) : Shorthand :=
  match (Text.fragments value.toList).map String.ofList with
  | [] => ofFragments none []
  | first :: others =>
    if isCustomMedia first then ofFragments (some first) others
    else ofFragments none (first :: others)

end Shorthand

end Typography
