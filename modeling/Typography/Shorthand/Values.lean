import Typography.Length
import Typography.Shorthand.Basic

/-!
# The values of a shorthand

With the font size as reference, a line height in pixels becomes a ratio and a
letter spacing in pixels a length in `em`. With a root size, a font size in
pixels becomes a length in `rem`. A fragment that cannot be converted is kept.
-/

namespace Typography

/-- The values that a shorthand stands for. An absent position has none, and a
skipped one has the skip marker. -/
structure TypographyValues where
  fontSize : Option String
  lineHeight : Option String
  letterSpacing : Option String
  deriving DecidableEq, Repr

namespace TypographyValues

/-- A fragment in pixels is converted if `convert?` finds a value, and any other
fragment is kept. -/
def convertPixels (convert? : String → Option String) (fragment : String) : String :=
  if isPixelLength fragment then (convert? fragment).getD fragment else fragment

/-- The fragments of a shorthand with their units converted. -/
def ofShorthand (shorthand : Shorthand) (rootSize : Option String) : TypographyValues :=
  let reference := shorthand.fontSize.filter (· != skipMarker)
  let relative (convert? : String → String → Option String) (fragment : String) : String :=
    match reference with
    | some size => convertPixels (convert? · size) fragment
    | none => fragment
  { fontSize := shorthand.fontSize.map fun fragment =>
      match rootSize with
      | some root => convertPixels (rem? · root) fragment
      | none => fragment
    lineHeight := shorthand.lineHeight.map
      (relative fun value size => (ratio? value size).map formatNumber)
    letterSpacing := shorthand.letterSpacing.map (relative em?) }

/-- The property with its value, unless the value is absent, empty or skipped. -/
def declaration? (property : String) (value : Option String) : Option (String × String) :=
  match value with
  | some value => if value.isEmpty || value == skipMarker then none else some (property, value)
  | none => none

/-- The declarations that a shorthand stands for. -/
def declarations (values : TypographyValues) : List (String × String) :=
  [declaration? "font-size" values.fontSize,
    declaration? "line-height" values.lineHeight,
    declaration? "letter-spacing" values.letterSpacing].filterMap id

end TypographyValues

end Typography
