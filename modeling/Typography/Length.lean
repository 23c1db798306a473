import Typography.Number.Decimal
import Typography.Number.Numeral
import Typography.Number.Rounding

/-!
# Lengths

A length is the text of a value. It is in pixels when a digit stands directly
before `px` anywhere in it, and its number is the numeral at its front. Two
lengths with numbers have a ratio, from which relative lengths are written.
-/

namespace Typography

/-- Decimal places that ratios are rounded to. -/
def ratioPlaces : Int := 5

/-- Whether a digit stands directly before `px` somewhere. -/
def hasPixels : List Char → Bool
  | [] => false
  | c :: cs => (Text.isDigit c && ['p', 'x'].isPrefixOf cs) || hasPixels cs

/-- A value in pixels. -/
def isPixelLength (value : String) : Bool :=
  hasPixels value.toList

/-- The ratio of a length to a reference. There is none if either has no number,
if the reference is zero, or if the ratio is not finite. -/
def ratio? (value reference : String) : Option Float := do
  let x ← leadingNumber? value.toList
  let y ← leadingNumber? reference.toList
  if y == 0.0 then none
  else
    let ratio := Number.roundTo (x / y) ratioPlaces
    if ratio.isFinite then some ratio else none

/-- A length relative to the font size `reference`. -/
def em? (value reference : String) : Option String :=
  (ratio? value reference).map fun ratio => formatNumber ratio ++ "em"

/-- A length relative to the root font size. -/
def rem? (value rootSize : String) : Option String :=
  (ratio? value rootSize).map fun ratio => formatNumber ratio ++ "rem"

end Typography
