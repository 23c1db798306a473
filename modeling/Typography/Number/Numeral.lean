import Typography.Text.Blank
import Typography.Text.Digit

/-!
# Numerals

A value of a stylesheet starts with a number, which its unit follows. The numeral
at the front of a text is taken as long as possible: a sign, digits with a point
among or behind them or digits behind a point, and an exponent. Digits of every
script belong to a numeral, but only ASCII digits have a value.
-/

namespace Typography

/-- A numeral, by its digits before and behind the point and its exponent. -/
structure Numeral where
  isNegative : Bool
  whole : List Char
  fraction : List Char
  hasNegativeExponent : Bool
  exponent : List Char
  deriving DecidableEq, Repr

namespace Numeral

/-- Takes a sign off the front of a text. Answers whether it is a minus. -/
def takeSign : List Char → Bool × List Char
  | '-' :: cs => (true, cs)
  | '+' :: cs => (false, cs)
  | cs => (false, cs)

/-- Takes an exponent off the front of a text; without digits there is none. -/
def takeExponent : List Char → Bool × List Char
  | c :: cs =>
    if c = 'e' ∨ c = 'E' then
      let (isNegative, cs) := takeSign cs
      (isNegative, cs.takeWhile Text.isDigit)
    else (false, [])
  | [] => (false, [])

/-- The longest numeral at the front of a text. -/
def leading? (text : List Char) : Option Numeral :=
  let (isNegative, text) := takeSign text
  let whole := text.takeWhile Text.isDigit
  let behind := text.dropWhile Text.isDigit
  let (fraction, behind) := match behind with
    | '.' :: cs => (cs.takeWhile Text.isDigit, cs.dropWhile Text.isDigit)
    | cs => ([], cs)
  if whole.isEmpty && fraction.isEmpty then none
  else
    let (hasNegativeExponent, exponent) := takeExponent behind
    some ⟨isNegative, whole, fraction, hasNegativeExponent, exponent⟩

/-- The number that ASCII digits write, zero for no digits. -/
def ofDigits (digits : List Char) : Nat :=
  digits.foldl (fun n c => 10 * n + (c.toNat - '0'.toNat)) 0

/-- The exponent of the last digit. -/
def scale (n : Numeral) : Int :=
  (if n.hasNegativeExponent then -(ofDigits n.exponent : Int) else ofDigits n.exponent) -
    n.fraction.length

/-- The double nearest to a numeral in ASCII digits, infinity beyond the greatest
one. -/
def number (n : Numeral) : Float :=
  let x := Float.ofScientific (ofDigits (n.whole ++ n.fraction)) (n.scale < 0) n.scale.natAbs
  if n.isNegative then -x else x

/-- The number of a numeral. There is none if a digit is not an ASCII digit. -/
def value? (n : Numeral) : Option Float :=
  if (n.whole ++ n.fraction ++ n.exponent).all Char.isDigit then some n.number else none

end Numeral

/-- The number at the front of a value, behind leading blanks. -/
def leadingNumber? (value : List Char) : Option Float := do
  (← Numeral.leading? (Text.trimStart value)).value?

end Typography
