/-!
# The shortest decimal of a double

A positive double is `m * 2 ^ e`. The reals that round to it make up an interval
around it: half the gap to each neighbour, with the ends when `m` is even. The
decimal that stands for the double is the one in the interval with the fewest
digits; of two such decimals it is the nearer one, and the greater at the same
distance.

The multiples of a power of ten form a grid. A grid with a point in the interval
has one of the two next to the double in it, so it is enough to try these two,
from coarse grids to fine ones. On the grid of `10 ^ min e 0` the double is a
point itself, which ends the search. All arithmetic is exact.
-/

namespace Typography

/-- The number `coefficient * 10 ^ exponent`. -/
structure Decimal where
  coefficient : Nat
  exponent : Int
  deriving DecidableEq, Repr

/-- The fractions `low / unit` to `high / unit` around `middle / unit`, with both
ends or without. -/
structure Interval where
  low : Nat
  middle : Nat
  high : Nat
  unit : Nat
  isClosed : Bool
  deriving DecidableEq, Repr

namespace Interval

/-- The numbers that round to the double `m * 2 ^ e`. The gap below a power of two
is half the gap above it, except below the least normal double. -/
def ofDouble (m : Nat) (e : Int) : Interval :=
  let below := if m = Nat.pow 2 52 ∧ -1074 < e then 1 else 2
  let scale := Nat.pow 2 (e - 2).toNat
  ⟨(4 * m - below) * scale, 4 * m * scale, (4 * m + 2) * scale,
    Nat.pow 2 (2 - e).toNat, m % 2 = 0⟩

/-- The interval counted in units of `10 ^ exponent`. -/
def onGrid (i : Interval) (exponent : Int) : Interval :=
  let factor := Nat.pow 10 (-exponent).toNat
  { i with
    low := i.low * factor
    middle := i.middle * factor
    high := i.high * factor
    unit := i.unit * Nat.pow 10 exponent.toNat }

/-- Whether a whole number lies in the interval. -/
def holds (i : Interval) (n : Nat) : Bool :=
  if i.isClosed then i.low ≤ n * i.unit && n * i.unit ≤ i.high
  else i.low < n * i.unit && n * i.unit < i.high

/-- The whole number of the interval that is nearest to its middle. -/
def nearest? (i : Interval) : Option Nat :=
  let n := i.middle / i.unit
  match i.holds n, i.holds (n + 1) with
  | true, true => some (if 2 * i.middle < (2 * n + 1) * i.unit then n else n + 1)
  | true, false => some n
  | false, true => some (n + 1)
  | false, false => none

/-- The decimal on the coarsest grid that has a point in the interval, from
`10 ^ exponent` down to the grid `steps` finer, which the middle is on. -/
def search (i : Interval) : Nat → Int → Decimal
  | 0, exponent => ⟨(i.onGrid exponent).middle / (i.onGrid exponent).unit, exponent⟩
  | steps + 1, exponent =>
    match (i.onGrid exponent).nearest? with
    | some n => ⟨n, exponent⟩
    | none => i.search steps (exponent - 1)

end Interval

namespace Decimal

/-- The decimal digits of a natural number, the first digit not zero unless the
number is. -/
def digitsOf (n : Nat) : List Char :=
  Nat.toDigits 10 n

/-- The shortest decimal that rounds to the double `m * 2 ^ e`. -/
def shortest (m : Nat) (e : Int) : Decimal :=
  let i := Interval.ofDouble m e
  let coarsest := (digitsOf (i.middle / i.unit)).length
  i.search (coarsest - min e 0).toNat coarsest

/-- A decimal without exponent: digits, and a point with digits behind it for a
fraction. -/
def positional (d : Decimal) : List Char :=
  let digits := digitsOf d.coefficient
  let places := (-d.exponent).toNat
  if places = 0 then digits ++ List.replicate d.exponent.toNat '0'
  else if places < digits.length then
    digits.take (digits.length - places) ++ '.' :: digits.drop (digits.length - places)
  else '0' :: '.' :: (List.replicate (places - digits.length) '0' ++ digits)

end Decimal

/-- The shortest decimal text that reads back as a number. Zero has no sign. -/
def formatNumber (x : Float) : String :=
  let signed : Float.Model.UnpackedFloat.Sign → String → String
    | .negative, text => "-" ++ text
    | .positive, text => text
  match x.toModel.unpack with
  | .notANumber => "NaN"
  | .infinity sign => signed sign "inf"
  | .zero _ => "0"
  | .finite sign m e _ => signed sign (String.ofList (Decimal.shortest m e).positional)

end Typography
