/-!
# Rounding to decimal places

A number is rounded to a number of decimal places in floating-point arithmetic:
it is scaled by a power of ten, moved up by a half, cut down to a whole number
and scaled back. A half rounds up, for negative numbers too.
-/

namespace Typography.Number

/-- The greatest whole number that is not greater. Zeros keep their sign, and
infinities and NaN are what they were. -/
def floor (x : Float) : Float :=
  match x.toModel.unpack with
  | .finite sign m e _ =>
    if 0 ≤ e then x
    else
      let unit := Nat.pow 2 (-e).toNat
      match sign with
      | .positive => Float.ofNat (m / unit)
      | .negative => -Float.ofNat ((m + unit - 1) / unit)
  | _ => x

/-- The product of `acc` with `base` to the power `n`, by repeated squaring. -/
def powerFrom (base acc : Float) (n : Nat) : Float :=
  if _h : n = 0 then acc
  else
    powerFrom (base * base) (if n % 2 = 1 then acc * base else acc) (n / 2)
termination_by n
decreasing_by omega

/-- Ten to the power `places`; a negative power is the inverse of a positive
one. -/
def powerOfTen (places : Int) : Float :=
  if places < 0 then 1.0 / powerFrom 10.0 1.0 places.natAbs
  else powerFrom 10.0 1.0 places.natAbs

/-- A number rounded to `places` decimal places, a half up. -/
def roundTo (x : Float) (places : Int) : Float :=
  floor (x * powerOfTen places + 0.5) / powerOfTen places

end Typography.Number
