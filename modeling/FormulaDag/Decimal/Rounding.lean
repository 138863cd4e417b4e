import FormulaDag.Decimal.Binary

/-!
# Decimals and rounding to them

A decimal is `± coefficient · 10 ^ exponent`. A fraction is rounded to the nearest integer with ties to the even one; rounding to
a number of places or of significant digits scales the exact fraction first, so the result is the nearest decimal and not the
nearest to some intermediate double. `Decimal.toFloat` goes back to the nearest double.
-/

namespace FormulaDag

/-- A number `± coefficient · 10 ^ exponent`. -/
structure Decimal where
  negative : Bool
  coefficient : Nat
  exponent : Int
deriving DecidableEq, Repr

/-- The integer nearest to `n / d`, the even one of two that are equally near. -/
def roundHalfEven (n d : Nat) : Nat :=
  let q := n / d
  let r := n % d
  if 2 * r < d then q
  else if d < 2 * r then q + 1
  else if q % 2 = 0 then q
  else q + 1

/-- The number of decimal digits of a natural number, none for zero. -/
def digitCount (n : Nat) : Nat := if n = 0 then 0 else digitCount (n / 10) + 1
termination_by n

/-- The power of ten of the leading digit of `n / d`: the `k` with `10 ^ k ≤ n / d < 10 ^ (k + 1)`. -/
def leadingExponent (n d : Nat) : Int :=
  if d ≤ n then (digitCount (n / d) : Int) - 1 else -(digitCount ((d - 1) / n) : Int)

namespace Decimal

/-- The double nearest to a decimal, with ties to the even significand. A value of `10 ^ 309` or more is beyond every finite
double, and one below `10 ^ -324` is less than half of the smallest positive one. -/
def toFloat (d : Decimal) : Float :=
  let top := (digitCount d.coefficient : Int) + d.exponent
  let magnitude : Float :=
    if d.coefficient = 0 ∨ top < -324 then 0.0
    else if 309 < top then 1.0 / 0.0
    else Float.ofScientific d.coefficient (decide (d.exponent < 0)) d.exponent.natAbs
  if d.negative then -magnitude else magnitude

end Decimal

namespace Binary

/-- The magnitude scaled by a power of ten, as a fraction: `n / d` is the magnitude divided by `10 ^ e`. -/
def scaled (b : Binary) (e : Int) : Nat × Nat := (b.numerator * Nat.pow 10 (-e).toNat, b.denominator * Nat.pow 10 e.toNat)

/-- The nearest decimal with the given number of places after the point. No double has more than 1074 places, so further ones
are not computed. -/
def toPlaces (b : Binary) (places : Nat) : Decimal :=
  let e : Int := -(min places 1074 : Nat)
  let s := b.scaled e
  ⟨b.negative, roundHalfEven s.1 s.2, e⟩

/-- The exponent of the last of `digits` significant digits. -/
def lastExponent (b : Binary) (digits : Nat) : Int := leadingExponent b.numerator b.denominator - digits + 1

/-- The nearest decimal with the given number of significant digits, at least one. No double has 800 significant digits, so
further ones are not computed. -/
def toSignificant (b : Binary) (digits : Nat) : Decimal :=
  let e := b.lastExponent (max 1 (min digits 800))
  let s := b.scaled e
  ⟨b.negative, roundHalfEven s.1 s.2, e⟩

end Binary

example : [5, 15, 25, 26].map (roundHalfEven · 10) = [0, 2, 2, 3] := by decide

end FormulaDag
