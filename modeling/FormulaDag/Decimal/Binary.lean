/-!
# The exact value of a double

A finite double is `± significand · 2 ^ exponent`. Everything that prints or rounds a double works on that pair of integers, or on
the fraction `numerator / denominator` of its magnitude, so no step of it is a floating-point operation.
-/

namespace FormulaDag

/-- A number `± significand · 2 ^ exponent`. -/
structure Binary where
  negative : Bool
  significand : Nat
  exponent : Int
deriving DecidableEq, Repr

namespace Binary

/-- The exact value of a finite double, read off its bits: the sign, eleven bits of exponent and 52 bits of fraction, with a
hidden leading bit unless the exponent field is zero. -/
def ofFloat (x : Float) : Binary :=
  let bits := x.toBits.toNat
  let field := bits / 0x10000000000000 % 2048
  let fraction := bits % 0x10000000000000
  let negative := decide (0x8000000000000000 ≤ bits)
  if field = 0 then ⟨negative, fraction, -1074⟩ else ⟨negative, fraction + 0x10000000000000, Int.ofNat field - 1075⟩

/-- The numerator of the magnitude. -/
def numerator (b : Binary) : Nat := b.significand * Nat.pow 2 b.exponent.toNat

/-- The denominator of the magnitude, a power of two. -/
def denominator (b : Binary) : Nat := Nat.pow 2 (-b.exponent).toNat

/-- The denominator is positive. -/
theorem denominator_pos (b : Binary) : 0 < b.denominator := Nat.pow_pos (by decide)

/-- The value as an integer, when it is one. -/
def toInt? (b : Binary) : Option Int :=
  if b.numerator % b.denominator = 0 then
    let magnitude := Int.ofNat (b.numerator / b.denominator)
    some (if b.negative then -magnitude else magnitude)
  else none

end Binary

/-- The integer that a double is, when it is finite and integral. -/
def integerValue? (x : Float) : Option Int := if x.isFinite then (Binary.ofFloat x).toInt? else none

example : integerValue? 3.0 = some 3 := by decide
example : integerValue? (-2.0) = some (-2) := by decide
example : integerValue? 0.5 = none := by decide

end FormulaDag
