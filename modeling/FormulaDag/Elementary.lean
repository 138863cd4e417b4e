import FormulaDag.Decimal.Binary

/-!
# Elementary functions

The scalar functions behind the rules that are not a single operation: powers with an integral exponent by repeated squaring, real
roots, and Fibonacci numbers.
-/

namespace FormulaDag.Elementary

/-- The value beyond every finite double. -/
def infinity : Float := 1.0 / 0.0

/-- The value of an operation without a result. -/
def undefinedValue : Float := 0.0 / 0.0

/-- One over a number. -/
def reciprocal (x : Float) : Float := 1.0 / x

/-- The product of `accumulated` and the power of `square` with exponent `k`, which goes through the binary digits of `k` from
the lowest on. -/
def powerFrom (square accumulated : Float) (k : Nat) : Float :=
  let product := if k % 2 = 1 then accumulated * square else accumulated
  if k / 2 = 0 then product else powerFrom (square * square) product (k / 2)
termination_by k
decreasing_by omega

/-- The power with an integral exponent; a negative one gives the reciprocal. -/
def integerPower (base : Float) (n : Int) : Float :=
  let power := powerFrom base 1.0 n.natAbs
  if n < 0 then reciprocal power else power

/-- The power of two numbers. Integral exponents that fit 32 bits are taken by repeated squaring. -/
def power (base exponent : Float) : Float :=
  match integerValue? exponent with
  | some n => if n.natAbs ≤ 2147483647 then integerPower base n else base.pow exponent
  | none => base.pow exponent

/-- Whether a number is an odd integer. -/
def isOdd (x : Float) : Bool :=
  match integerValue? x with
  | some n => n % 2 == 1
  | none => false

/-- The root of the magnitude of a number. -/
def rootOfMagnitude (degree value : Float) : Float :=
  if degree == 2.0 then value.abs.sqrt
  else if degree == 3.0 then value.abs.cbrt
  else value.abs.pow (reciprocal degree)

/-- The real root, if there is one: the degree is positive, and odd when the number is negative. -/
def root? (degree value : Float) : Option Float :=
  if degree ≤ 0.0 || (value < 0.0 && !isOdd degree) then none
  else some (if value < 0.0 then -rootOfMagnitude degree value else rootOfMagnitude degree value)

/-- The number reached from two neighbours of the Fibonacci sequence after some steps. -/
def fibonacciFrom : Nat → Float → Float → Float
  | 0, _, b => b
  | n + 1, a, b => fibonacciFrom n b (a + b)

/-- The Fibonacci number at the integral part of a position, counted from one; infinite beyond position 1476, where the sequence
leaves the finite doubles, and none before position one. -/
def fibonacci? (position : Float) : Option Float :=
  if !(1.0 ≤ position) then none
  else if 1477.0 ≤ position then some infinity
  else
    let n := (Binary.ofFloat position).numerator / (Binary.ofFloat position).denominator
    some (fibonacciFrom (n - 2) 1.0 1.0)

end FormulaDag.Elementary
