import FormulaDag.Decimal.Notation
import FormulaDag.Decimal.Reading

/-!
# Branches

A subexpression with signs such as `±` in it stands for several real numbers, its branches. They are kept in a normal form: each
is rounded to a number of significant digits, they ascend, and equal ones are merged.
-/

namespace FormulaDag

/-- The values that a subexpression can take. -/
abbrev Branches := List Float

namespace Branches

/-- Rounds to `precision` significant digits. Zero of either sign becomes the positive zero; what is not finite stays. -/
def normalize (precision : Nat) (x : Float) : Float :=
  if x == 0.0 then 0.0
  else if x.isFinite then ((Binary.ofFloat x).toSignificant precision).toFloat
  else x

/-- Rounds to `places` digits after the point, a zero of either sign giving the positive zero. -/
def toPlaces (places : Nat) (x : Float) : Float :=
  let rounded := if x.isFinite then ((Binary.ofFloat x).toPlaces places).toFloat else x
  if rounded == 0.0 then 0.0 else rounded

/-- The rank of a double in the total order of all doubles, in which `-0` comes before `0`. -/
def rank (x : Float) : Int :=
  let bits : Int := x.toBits.toNat
  if bits < 0x8000000000000000 then bits else 0x7fffffffffffffff - bits

/-- Whether one double comes before another in the total order, or is the same. -/
def ranksBelow (x y : Float) : Bool := rank x ≤ rank y

/-- The normal form of a list of values: each normalized, in ascending order, equal neighbours merged. -/
def normalForm (precision : Nat) (values : Branches) : Branches :=
  ((values.map (normalize precision)).mergeSort ranksBelow).eraseReps

end Branches

end FormulaDag
