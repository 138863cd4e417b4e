import FormulaDag.Decimal.Shortest
import FormulaDag.Text.Basic

/-!
# Written numbers

Two written forms of a double, both with its shortest digits. The plain form never has an exponent and gives an integral value no
point. The listed form, used where error messages list the inputs of an operation, keeps a `.0` on integral values and turns to an
exponent for magnitudes of `10 ^ 16` and more, and for nonzero ones below `10 ^ -4`.
-/

namespace FormulaDag.Decimal

/-- The digits of a decimal in positional notation, without its sign. -/
def positional (d : Decimal) : Text :=
  let digits := Text.ofNat d.coefficient
  let point : Int := digits.length + d.exponent
  if 0 ≤ d.exponent then digits ++ List.replicate d.exponent.toNat '0'
  else if 0 < point then digits.take point.toNat ++ '.' :: digits.drop point.toNat
  else '0' :: '.' :: List.replicate (-point).toNat '0' ++ digits

/-- The digits of a decimal with one digit before the point and an exponent, without its sign. -/
def exponential (d : Decimal) : Text :=
  let digits := Text.ofNat d.coefficient
  let exponent : Int := d.exponent + digits.length - 1
  let fraction := match digits.drop 1 with
    | [] => []
    | rest => '.' :: rest
  digits.take 1 ++ fraction ++ 'e' :: (if exponent < 0 then ['-'] else []) ++ Text.ofNat exponent.natAbs

/-- The sign of a decimal followed by a text for its magnitude. -/
def signed (d : Decimal) (magnitude : Text) : Text := if d.negative then '-' :: magnitude else magnitude

/-- The text of a double that is no finite number. -/
def special (x : Float) : Text :=
  if x.isNaN then "NaN".toList else if x < 0.0 then "-inf".toList else "inf".toList

/-- The plain form of a double: its shortest digits in positional notation. -/
def plain (x : Float) : Text :=
  if x.isFinite then
    let d := shortest x
    d.signed d.positional
  else special x

/-- The listed form of a double: `1.0`, `-2.5`, `1e16`, `1.5e-7`. -/
def listed (x : Float) : Text :=
  if x.isFinite then
    let d := shortest x
    if x == 0.0 then d.signed "0.0".toList
    else if x.abs < 1e-4 || 1e16 ≤ x.abs then d.signed d.exponential
    else if 0 ≤ d.exponent then d.signed (d.positional ++ ".0".toList)
    else d.signed d.positional
  else special x

end FormulaDag.Decimal
