import FormulaDag.Decimal.Rounding
import FormulaDag.Text.Basic

/-!
# Reading numbers

The grammar of a number: an optional sign, then `inf`, `infinity` or `nan` in any case, or digits with at most one point among or
around them and an optional exponent. The value is the double nearest to what is written, however many digits there are.
-/

namespace FormulaDag.Decimal

/-- Splits an optional sign off a text; the flag is true for a minus. -/
def splitSign : Text → Bool × Text
  | '-' :: t => (true, t)
  | '+' :: t => (false, t)
  | t => (false, t)

/-- Reads a string of digits that may be empty as a natural number; other characters are refused. -/
def digits? (t : Text) : Option Nat := if t.all Char.isDigit then some (Text.digitsValue t) else none

/-- Reads what follows the mantissa: nothing, or a mark, an optional sign and at least one digit. -/
def exponent? : Text → Option Int
  | [] => some 0
  | c :: t =>
    if c = 'e' ∨ c = 'E' then
      let (negative, digits) := splitSign t
      if digits = [] then none
      else (digits? digits).map fun n => if negative then -(n : Int) else n
    else none

/-- Reads a number without its sign as a decimal. -/
def magnitude? (negative : Bool) (t : Text) : Option Decimal :=
  let whole := t.takeWhile Char.isDigit
  let afterWhole := t.dropWhile Char.isDigit
  let (fraction, rest) := match afterWhole with
    | '.' :: u => (u.takeWhile Char.isDigit, u.dropWhile Char.isDigit)
    | u => ([], u)
  if whole ++ fraction = [] then none
  else (exponent? rest).map fun e => ⟨negative, Text.digitsValue (whole ++ fraction), e - fraction.length⟩

/-- Reads a double. -/
def read? (t : Text) : Option Float :=
  let (negative, rest) := splitSign t
  let word := rest.map Char.toLower
  if word = "inf".toList ∨ word = "infinity".toList then some (if negative then -1.0 / 0.0 else 1.0 / 0.0)
  else if word = "nan".toList then some (0.0 / 0.0)
  else (magnitude? negative rest).map toFloat

end FormulaDag.Decimal
