import FormulaDag.Decimal.Rounding

/-!
# The shortest decimal of a double

The decimal with the fewest significant digits among those that read back as the double, and the nearest to it of these. On the
grid of decimals with a given number of digits only the two neighbours of the value can be the nearest that reads back, so the
search looks at two candidates for one digit, then for two, and so on; seventeen digits always suffice.
-/

namespace FormulaDag

namespace Decimal

/-- The same value without zeros at the end of the coefficient. -/
def trimmed (d : Decimal) : Decimal :=
  if d.coefficient ≠ 0 ∧ d.coefficient % 10 = 0 then
    trimmed ⟨d.negative, d.coefficient / 10, d.exponent + 1⟩
  else d
termination_by d.coefficient
decreasing_by omega

/-- Whether a decimal reads back as the given double. -/
def readsBackAs (d : Decimal) (x : Float) : Bool := d.toFloat == x

/-- The better neighbour of `x` among the decimals with `digits` significant digits, if one of the two reads back. -/
def neighbour? (x : Float) (digits : Nat) : Option Decimal :=
  let b := Binary.ofFloat x
  let e := b.lastExponent digits
  let s := b.scaled e
  let below : Decimal := ⟨b.negative, s.1 / s.2, e⟩
  let above : Decimal := ⟨b.negative, s.1 / s.2 + 1, e⟩
  match below.readsBackAs x, above.readsBackAs x with
  | true, true => some (if 2 * (s.1 % s.2) < s.2 then below else above)
  | true, false => some below
  | false, true => some above
  | false, false => none

/-- The shortest decimal that reads back as the finite double `x`. -/
def shortest (x : Float) : Decimal :=
  if x == 0.0 then ⟨(Binary.ofFloat x).negative, 0, 0⟩
  else
    let found := (List.range 17).findSome? fun k => neighbour? x (k + 1)
    (found.getD ((Binary.ofFloat x).toSignificant 17)).trimmed

end Decimal

end FormulaDag
