import FormulaDag.Rule.Basic

/-!
# The standard rules

Roots, fractions, logarithms, trigonometric functions and their inverses, powers and numbers. Arguments are index tokens; a base of
a logarithm and both sides of a power may also be numbers.
-/

namespace FormulaDag.Rule

/-- Roots: `\sqrt` with an optional degree in brackets. -/
def root : Rule where
  name := "Sqrt"
  pattern := .word "\\sqrt" ++ .optional (.word "[" ++ .named "degree" .token ++ .word "]") ++ .named "value" .token
  slots := [{ name := "degree", absent := some 2.0 }, { name := "value" }]
  document := ⟨"Root", "\\sqrt[n]\x7bx\x7d", "n-th root of x, square root when [n] is omitted"⟩
  apply := fun a =>
    match Elementary.root? (a.value 0) (a.value 1) with
    | some x => .ok x
    | none => .error (.rootUndefined (a.value 0) (a.value 1))

/-- Fractions. -/
def fraction : Rule where
  name := "Fraction"
  pattern := .word "\\frac" ++ .named "numerator" .token ++ .named "denominator" .token
  slots := [{ name := "numerator" }, { name := "denominator" }]
  document := ⟨"Fraction", "\\frac\x7ba\x7d\x7bb\x7d", "a divided by b"⟩
  apply := fun a =>
    if a.value 1 == 0.0 then .error (.divisionByZero (a.value 0)) else .ok (a.value 0 / a.value 1)

/-- The words of the logarithm rule. -/
def logarithmWords : List String := ["lg", "ln", "log"]

/-- The value of a logarithm: `log` needs a base, the others have one and take none. -/
def logarithmValue (a : Arguments) : Except EvaluationFault Float :=
  match a.function, a.get? 0 with
  | "log", some base => .ok ((a.value 1).log / base.log)
  | "lg", none => .ok (a.value 1).log10
  | "ln", none => .ok (a.value 1).log
  | function, _ => .error (.logarithmBase function)

/-- Logarithms, with a base after an underscore. -/
def logarithm : Rule where
  name := "Logarithm"
  pattern := .word "\\" ++ .named "function" (.anyWord logarithmWords) ++
    .optional (.word "_" ++ .named "base" (.either .token .numeral)) ++ .named "parameter" .token
  selector := some ⟨"function", logarithmWords⟩
  slots := [{ name := "base", required := false }, { name := "parameter" }]
  document :=
    ⟨"Logarithm", "\\log_\x7bb\x7d\x7bx\x7d, \\lg\x7bx\x7d, \\ln\x7bx\x7d", "Logarithm of x to base b, 10 or e"⟩
  apply := logarithmValue

/-- The words of the trigonometric rule in the order in which they are tried. -/
def trigonometricWords : List String :=
  ["sinh", "cosh", "tanh", "coth", "sech", "csch", "sin", "cos", "tan", "cot", "sec", "csc"]

/-- The trigonometric functions, by name. -/
def trigonometric? (x : Float) : String → Option Float
  | "sin" => some x.sin
  | "cos" => some x.cos
  | "tan" => some x.tan
  | "cot" => some (Elementary.reciprocal x.tan)
  | "sec" => some (Elementary.reciprocal x.cos)
  | "csc" => some (Elementary.reciprocal x.sin)
  | "sinh" => some x.sinh
  | "cosh" => some x.cosh
  | "tanh" => some x.tanh
  | "coth" => some (Elementary.reciprocal x.tanh)
  | "sech" => some (Elementary.reciprocal x.cosh)
  | "csch" => some (Elementary.reciprocal x.sinh)
  | _ => none

/-- The words of the inverse trigonometric rule. -/
def inverseWords : List String := ["arcsin", "arccos", "arctan", "arccot", "arcsec", "arccsc"]

/-- Half of the number `Symbol.pi`. -/
def halfPi : Float := 1.5707963267948966

/-- The inverse trigonometric functions, by name. -/
def inverseTrigonometric? (x : Float) : String → Option Float
  | "arcsin" => some x.asin
  | "arccos" => some x.acos
  | "arctan" => some x.atan
  | "arccot" => some (halfPi - x.atan)
  | "arcsec" => some (Elementary.reciprocal x).acos
  | "arccsc" => some (Elementary.reciprocal x).asin
  | _ => none

/-- The value of a function that is chosen by name from a table. -/
def byName (table : Float → String → Option Float) (a : Arguments) : Except EvaluationFault Float :=
  match table (a.value 0) a.function with
  | some x => .ok x
  | none => .error (.unknownFunction a.function)

/-- Trigonometric and hyperbolic functions. -/
def trigonometry : Rule where
  name := "Trigonometry"
  pattern := .word "\\" ++ .named "function" (.anyWord trigonometricWords) ++ .named "parameter" .token
  selector := some ⟨"function", trigonometricWords⟩
  slots := [{ name := "parameter" }]
  document :=
    ⟨"Trigonometry", "\\sin\x7bx\x7d, \\cosh\x7bx\x7d",
      "sin cos tan cot sec csc and their hyperbolic forms, x in radians"⟩
  apply := byName trigonometric?

/-- Inverse trigonometric functions. -/
def inverseTrigonometry : Rule where
  name := "InverseTrigonometry"
  pattern := .word "\\" ++ .named "function" (.anyWord inverseWords) ++ .named "parameter" .token
  selector := some ⟨"function", inverseWords⟩
  slots := [{ name := "parameter" }]
  document :=
    ⟨"Inverse trigonometry", "\\arcsin\x7bx\x7d", "arcsin arccos arctan arccot arcsec arccsc, in radians"⟩
  apply := byName inverseTrigonometric?

/-- A power does not begin right after an underscore, nor with a letter of a command word. -/
def powerAdmits (behind ahead : Text) : Bool :=
  behind.head? != some '_' && !(ahead.head?.any Char.isAlpha && Command.isInside behind)

/-- Powers. -/
def power : Rule where
  name := "Exponentiation"
  pattern :=
    .named "value"
        (.either .token
          (.either (.word "\\" ++ .anyWord ["pi", "Phi", "Omega"]) (.either .numeral (.oneOf Char.isAlpha)))) ++
      .word "^" ++ .named "exponent" (.either .token (.oneOf Char.isDigit))
  admits := powerAdmits
  slots := [{ name := "value", takesText := true }, { name := "exponent" }]
  document := ⟨"Exponentiation", "x^\x7by\x7d, x^2", "x raised to the power y"⟩
  apply := fun a => .ok (Elementary.power (a.value 0) (a.value 1))

/-- A number does not begin inside another one or inside an index token. -/
def numberAdmits (behind _ahead : Text) : Bool :=
  !behind.head?.any fun c => c == '@' || c == '/' || c.isDigit

/-- Numbers. -/
def number : Rule where
  name := "Constant"
  pattern := .named "value" .numeral
  admits := numberAdmits
  slots := [{ name := "value", takesIndex := false }]
  document := ⟨"Number", "3.14", "Decimal literal"⟩
  apply := fun a => .ok (a.value 0)

/-- The standard rules in the order in which they are tried. -/
def standard : List Rule := [root, fraction, logarithm, trigonometry, inverseTrigonometry, power, number]

end FormulaDag.Rule
