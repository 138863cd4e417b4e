import FormulaDag.Branches
import FormulaDag.Elementary
import FormulaDag.Symbol

/-!
# Expressions

The expressions that a source text stands for, how they are written, and what they are worth. An operand is written bare when nothing in
it could be taken for a part of something else, and in parentheses otherwise. The value of an expression is found by recursion: every
operation is carried out on the values of its operands, has to give a finite number, and that number is rounded to the digits that are
kept.
-/

namespace FormulaDag

/-- A number without a point: one digit or more. -/
structure DigitRun where
  text : Text
  nonempty : text ≠ []
  digits : ∀ c ∈ text, c.isDigit = true

/-- A run of digits has digits only. -/
theorem DigitRun.not_mem (run : DigitRun) {c : Char} (hc : c.isDigit = false) : c ∉ run.text := by
  intro hmem
  rw [run.digits c hmem] at hc
  cases hc

/-- The functions of one argument that have a name. -/
inductive NamedFunction where
  | lg | ln
  | sin | cos | tan | cot | sec | csc
  | sinh | cosh | tanh | coth | sech | csch
  | arcsin | arccos | arctan | arccot | arcsec | arccsc
deriving DecidableEq

namespace NamedFunction

/-- The name of a function. -/
def word : NamedFunction → String
  | lg => "lg"
  | ln => "ln"
  | sin => "sin"
  | cos => "cos"
  | tan => "tan"
  | cot => "cot"
  | sec => "sec"
  | csc => "csc"
  | sinh => "sinh"
  | cosh => "cosh"
  | tanh => "tanh"
  | coth => "coth"
  | sech => "sech"
  | csch => "csch"
  | arcsin => "arcsin"
  | arccos => "arccos"
  | arctan => "arctan"
  | arccot => "arccot"
  | arcsec => "arcsec"
  | arccsc => "arccsc"

/-- The value of a function, angles in radians. -/
def value (x : Float) : NamedFunction → Float
  | lg => x.log10
  | ln => x.log
  | sin => x.sin
  | cos => x.cos
  | tan => x.tan
  | cot => Elementary.reciprocal x.tan
  | sec => Elementary.reciprocal x.cos
  | csc => Elementary.reciprocal x.sin
  | sinh => x.sinh
  | cosh => x.cosh
  | tanh => x.tanh
  | coth => Elementary.reciprocal x.tanh
  | sech => Elementary.reciprocal x.cosh
  | csch => Elementary.reciprocal x.sinh
  | arcsin => x.asin
  | arccos => x.acos
  | arctan => x.atan
  | arccot => 1.5707963267948966 - x.atan
  | arcsec => (Elementary.reciprocal x).acos
  | arccsc => (Elementary.reciprocal x).asin

end NamedFunction

/-- The value of an operator between two numbers; there is no quotient by zero. -/
def Operator.value (x y : Float) : Operator → Option Float
  | plus => some (x + y)
  | minus => some (x - y)
  | times => some (x * y)
  | divide => if y == 0.0 then none else some (x / y)

/-- An expression over variables. -/
inductive Expression where
  | digits (run : DigitRun)
  | letter (c : Char)
  | negation (a : Expression)
  | operation (op : Operator) (a b : Expression)
  | fraction (a b : Expression)
  | squareRoot (a : Expression)
  | root (degree a : Expression)
  | logarithm (base a : Expression)
  | application (f : NamedFunction) (a : Expression)
  | power (base exponent : Expression)

namespace Expression

/-- The letters of the variables in an expression. -/
def letters : Expression → List Char
  | digits _ => []
  | letter c => [c]
  | negation a | squareRoot a | application _ a => a.letters
  | operation _ a b | fraction a b | root a b | logarithm a b | power a b => a.letters ++ b.letters

/-- Whether an expression is written bare where it is the base of a power. -/
def isBase : Expression → Bool
  | negation _ | operation .. | power .. => false
  | _ => true

/-- Whether an expression is written bare where it is an operand. -/
def isOperand : Expression → Bool
  | negation _ | operation .. => false
  | _ => true

/-- A text in parentheses. -/
def parenthesized (t : Text) : Text := '(' :: t ++ [')']

/-- A text in braces. -/
def braced (t : Text) : Text := '{' :: t ++ ['}']

/-- The command of a word. -/
def command (word : String) : Text := '\\' :: word.toList

/-- An expression as it is written. The flag tells whether it comes right after a stroke, where digits stand in parentheses. -/
def writeAfter (stroke : Bool) : Expression → Text
  | digits run => if stroke then parenthesized run.text else run.text
  | letter c => [c]
  | negation a => '-' :: if a.isOperand then a.writeAfter false else parenthesized (a.writeAfter false)
  | operation op a b =>
    (if a.isOperand then a.writeAfter false else parenthesized (a.writeAfter false)) ++
      op.char :: if b.isOperand then b.writeAfter (op == .divide) else parenthesized (b.writeAfter false)
  | fraction a b => command "frac" ++ braced (a.writeAfter false) ++ braced (b.writeAfter false)
  | squareRoot a => command "sqrt" ++ braced (a.writeAfter false)
  | root degree a => command "sqrt" ++ '[' :: braced (degree.writeAfter false) ++ ']' :: braced (a.writeAfter false)
  | logarithm base a => command "log" ++ '_' :: braced (base.writeAfter false) ++ braced (a.writeAfter false)
  | application f a => command f.word ++ braced (a.writeAfter false)
  | power base exponent =>
    (if base.isBase then base.writeAfter stroke else parenthesized (base.writeAfter false)) ++
      '^' :: braced (exponent.writeAfter false)

/-- An expression as it is written, without white space. -/
def write (e : Expression) : Text := e.writeAfter false

/-- The result of an operation as it is kept: a finite number, rounded to the digits that are kept. -/
def settle (precision : Nat) (x : Float) : Option Float :=
  if x.isFinite then some (Branches.normalize precision x) else none

/-- The value of an expression by recursion: every operation takes the values of its operands and has to give a finite number, which is
rounded to `precision` significant digits. -/
def value (precision : Nat) (assignment : Char → Float) : Expression → Option Float
  | digits run => do settle precision (← Decimal.read? run.text)
  | letter c => some (Branches.normalize precision (assignment c))
  | negation a => do settle precision (-(← a.value precision assignment))
  | operation op a b => do
    settle precision (← op.value (← a.value precision assignment) (← b.value precision assignment))
  | fraction a b => do
    settle precision (← Operator.divide.value (← a.value precision assignment) (← b.value precision assignment))
  | squareRoot a => do settle precision (← Elementary.root? 2.0 (← a.value precision assignment))
  | root degree a => do
    settle precision (← Elementary.root? (← degree.value precision assignment) (← a.value precision assignment))
  | logarithm base a => do
    settle precision ((← a.value precision assignment).log / (← base.value precision assignment).log)
  | application f a => do settle precision (f.value (← a.value precision assignment))
  | power base exponent => do
    settle precision (Elementary.power (← base.value precision assignment) (← exponent.value precision assignment))

end Expression

end FormulaDag
