import FormulaDag.Text.Basic

/-!
# Symbols

Commands that stand for fixed values. `\pm` and `\mp` choose between two signs, the others name a number. Each occurrence of a
symbol chooses on its own.
-/

namespace FormulaDag

/-- The operators of a sum. -/
inductive Operator where
  | plus
  | minus
  | times
  | divide
deriving DecidableEq, Repr

namespace Operator

/-- The character of an operator. -/
def char : Operator → Char
  | plus => '+'
  | minus => '-'
  | times => '*'
  | divide => '/'

/-- The operator of a character. -/
def ofChar? : Char → Option Operator
  | '+' => some plus
  | '-' => some minus
  | '*' => some times
  | '/' => some divide
  | _ => none

end Operator

/-- One of the meanings of a symbol: a sign or a number. -/
inductive Choice where
  | sign (op : Operator)
  | number (value : Float)
deriving DecidableEq

namespace Symbol

/-- The golden ratio. -/
def goldenRatio : Float := 1.618033988749895

/-- The number that `\Omega` stands for. -/
def omega : Float := 0.0078749969

/-- The ratio of a circle's circumference to its diameter. -/
def pi : Float := 3.141592653589793

/-- The text that a variable named `e` is bound to. -/
def eulerNumber : Text := "2.7182818284".toList

/-- Every symbol with its meanings, in the order in which they are listed for users. -/
def table : List (String × List Choice) :=
  [("\\pm", [.sign .plus, .sign .minus]), ("\\mp", [.sign .minus, .sign .plus]), ("\\Phi", [.number goldenRatio]),
    ("\\pi", [.number pi]), ("\\Omega", [.number omega])]

/-- The meanings of a command, if it is a symbol. -/
def choices? (command : Text) : Option (List Choice) :=
  (table.find? fun entry => entry.1.toList == command).map Prod.snd

/-- The number that a command stands for, if it is a symbol with that single meaning. -/
def constant? (command : Text) : Option Float :=
  match choices? command with
  | some [.number value] => some value
  | _ => none

/-- The names of all symbols. -/
def names : List String := table.map Prod.fst

end Symbol

end FormulaDag
