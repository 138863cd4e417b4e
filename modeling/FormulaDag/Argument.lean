import FormulaDag.Branches
import FormulaDag.Failure
import FormulaDag.Text.Blank

/-!
# Arguments

The values of variables that a caller gives: numbers or decimal texts, by name. Each declared variable takes the last argument of
its name; other arguments are ignored.
-/

namespace FormulaDag

/-- The value of a variable as a caller gives it. -/
inductive Argument where
  | number (value : Float)
  | text (written : Text)
deriving DecidableEq

namespace Argument

/-- The finite number that an argument is. White space around a text does not count. -/
def toFinite? (a : Argument) : Option Float :=
  (match a with
    | number value => some value
    | text written => Decimal.read? (Text.trim written)).filter Float.isFinite

/-- How an argument is shown. -/
def shown : Argument → Text
  | number value => Decimal.plain value
  | text written => written

/-- The last argument of a name. -/
def last? (arguments : List (Text × Argument)) (name : Text) : Option Argument := arguments.reverse.lookup name

/-- The value of a variable. -/
def valueOf (arguments : List (Text × Argument)) (letter : Char) : Except UserFault Float :=
  match last? arguments [letter] with
  | none => .error (.missingVariable [letter])
  | some a =>
    match a.toFinite? with
    | some x => .ok x
    | none => .error (.notDecimal [letter] a.shown)

/-- The values of the variables, or the fault of the first one in their order that has none. -/
def bind (arguments : List (Text × Argument)) (letters : List Char) : Except UserFault (List Float) :=
  letters.mapM (valueOf arguments)

end Argument

end FormulaDag
