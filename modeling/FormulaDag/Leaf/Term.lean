import FormulaDag.Symbol
import FormulaDag.Decimal.Notation

/-!
# Terms

The symbols of a sum once every choice in it has been made: numbers, operators and the delimiters of groups.
-/

namespace FormulaDag

/-- A symbol of a sum. -/
inductive Term where
  | number (value : Float)
  | op (operator : Operator)
  | opening
  | closing
deriving DecidableEq

namespace Term

/-- How a term is named in error messages. -/
def describe : Term → Text
  | number value => "Number(".toList ++ Decimal.listed value ++ ")".toList
  | op operator => "Op('".toList ++ operator.char :: "')".toList
  | opening => "Open".toList
  | closing => "Close".toList

/-- The number that a term is, if it is one. -/
def number? : Term → Option Float
  | number value => some value
  | _ => none

/-- The term for one meaning of a symbol. -/
def ofChoice : Choice → Term
  | .sign operator => op operator
  | .number value => number value

end Term

end FormulaDag
