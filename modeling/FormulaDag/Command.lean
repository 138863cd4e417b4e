import FormulaDag.Text.Basic

/-!
# Command words

A command is a backslash followed by ASCII letters. The words with a fixed meaning are reserved: no variable and no function of
the user may take one as its name.
-/

namespace FormulaDag.Command

/-- The words with a fixed meaning. -/
def reservedWords : List String :=
  ["sqrt", "frac", "log", "lg", "ln",
    "sin", "cos", "tan", "cot", "sec", "csc",
    "sinh", "cosh", "tanh", "coth", "sech", "csch",
    "arcsin", "arccos", "arctan", "arccot", "arcsec", "arccsc",
    "pm", "mp", "pi", "Phi", "Omega",
    "cdot", "times"]

/-- Whether a word has a fixed meaning. -/
def isReserved (word : Text) : Bool := reservedWords.any fun reserved => reserved.toList == word

/-- Whether a place lies inside a command word or right after its backslash, given the text before it with the nearest character
first. -/
def isInside (behind : Text) : Bool := (behind.dropWhile Char.isAlpha).head? == some '\\'

/-- The words of the commands of a text, in order: for every backslash the letters after it. -/
def words : Text → List Text
  | [] => []
  | c :: rest => if c = '\\' then rest.takeWhile Char.isAlpha :: words rest else words rest

end FormulaDag.Command
