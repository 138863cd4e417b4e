import FormulaDag.Index

/-!
# Patterns

The forms that rules recognise: words, runs of characters, index tokens, and their sequences, alternatives and options, with names
for the parts that become operands. `hits` lists every way in which a pattern matches at the beginning of a text in order of
preference: earlier alternatives before later ones, presence before absence. A run takes all the characters it can.
-/

namespace FormulaDag

/-- A form that the beginning of a text may have. -/
inductive Pattern where
  | literal (word : Text)
  | oneOf (accepts : Char → Bool)
  | run (accepts : Char → Bool)
  | sequence (first second : Pattern)
  | either (first second : Pattern)
  | optional (inner : Pattern)
  | named (name : String) (inner : Pattern)

/-- One way in which a pattern matches: what it takes, what is left, and the parts that have names. -/
structure Hit where
  taken : Text
  rest : Text
  parts : List (String × Text)
deriving DecidableEq

namespace Pattern

/-- Every way in which a pattern matches at the beginning of a text, the preferred one first. -/
def hits : Pattern → Text → List Hit
  | literal word, t =>
    match word.isPrefixOf? t with
    | some rest => [⟨word, rest, []⟩]
    | none => []
  | oneOf accepts, t =>
    match t with
    | c :: rest => if accepts c then [⟨[c], rest, []⟩] else []
    | [] => []
  | run accepts, t =>
    match t.takeWhile accepts with
    | [] => []
    | c :: cs => [⟨c :: cs, t.dropWhile accepts, []⟩]
  | sequence first second, t =>
    (hits first t).flatMap fun h =>
      (hits second h.rest).map fun k => ⟨h.taken ++ k.taken, k.rest, h.parts ++ k.parts⟩
  | either first second, t => hits first t ++ hits second t
  | optional inner, t => hits inner t ++ [⟨[], t, []⟩]
  | named name inner, t => (hits inner t).map fun h => { h with parts := (name, h.taken) :: h.parts }

/-- The preferred match at the beginning of a text. -/
def first? (p : Pattern) (t : Text) : Option Hit := (hits p t).head?

instance : Append Pattern := ⟨sequence⟩

/-- A word. -/
def word (s : String) : Pattern := literal s.toList

/-- One of several words, earlier ones preferred. -/
def anyWord : List String → Pattern
  | [] => oneOf fun _ => false
  | [s] => word s
  | s :: more => either (word s) (anyWord more)

/-- An index token. -/
def token : Pattern := word "@/" ++ run Text.isDecimalDigit ++ word "/@"

/-- A run of digits and points. -/
def numeral : Pattern := run fun c => c.isDigit || c == '.'

end Pattern

end FormulaDag
