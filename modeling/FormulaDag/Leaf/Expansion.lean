import FormulaDag.Leaf.Lexeme
import FormulaDag.Leaf.Sum
import FormulaDag.Combination
import FormulaDag.Branches

/-!
# The branches of a leaf

A leaf has one branch for every way to choose the meaning of each symbol occurrence and one branch of each index it reads. Two
occurrences of a symbol choose on their own; all occurrences of an index take the same branch of it.
-/

namespace FormulaDag.Leaf

/-- The terms of a leaf once its choices are made: symbol occurrences take theirs in order, an index the value assigned to it. -/
def resolve (chosen : List Choice) (values : List (Nat × Choice)) : List Lexeme → List Term
  | [] => []
  | .number value :: rest => .number value :: resolve chosen values rest
  | .op operator :: rest => .op operator :: resolve chosen values rest
  | .opening :: rest => .opening :: resolve chosen values rest
  | .closing :: rest => .closing :: resolve chosen values rest
  | .index i :: rest => ((values.lookup i).toList.map Term.ofChoice) ++ resolve chosen values rest
  | .symbol _ :: rest => ((chosen.take 1).map Term.ofChoice) ++ resolve (chosen.drop 1) values rest

/-- The branches of the indices that a leaf reads, in order, or the first index without a value. -/
def gather (lookup : Nat → Option Branches) : List Nat → Except Nat (List Branches)
  | [] => .ok []
  | i :: rest =>
    match lookup i with
    | none => .error i
    | some values => (gather lookup rest).map (values :: ·)

/-- The value of one combination of choices. -/
def combine (i : Nat) (context : Text) (lexemes : List Lexeme) (combination : List Choice) :
    Except EvaluationFault Float :=
  let symbols := (Lexeme.symbolChoices lexemes).length
  let values := (Lexeme.indices lexemes).zip (combination.drop symbols)
  let terms := resolve (combination.take symbols) values lexemes
  match Sum.value terms with
  | .error (.grammatical fault) => .error (.node i context (.grammatical fault))
  | .error (.divisionByZero numerator) => .error (.divisionByZero numerator)
  | .ok value =>
    if value.isFinite then .ok value else .error (.notFinite "Arithmetic" (terms.filterMap Term.number?))

/-- The branches of a leaf, in the order of its combinations, given the branches of the indices it may read. -/
def branches (i : Nat) (context : Text) (lookup : Nat → Option Branches) : Except EvaluationFault Branches :=
  match Lexeme.scan context with
  | .error fault => .error (.node i context (.lexical fault))
  | .ok lexemes =>
    match gather lookup (Lexeme.indices lexemes) with
    | .error missing => .error (.node i context (.noValue missing))
    | .ok values =>
      let choices := Lexeme.symbolChoices lexemes ++ values.map fun list => list.map Choice.number
      Combination.mapChoices choices (combine i context lexemes)

end FormulaDag.Leaf
