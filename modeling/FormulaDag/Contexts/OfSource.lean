import FormulaDag.Pool.Binding
import FormulaDag.Pool.Canonical
import FormulaDag.Pool.Grouping
import FormulaDag.Pool.Reduction
import FormulaDag.Source.Spacing
import FormulaDag.Source.WellFormed

/-!
# The contexts of a source text

The white space of a source text is taken away and the text is checked. Then its groups become indices, the occurrences of rules in
them too, and in the end the variables. Equal texts share one index throughout.
-/

namespace FormulaDag

namespace Pool

/-- The pool of a well-formed source text once its groups have been taken apart. -/
def ofGroups (source : Text) : Pool := (ofBraces source).withoutGroups.canonical

/-- The pool of a well-formed source text before its variables are bound. -/
def ofSource (s : RuleSet) (source : Text) : Except OperandFault Pool :=
  (reduce s (ofGroups source)).map canonical

end Pool

namespace Contexts

/-- The contexts of a well-formed source text without white space. -/
def ofWellFormed (s : RuleSet) (letters : List Char) (text : Text) : Except OperandFault Contexts :=
  (Pool.ofSource s text).map fun p => (p.bindLetters s.functionNames letters).freeze

/-- The contexts of a source text over the given variables. -/
def ofSource (s : RuleSet) (letters : List Char) (source : Text) : Except Failure Contexts :=
  match Source.fault? s letters (Source.stripBlanks s.functionNames source) with
  | some fault => .error (.source fault)
  | none => (ofWellFormed s letters (Source.stripBlanks s.functionNames source)).mapError Failure.operand

end Contexts

end FormulaDag
