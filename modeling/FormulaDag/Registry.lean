import FormulaDag.RuleSet

/-!
# Registries

A registry keeps all rules in one list and counts the functions of the user, which stand at its front. A new function is inserted where
the count says, so it moves the standard rules by one and no function before it. A registry of a rule set holds its rules in their order.
-/

namespace FormulaDag

/-- Rules in the order in which they are tried, the counted ones from functions of the user. -/
structure Registry where
  rules : List Rule
  count : Nat

namespace Registry

/-- The standard rules alone. -/
def standard : Registry := ⟨Rule.standard, 0⟩

/-- The rules with their numbers. -/
def numbered (r : Registry) : List (Nat × Rule) := r.rules.zipIdx.map fun (rule, id) => (id, rule)

/-- The rule with a number. -/
def get? (r : Registry) (id : Nat) : Option Rule := r.rules[id]?

/-- The names of the counted rules. -/
def functionNames (r : Registry) : List String := (r.rules.take r.count).map Rule.name

/-- Whether a word is the name of a counted rule. -/
def isFunction (r : Registry) (word : Text) : Bool := r.functionNames.any fun name => name == String.ofList word

/-- Whether a word may follow a backslash: it is reserved or names a counted rule. -/
def isCommand (r : Registry) (word : Text) : Bool := Command.isReserved word || r.isFunction word

/-- Inserts the rule of a function behind the counted ones and counts it, unless its name is taken. The answer holds its number. -/
def register (r : Registry) (f : UserFunction) : Except FunctionFault (Nat × Registry) :=
  if r.isCommand f.name then .error (.alreadyRegistered f.name)
  else .ok (r.count, ⟨r.rules.insertIdx r.count f.rule, r.count + 1⟩)

/-- The first rule in order whose leftmost occurrence takes up the whole text, unless a rule before it refuses an operand. -/
def resolve (r : Registry) (t : Text) : Except OperandFault (Option Occurrence) := RuleSet.resolveWith t r.numbered

end Registry

/-- The rules of a set, with the number of its functions. -/
def RuleSet.registry (s : RuleSet) : Registry := ⟨s.rules, s.functions.length⟩

end FormulaDag
