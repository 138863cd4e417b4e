import FormulaDag.Rule.Standard
import FormulaDag.UserFunction

/-!
# Rule sets

The rules that a text is read with: the functions of the user in the order of their registration, then the standard rules. A rule
is named by its position, so a function keeps its number when further ones are registered. Names of functions are distinct.
-/

namespace FormulaDag

/-- The functions of the user that are registered beside the standard rules. -/
structure RuleSet where
  functions : List UserFunction
  distinct : (functions.map UserFunction.name).Nodup

namespace RuleSet

/-- The standard rules alone. -/
def standard : RuleSet := ⟨[], by simp⟩

/-- The rules in the order in which they are tried. -/
def rules (s : RuleSet) : List Rule := s.functions.map UserFunction.rule ++ Rule.standard

/-- The rules with their numbers. -/
def numbered (s : RuleSet) : List (Nat × Rule) := s.rules.zipIdx.map fun (r, id) => (id, r)

/-- The rule with a number. -/
def get? (s : RuleSet) (id : Nat) : Option Rule := s.rules[id]?

/-- The names of the functions of the user. -/
def functionNames (s : RuleSet) : List Text := s.functions.map UserFunction.name

/-- Whether a word is the name of a registered function. -/
def isFunction (s : RuleSet) (word : Text) : Bool := s.functionNames.contains word

/-- Whether a word may follow a backslash: it is reserved or names a function. -/
def isCommand (s : RuleSet) (word : Text) : Bool := Command.isReserved word || s.isFunction word

/-- Registers a function after those registered before, unless its name is taken. The answer holds the number of its rule. -/
def register (s : RuleSet) (f : UserFunction) : Except FunctionFault (Nat × RuleSet) :=
  if taken : s.isCommand f.name = true then .error (.alreadyRegistered f.name)
  else .ok (s.functions.length, ⟨s.functions ++ [f], by
    have free : f.name ∉ s.functions.map UserFunction.name := by
      simp only [isCommand, isFunction, functionNames, Bool.or_eq_true, List.contains_iff_mem, not_or] at taken
      exact taken.2
    rw [List.map_append, List.nodup_append]
    refine ⟨s.distinct, by simp, ?_⟩
    intro a ha b hb
    simp only [List.map_cons, List.map_nil, List.mem_singleton] at hb
    subst hb
    intro hab
    exact free (hab ▸ ha)⟩)

/-- Registers functions one after the other. -/
def registerAll (s : RuleSet) : List UserFunction → Except FunctionFault RuleSet
  | [] => .ok s
  | f :: rest =>
    match s.register f with
    | .error fault => .error fault
    | .ok (_, larger) => registerAll larger rest

/-- The first occurrence in the order of the rules that takes up the whole text, unless a rule before it refuses an operand. -/
def resolveWith (t : Text) : List (Nat × Rule) → Except OperandFault (Option Occurrence)
  | [] => .ok none
  | (id, r) :: rest =>
    match r.findWhole id t with
    | .error fault => .error fault
    | .ok (some o) => .ok (some o)
    | .ok none => resolveWith t rest

/-- The rule that describes a whole text, with its operands. -/
def resolve (s : RuleSet) (t : Text) : Except OperandFault (Option Occurrence) := resolveWith t s.numbered

end RuleSet

end FormulaDag
