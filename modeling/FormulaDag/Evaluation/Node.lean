import FormulaDag.Dag.Basic
import FormulaDag.Leaf.Expansion

/-!
# The value of a node

The branches of a node, given those of the nodes it depends on. A variable has its value. A rule is applied to every combination of
branches of its operands; two operands that refer to the same node vary independently. A sum is expanded as a leaf. The result is
brought into normal form.
-/

namespace FormulaDag.Evaluation

/-- The values that one operand ranges over; an absent operand has none but still counts as one choice. -/
def operandChoices (i : Nat) (rule : String) (lookup : Nat → Option Branches) (slot : Slot) :
    Option Operand → Except EvaluationFault (List (Option Float))
  | none => .ok [none]
  | some (.literal value) => .ok [some value]
  | some (.index j) =>
    match lookup j with
    | some values => .ok (values.map some)
    | none => .error (.unreducedOperand slot.name rule i)
  | some (.raw _) => .error (.unreducedOperand slot.name rule i)

/-- The value of a rule on one combination of operands, which has to be finite. -/
def applyRule (r : Rule) (selector : Option String) (values : List (Option Float)) : Except EvaluationFault Float :=
  match r.apply ⟨selector, values⟩ with
  | .error fault => .error fault
  | .ok x => if x.isFinite then .ok x else .error (.notFinite r.name (values.filterMap id))

/-- The values of a rule node on all combinations of its operands, in order. -/
def ruleBranches (s : RuleSet) (i : Nat) (o : Occurrence) (lookup : Nat → Option Branches) :
    Except EvaluationFault Branches :=
  match s.get? o.rule with
  | none => .error (.unknownFunction ("rule " ++ Nat.repr o.rule))
  | some r =>
    match (r.slots.zip o.operands).mapM fun (slot, operand) => operandChoices i r.name lookup slot operand with
    | .error fault => .error fault
    | .ok choices => Combination.mapChoices choices (applyRule r o.selector)

/-- The branches of a node before they are brought into normal form. -/
def rawBranches (s : RuleSet) (values : List Float) (i : Nat) (n : Node) (lookup : Nat → Option Branches) :
    Except EvaluationFault Branches :=
  match n.kind with
  | .variable position =>
    match values[position]? with
    | some x => .ok [x]
    | none => .error (.node i n.context (.noVariable position))
  | .rule o => ruleBranches s i o lookup
  | .sum => Leaf.branches i n.context lookup

/-- The branches of a node. -/
def nodeBranches (s : RuleSet) (precision : Nat) (values : List Float) (i : Nat) (n : Node)
    (lookup : Nat → Option Branches) : Except EvaluationFault Branches :=
  (rawBranches s values i n lookup).map (Branches.normalForm precision)

end FormulaDag.Evaluation
