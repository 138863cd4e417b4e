import FormulaDag.Evaluation.Demand
import FormulaDag.Evaluation.Memo
import FormulaDag.Evaluation.Node

/-!
# Evaluation on demand

A target is evaluated by computing the nodes it demands, dependencies first, and keeping each result. A failure ends the
evaluation; results computed before it are kept.
-/

namespace FormulaDag

/-- A dag with what is needed to evaluate it. -/
structure Evaluation where
  dag : Dag
  rules : RuleSet
  precision : Nat

namespace Evaluation

/-- Values of the variables with the key under which results are kept. -/
structure Valuation where
  values : List Float
  key : Key

/-- The assignment of values to the variables. -/
def Valuation.ofValues (values : List Float) : Valuation := ⟨values, Key.ofValues values⟩

/-- Computes nodes one after the other and keeps their results, up to the first failure. -/
def computeAll (e : Evaluation) (a : Valuation) : List Nat → Memo → Except EvaluationFault Unit × Memo
  | [], m => (.ok (), m)
  | i :: rest, m =>
    match e.dag.node? i with
    | none => (.error (.node i [] .noSuchIndex), m)
    | some n =>
      match nodeBranches e.rules e.precision a.values i n fun j => m.get? j a.key with
      | .error fault => (.error fault, m)
      | .ok result => computeAll e a rest (m.insert i a.key result)

/-- The branches of a target, with the memo after computing them. -/
def evaluate (e : Evaluation) (a : Valuation) (target : Nat) (m : Memo) :
    Except EvaluationFault Branches × Memo :=
  match m.get? target a.key with
  | some found => (.ok found, m)
  | none =>
    match e.dag.demand (fun i => m.contains i a.key) target with
    | .error fault => (.error fault, m)
    | .ok demanded =>
      match e.computeAll a demanded m with
      | (.error fault, kept) => (.error fault, kept)
      | (.ok (), kept) =>
        match kept.get? target a.key with
        | some result => (.ok result, kept)
        | none => (.error (.node target (e.dag.context target) .noSuchIndex), kept)

end Evaluation

end FormulaDag
