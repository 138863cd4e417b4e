import FormulaDag.Dag.Reach
import FormulaDag.Failure

/-!
# Demand

Before a node can be computed, the nodes it depends on have to be. `demand` lists the nodes that are missing, each after those it
depends on. A node with a result is skipped together with everything that only it needs. The walk is depth first; the path holds
the nodes whose dependencies are being visited, so meeting one of them again is a cycle.
-/

namespace FormulaDag.Dag

/-- Appends the nodes that the pending ones demand to a list of demanded nodes. -/
def demandFrom (d : Dag) (known : Nat → Bool) (path demanded pending : List Nat) :
    Except EvaluationFault (List Nat) :=
  match pending with
  | [] => .ok demanded
  | i :: rest =>
    if demanded.contains i || known i then demandFrom d known path demanded rest
    else if _onPath : path.contains i then .error (.cycle i)
    else if _exists : i < d.size then
      match demandFrom d known (i :: path) demanded (d.dependencies i) with
      | .error fault => .error fault
      | .ok more => demandFrom d known path (more ++ [i]) rest
    else .error (.node i [] .noSuchIndex)
termination_by ((d.unseen path).length, pending.length)
decreasing_by
  · exact Prod.Lex.right _ (by simp)
  · exact Prod.Lex.left _ _ (length_unseen_lt _exists (by simpa using _onPath))
  · exact Prod.Lex.right _ (by simp)

/-- The nodes to compute for a target, dependencies first, given which nodes have results. -/
def demand (d : Dag) (known : Nat → Bool) (target : Nat) : Except EvaluationFault (List Nat) :=
  d.demandFrom known [] [] [target]

end FormulaDag.Dag
