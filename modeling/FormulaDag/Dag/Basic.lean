import FormulaDag.Contexts.Basic
import FormulaDag.RuleSet

/-!
# Dags

A formula is a directed acyclic graph of nodes. Node `i` has a context, a kind that says how the context is evaluated, and the nodes
that the context refers to.
-/

namespace FormulaDag

/-- How a context is evaluated: it is a variable, given by its position among the declared ones, an occurrence of a rule that takes
up the whole context, or a sum. -/
inductive NodeKind where
  | variable (position : Nat)
  | rule (o : Occurrence)
  | sum
deriving DecidableEq

/-- A node of a dag. -/
structure Node where
  kind : NodeKind
  context : Text
  dependencies : List Nat
deriving DecidableEq

/-- Nodes numbered from zero on. -/
structure Dag where
  nodes : List Node
deriving DecidableEq

namespace Dag

/-- The number of nodes. -/
def size (d : Dag) : Nat := d.nodes.length

/-- The node with a number. -/
def node? (d : Dag) (i : Nat) : Option Node := d.nodes[i]?

/-- The context of a node, empty when there is no such node. -/
def context (d : Dag) (i : Nat) : Text := ((d.node? i).map Node.context).getD []

/-- The nodes that a node refers to, none when there is no such node. -/
def dependencies (d : Dag) (i : Nat) : List Nat := ((d.node? i).map Node.dependencies).getD []

/-- Adds a node at the end. -/
def add (d : Dag) (n : Node) : Dag := ⟨d.nodes ++ [n]⟩

/-- The position of the variable that a context is. -/
def letterPosition? (letters : List Char) : Text → Option Nat
  | [c] => if c ∈ letters then some (letters.idxOf c) else none
  | _ => none

/-- How a context is evaluated. -/
def kindOf (s : RuleSet) (letters : List Char) (t : Text) : Except OperandFault NodeKind :=
  match letterPosition? letters t with
  | some position => .ok (.variable position)
  | none =>
    match s.resolve t with
    | .error fault => .error fault
    | .ok (some o) => .ok (.rule o)
    | .ok none => .ok .sum

/-- The node of a context. -/
def nodeOf (s : RuleSet) (letters : List Char) (t : Text) : Except OperandFault Node :=
  (kindOf s letters t).map fun kind => ⟨kind, t, Token.references t⟩

/-- The nodes of contexts, one for each, in the order of their indices. -/
def build (s : RuleSet) (letters : List Char) (c : Contexts) : Except OperandFault Dag :=
  (c.texts.mapM (nodeOf s letters)).map Dag.mk

end Dag

end FormulaDag
