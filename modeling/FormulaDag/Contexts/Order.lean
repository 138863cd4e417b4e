import FormulaDag.Contexts.Basic
import FormulaDag.Failure

/-!
# The order of dependencies

A context depends on the indices that it refers to. `order` lists all indices, whether they have a context or are only referred
to, with dependencies before what depends on them, or names an index that lies on a cycle. It is the reverse of the order in which
a depth-first walk along dependents finishes. The walk finds the cycles of length one; any other cycle leaves a dependency behind
what depends on it in the order, and the check afterwards finds it.
-/

namespace FormulaDag

/-- What each index refers to, in ascending order of the index. -/
abbrev References := List (Nat × List Nat)

namespace References

/-- All indices, each once: every index followed by what it refers to. -/
def vertices (r : References) : List Nat := (r.flatMap fun e => e.1 :: e.2).eraseDups

/-- The indices that refer to the given one, in ascending order. -/
def dependents (r : References) (i : Nat) : List Nat :=
  r.filterMap fun e => if e.2.contains i then some e.1 else none

/-- What an index refers to. -/
def dependencies (r : References) (i : Nat) : List Nat := (r.lookup i).getD []

/-- The walk along dependents. The stack holds the indices to visit, `remaining` those that were never visited and `finished` those
whose dependents were all visited, the latest first. It fails at an index that refers to itself. -/
def walk (r : References) (remaining finished stack : List Nat) : Except Nat (List Nat) :=
  match stack with
  | [] => .ok finished
  | i :: below =>
    if _unvisited : i ∈ remaining then
      if (r.dependents i).contains i then .error i
      else
        walk r (remaining.erase i) finished
          (((r.dependents i).filter fun d => (remaining.erase i).contains d).reverse ++ i :: below)
    else walk r remaining (if finished.contains i then finished else i :: finished) below
termination_by (remaining.length, stack.length)
decreasing_by
  · have := List.length_erase_of_mem _unvisited
    have := List.length_pos_of_mem _unvisited
    exact Prod.Lex.left _ _ (by omega)
  · exact Prod.Lex.right _ (by simp)

/-- The last of the dependencies of the first index in a list that has a dependency neither before it nor equal to it. -/
def misplaced? (r : References) (placed : List Nat) : List Nat → Option Nat
  | [] => none
  | i :: rest =>
    match ((r.dependencies i).filter fun d => d != i && !placed.contains d).getLast? with
    | some d => some d
    | none => misplaced? r (i :: placed) rest

/-- The order of dependencies, or an index on a cycle. -/
def order (r : References) : Except Nat (List Nat) :=
  match r.walk r.vertices [] r.vertices with
  | .error i => .error i
  | .ok found =>
    match r.misplaced? [] found with
    | some i => .error i
    | none => .ok found

end References

namespace Contexts

/-- What each context refers to. -/
def references (c : Contexts) : References := c.entries.map fun e => (e.1, Token.references e.2)

/-- The order of dependencies of contexts, or an index on a cycle. -/
def order (c : Contexts) : Except Nat (List Nat) := c.references.order

/-- The first reference of a context, in ascending order of the contexts, that is no index with a context. -/
def dangling? (c : Contexts) : List (Nat × Text) → Option ContextsFault
  | [] => none
  | (i, t) :: rest =>
    match (Token.numerals t).find? fun number => !(Index.read? number).any c.indices.contains with
    | some number => some (.dangling i number)
    | none => dangling? c rest

/-- The first condition that the contexts do not meet: there is one, there is a root, every reference has a context, and none
depends on itself. -/
def fault? (c : Contexts) : Option ContextsFault :=
  if c.entries = [] then some .notDefined
  else if !c.indices.contains Index.root then some .missingRoot
  else
    match c.dangling? c.entries with
    | some fault => some fault
    | none =>
      match c.order with
      | .error i => some (.cycle i)
      | .ok _ => none

/-- Accepts the contexts that meet every condition. -/
def validate (c : Contexts) : Except ContextsFault Unit :=
  match c.fault? with
  | some fault => .error fault
  | none => .ok ()

end Contexts

end FormulaDag
