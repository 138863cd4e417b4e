import FormulaDag.Dag.Reach
import FormulaDag.Evaluation.Memo
import FormulaDag.Failure
import FormulaDag.RuleSet

/-!
# Outlines

The dependency tree of a node as indented lines, each with the branches kept for its node. A node that was shown before is shown as
a reference to the level of its first line, without its dependencies.
-/

namespace FormulaDag.Outline

/-- A node that is still to be shown: its level, the part of the indentation that its dependencies take over from it, and the
connector in front of it. -/
structure Entry where
  level : Nat
  stem : String
  connector : String
  node : Nat
deriving DecidableEq

/-- The connector before the last of the dependencies of a node. -/
def lastConnector : String := "`--"

/-- The connector before the other dependencies of a node. -/
def innerConnector : String := "|--"

/-- The indentation below an entry: its own, with blanks or a bar in place of the connector. -/
def Entry.below (e : Entry) : String :=
  e.stem ++ if e.connector = lastConnector then "   " else if e.connector = innerConnector then "|  " else ""

/-- The entries for the dependencies of an entry. -/
def children (e : Entry) : List Nat → List Entry
  | [] => []
  | [i] => [⟨e.level + 1, e.below, lastConnector, i⟩]
  | i :: rest => ⟨e.level + 1, e.below, innerConnector, i⟩ :: children e rest

/-- How the kind of a node is shown. -/
def label (s : RuleSet) : Option NodeKind → String
  | some (.variable _) => "Var"
  | some (.rule o) => ((s.get? o.rule).map Rule.name).getD "?"
  | some .sum => "Arithmetic"
  | none => "?"

/-- How the branches of a node are shown. -/
def value : Option Branches → String
  | some values => "[" ++ ", ".intercalate (values.map Decimal.shown) ++ "]"
  | none => "[?]"

/-- The line of a node that is shown for the first time. -/
def fullLine (d : Dag) (s : RuleSet) (m : Memo) (key : Key) (e : Entry) : String :=
  e.stem ++ e.connector ++ "[L" ++ Nat.repr e.level ++ "] " ++ Index.name e.node ++ " " ++
    label s ((d.node? e.node).map Node.kind) ++ " '" ++ (d.context e.node).asString ++ "' = " ++
    value (m.get? e.node key)

/-- The line of a node that was shown before on the given level. -/
def referenceLine (e : Entry) (level : Nat) : String :=
  e.stem ++ e.connector ++ "-> (Ref to L" ++ Nat.repr level ++ ") " ++ Index.name e.node

/-- The lines of pending entries. `shown` holds the nodes shown before, each with its level. -/
def lines (d : Dag) (s : RuleSet) (m : Memo) (key : Key) (shown : List (Nat × Nat)) (pending : List Entry) :
    List String :=
  match pending with
  | [] => []
  | e :: rest =>
    match _seen : shown.lookup e.node with
    | some level => referenceLine e level :: lines d s m key shown rest
    | none =>
      if _exists : e.node < d.size then
        fullLine d s m key e ::
          lines d s m key ((e.node, e.level) :: shown) (children e (d.dependencies e.node) ++ rest)
      else fullLine d s m key e :: lines d s m key ((e.node, e.level) :: shown) rest
termination_by ((d.unseen (shown.map Prod.fst)).length, pending.length)
decreasing_by
  · exact Prod.Lex.right _ (by simp)
  · refine Prod.Lex.left _ _ (Dag.length_unseen_lt _exists ?_)
    intro h
    obtain ⟨entry, mem, heq⟩ := List.mem_map.1 h
    rw [List.lookup_eq_none_iff] at _seen
    exact absurd (_seen entry mem) (by simp [heq])
  · have hle := @Dag.length_unseen_le d (shown.map Prod.fst) e.node
    rcases Nat.lt_or_eq_of_le hle with h | h
    · exact Prod.Lex.left _ _ h
    · rw [List.map_cons, h]
      exact Prod.Lex.right _ (by simp)

/-- The outline of a node: two lines of heading and the lines of the tree. -/
def render (d : Dag) (s : RuleSet) (m : Memo) (key : Key) (target : Nat) : String :=
  let all := match d.node? target with
    | some n =>
      ("TRACE for '" ++ n.context.asString ++ "':") :: String.ofList (List.replicate 50 '-') ::
        lines d s m key [] [⟨1, "", "", target⟩]
    | none => ["Error: Invalid Node ID NodeId(" ++ Nat.repr target ++ ")"]
  String.join (all.map (· ++ "\n"))

end FormulaDag.Outline
