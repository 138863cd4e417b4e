import FormulaDag.Proofs.Evaluation.Recursion
import FormulaDag.Proofs.Rule.Insertion

/-!
# A further function in evaluation

The number of its rule is all that a node knows of the rule that describes it. When the rules have got other numbers and the nodes have
been given the same ones, every node has the branches that it had, so evaluation gives and keeps the same results.
-/

namespace FormulaDag

/-- The kind with another number for its rule. -/
def NodeKind.renumber (φ : Nat → Nat) : NodeKind → NodeKind
  | .variable position => .variable position
  | .rule o => .rule (o.renumber φ)
  | .sum => .sum

/-- The node with another number for its rule. -/
def Node.renumber (φ : Nat → Nat) (n : Node) : Node := { n with kind := n.kind.renumber φ }

namespace Dag

/-- The dag with other numbers for the rules of its nodes. -/
def renumber (φ : Nat → Nat) (d : Dag) : Dag := ⟨d.nodes.map (Node.renumber φ)⟩

section
variable (φ : Nat → Nat) (d : Dag)

@[simp] theorem size_renumber : (d.renumber φ).size = d.size := List.length_map _

@[simp] theorem node?_renumber (i : Nat) : (d.renumber φ).node? i = (d.node? i).map (Node.renumber φ) := List.getElem?_map

@[simp] theorem context_renumber (i : Nat) : (d.renumber φ).context i = d.context i := by
  rw [context, context, node?_renumber, Option.map_map]
  rfl

/-- Renumbered rules do not change what a node depends on. -/
@[simp] theorem dependencies_renumber (i : Nat) : (d.renumber φ).dependencies i = d.dependencies i := by
  rw [dependencies, dependencies, node?_renumber, Option.map_map]
  rfl

/-- The same nodes are demanded. -/
theorem demandFrom_renumber (known : Nat → Bool) (path demanded pending : List Nat) :
    (d.renumber φ).demandFrom known path demanded pending = d.demandFrom known path demanded pending := by
  induction path, demanded, pending using demandFrom.induct d known with
  | case1 path demanded => rw [demandFrom, demandFrom]
  | case2 path demanded i rest hskip ih => rw [demandFrom, demandFrom, if_pos hskip, if_pos hskip, ih]
  | case3 path demanded i rest hskip hpath => rw [demandFrom, demandFrom, if_neg hskip, if_neg hskip, dif_pos hpath, dif_pos hpath]
  | case4 path demanded i rest hskip hpath hsize fault hfault ih =>
    rw [demandFrom, demandFrom, if_neg hskip, if_neg hskip, dif_neg hpath, dif_neg hpath, dif_pos (by simpa using hsize), dif_pos hsize,
      dependencies_renumber, ih, hfault]
  | case5 path demanded i rest hskip hpath hsize more hmore ih ih' =>
    rw [demandFrom, demandFrom, if_neg hskip, if_neg hskip, dif_neg hpath, dif_neg hpath, dif_pos (by simpa using hsize), dif_pos hsize,
      dependencies_renumber, ih, hmore]
    exact ih'
  | case6 path demanded i rest hskip hpath hsize =>
    rw [demandFrom, demandFrom, if_neg hskip, if_neg hskip, dif_neg hpath, dif_neg hpath, dif_neg (by simpa using hsize), dif_neg hsize]

end

section
variable {s s' : RuleSet} {f : UserFunction} {before after : List UserFunction} (hs : s.functions = before ++ after)
  (hs' : s'.functions = before ++ f :: after)
include hs hs'

/-- A context that lacks the name of the further function has the same node, with the new number of its rule. -/
theorem nodeOf_insert (letters : List Char) {t : Text} (h : f.name.Lacks t) :
    nodeOf s' letters t = (nodeOf s letters t).map (Node.renumber (RuleSet.shift before.length)) := by
  rw [nodeOf, nodeOf, kindOf, kindOf, RuleSet.resolve_insert hs hs' h]
  cases letterPosition? letters t with
  | some position => rfl
  | none =>
    cases s.resolve t with
    | error fault => rfl
    | ok found => cases found <;> rfl

/-- Contexts that lack the name have the same dag, with the new numbers of the rules. -/
theorem build_insert (letters : List Char) {c : Contexts} (h : ∀ t ∈ c.texts, f.name.Lacks t) :
    build s' letters c = (build s letters c).map (renumber (RuleSet.shift before.length)) := by
  have hnodes : ∀ texts : List Text, (∀ t ∈ texts, f.name.Lacks t) → texts.mapM (nodeOf s' letters) =
      (texts.mapM (nodeOf s letters)).map (List.map (Node.renumber (RuleSet.shift before.length))) := by
    intro texts htexts
    induction texts with
    | nil => rfl
    | cons t rest ih =>
      rw [List.mapM_cons, List.mapM_cons, nodeOf_insert hs hs' letters (htexts t (by simp)),
        ih fun u hu => htexts u (List.mem_cons_of_mem _ hu)]
      cases nodeOf s letters t with
      | error fault => rfl
      | ok n => cases rest.mapM (nodeOf s letters) <;> rfl
  rw [build, build, hnodes c.texts h]
  cases c.texts.mapM (nodeOf s letters) <;> rfl

end

end Dag

/-- Two rule sets have the same rules under numbers that correspond. -/
def RuleSet.Renumbered (φ : Nat → Nat) (s s' : RuleSet) : Prop := ∀ id, s'.get? (φ id) = s.get? id

section
variable {φ : Nat → Nat} {s s' : RuleSet} (hrules : s.Renumbered φ s')
include hrules

namespace Evaluation

/-- A node has the branches that it had. -/
theorem nodeBranches_renumber (precision : Nat) (values : List Float) (i : Nat) {n : Node} (h : Filled s n)
    (lookup : Nat → Option Branches) :
    nodeBranches s' precision values i (n.renumber φ) lookup = nodeBranches s precision values i n lookup := by
  have hraw : rawBranches s' values i (n.renumber φ) lookup = rawBranches s values i n lookup := by
    cases hk : n.kind with
    | rule o =>
      obtain ⟨r, hr, -⟩ := h o hk
      simp only [rawBranches, Node.renumber, hk, NodeKind.renumber, ruleBranches, Occurrence.renumber, hrules o.rule, hr]
    | _ => simp only [rawBranches, Node.renumber, hk, NodeKind.renumber]
  rw [nodeBranches, nodeBranches, hraw]

variable {d : Dag} (hfilled : ∀ n ∈ d.nodes, Filled s n)
include hfilled

/-- Nodes are computed alike under renumbered rules. -/
theorem computeAll_renumber (precision : Nat) (a : Valuation) (l : List Nat) (m : Memo) :
    computeAll ⟨d.renumber φ, s', precision⟩ a l m = computeAll ⟨d, s, precision⟩ a l m := by
  induction l generalizing m with
  | nil => rfl
  | cons i rest ih =>
    simp only [computeAll, Dag.node?_renumber]
    cases hn : d.node? i with
    | none => rfl
    | some n =>
      simp only [Option.map_some, nodeBranches_renumber hrules precision a.values i (hfilled n (List.mem_of_getElem? hn))]
      cases nodeBranches s precision a.values i n fun j => m.get? j a.key with
      | error fault => rfl
      | ok result => exact ih _

/-- A target has the same branches, and the same results are kept. -/
theorem evaluate_renumber (precision : Nat) (a : Valuation) (target : Nat) (m : Memo) :
    evaluate ⟨d.renumber φ, s', precision⟩ a target m = evaluate ⟨d, s, precision⟩ a target m := by
  simp only [evaluate, Dag.demand, Dag.demandFrom_renumber, computeAll_renumber hrules hfilled, Dag.context_renumber]

end Evaluation

end

end FormulaDag
