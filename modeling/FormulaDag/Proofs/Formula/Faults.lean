import FormulaDag.Proofs.Evaluation.Faults
import FormulaDag.Proofs.Formula.Reconfiguration
import FormulaDag.Proofs.Formula.Renumbering

/-!
# Faults that no formula reports

However a formula made from valid contexts is used, no evaluation meets a cycle, a node that is missing, a result or a value of a variable
that is not there, a rule that is not in the set, or an operand that refers to a node without a result. The indices that the scan of a sum
reads are the references that the order of evaluation was made from.
-/

namespace FormulaDag

namespace Formula

/-- A formula, and what it becomes by operations and by changes of its settings. -/
inductive Used (f : Formula) : Formula → Prop where
  | new : Used f f
  | operation {g : Formula} (h : Used f g) (op : Operation) : Used f (op.run g).2
  | settings {g g' : Formula} {settings : Settings} (h : Used f g) (hg : g.withSettings settings = .ok g') : Used f g'

/-- The parts of a formula that no use of it changes. -/
structure SameParts (f g : Formula) : Prop where
  letters : g.letters = f.letters
  rules : g.rules = f.rules
  dag : g.dag = f.dag
  slots : g.memo.slots = f.memo.slots

namespace SameParts

variable {f g g' : Formula}

/-- A formula has the same parts as itself. -/
theorem refl (f : Formula) : SameParts f f := ⟨rfl, rfl, rfl, rfl⟩

/-- Formulas with the same parts as a third one have them in common. -/
theorem trans (h : SameParts f g) (h' : SameParts g g') : SameParts f g' :=
  ⟨h'.letters.trans h.letters, h'.rules.trans h.rules, h'.dag.trans h.dag, h'.slots.trans h.slots⟩

/-- The root changes no part of a formula but its memo. -/
theorem root (f : Formula) (arguments : List (Text × Argument)) : SameParts f (f.root arguments).2 := by
  rw [Formula.root]
  split
  · exact .refl f
  · rename_i values _
    have hslots := f.evaluation.slots_evaluate (.ofValues values) Index.root f.memo
    split
    · rename_i heq
      rw [heq] at hslots
      exact ⟨rfl, rfl, rfl, hslots⟩
    · rename_i heq
      rw [heq] at hslots
      exact ⟨rfl, rfl, rfl, hslots⟩

end SameParts

/-- Use changes no part of a formula but its memo. -/
theorem Used.sameParts {f g : Formula} (h : Used f g) : SameParts f g := by
  induction h with
  | new => exact .refl f
  | operation _ op ih => exact Operation.run_invariant (fun g arguments hg => hg.trans (.root g arguments)) ih op
  | settings _ hg ih =>
    obtain ⟨_, -, hg⟩ := bind_eq_ok.1 hg
    exact ih.trans (Except.ok.inj hg ▸ ⟨rfl, rfl, rfl, rfl⟩)

/-- The faults of a formula that is put together in a wrong way. The operand in a slot is to blame for a fault there only if it is text. -/
inductive Internal (f : Formula) : EvaluationFault → Prop where
  | cycle (i : Nat) : Internal f (.cycle i)
  | noSuchIndex (i : Nat) (context : Text) : Internal f (.node i context .noSuchIndex)
  | noValue (i : Nat) (context : Text) (j : Nat) : Internal f (.node i context (.noValue j))
  | noVariable (i : Nat) (context : Text) (position : Nat) : Internal f (.node i context (.noVariable position))
  | unknownFunction (name : String) : Internal f (.unknownFunction name)
  | noText {i : Nat} {slot : String} (rule : String) (h : ∀ t, f.evaluation.operand? i slot ≠ some (.raw t)) :
      Internal f (.unreducedOperand slot rule i)

/-- Formulas with the same parts have the same operands. -/
theorem SameParts.operand? {f g : Formula} (h : SameParts f g) (i : Nat) (slot : String) :
    g.evaluation.operand? i slot = f.evaluation.operand? i slot := by
  simp only [Evaluation.operand?, evaluation, h.dag, h.rules]

/-- Formulas with the same parts report the same faults. -/
theorem SameParts.reports {f g : Formula} (h : SameParts f g) {known : Nat → Option Branches} {fault : EvaluationFault}
    (hg : g.evaluation.Reports known fault) : f.evaluation.Reports known fault := by
  cases hg with
  | ordinary hfault => exact .ordinary hfault
  | text ht => exact .text (h.operand? _ _ ▸ ht)
  | function hfails =>
    have hdag : g.evaluation.dag = f.evaluation.dag := h.dag
    have hrules : g.evaluation.rules = f.evaluation.rules := h.rules
    exact .function ⟨hdag ▸ hfails.node, hrules ▸ hfails.function, hfails.operand, hfails.result, hfails.branch, hfails.fails⟩

/-- What an evaluation reports is no internal fault, unless a function of the user fails with it at a node. -/
theorem not_internal_of_reports {f : Formula} {known : Nat → Option Branches} {fault : EvaluationFault}
    (h : f.evaluation.Reports known fault) :
    (∃ i j o u branches x, f.evaluation.FunctionFails known fault i j o u branches x) ∨ ¬ f.Internal fault := by
  cases h with
  | ordinary h =>
    refine .inr fun hinternal => ?_
    cases hinternal <;> cases h
  | text ht =>
    refine .inr fun hinternal => ?_
    cases hinternal with
    | noText _ hno => exact hno _ ht
  | function hfails => exact .inl ⟨_, _, _, _, _, _, hfails⟩

/-- The dag of a formula made from valid contexts is ranked and has a root, and its nodes are made from their contexts. -/
theorem facts_of_ofContexts {rules : RuleSet} {names : List Text} {contexts : Contexts} {f : Formula}
    (h : ofContexts rules names contexts = .ok f) :
    f.rules = rules ∧ f.memo.slots = f.dag.size ∧ Index.root < f.dag.size ∧ (∃ rank, f.dag.Ranked (· < f.dag.size) rank) ∧
      ∀ n ∈ f.dag.nodes, Dag.nodeOf f.rules f.letters n.context = .ok n := by
  have hc : contexts.WellShaped := by
    obtain ⟨_, -, h⟩ := bind_eq_ok.1 h
    obtain ⟨_, hvalid, -⟩ := bind_eq_ok.1 h
    exact Contexts.validate_eq_ok.1 (mapError_eq_ok.1 hvalid)
  obtain ⟨letters, dag, -, hbuild, rfl⟩ := (ofContexts_eq_ok_iff hc).1 h
  obtain ⟨ρ, hcompact⟩ := Contexts.exists_renumbered_compact hc
  have hshaped := hcompact.wellShaped hc
  have hdense := contexts.isDense_compact
  have hroot : Index.root < dag.size := by
    have hindices : contexts.compact.indices = List.range contexts.compact.size := by simpa [Contexts.isDense] using hdense
    have hmem := hshaped.rooted
    rw [hindices, ← Dag.size_of_build hbuild] at hmem
    exact List.mem_range.1 hmem
  exact ⟨rfl, rfl, hroot, Dag.exists_ranked_of_validate (Contexts.validate_eq_ok.2 hshaped) hdense hbuild, Dag.nodeOf_context hbuild⟩

/-- A formula made from valid contexts reports no internal fault of its own. Whatever was done with it before, failed operations and
changes of the settings included, when an evaluation with arguments that bind the variables fails with an internal fault, a function of the
user returned it: the function of a node of the formula, for a branch of the result that was computed for its operand. And the indices that
the scan of a sum reads are the references of its context, in the same order. -/
theorem root_not_internal {rules : RuleSet} {names : List Text} {contexts : Contexts} {f g : Formula}
    (h : ofContexts rules names contexts = .ok f) (hg : Used f g) {arguments : List (Text × Argument)} {values : List Float}
    (hbind : Argument.bind arguments g.letters = .ok values) :
    (∀ failure, (g.root arguments).1 = .error failure → ∃ fault, failure = .evaluation fault ∧
      ((∃ i j o u branches x, f.evaluation.FunctionFails (fun k => (g.root arguments).2.memo.get? k (Key.ofValues values)) fault
        i j o u branches x) ∨ ¬ f.Internal fault)) ∧
    ∀ n ∈ f.dag.nodes, n.kind = .sum → ∀ lexemes, Lexeme.scan n.context = .ok lexemes →
      Lexeme.indices lexemes = Token.references n.context ∧ n.dependencies = Token.references n.context := by
  obtain ⟨-, hslots, hroot, ⟨rank, hrank⟩, hnodes⟩ := facts_of_ofContexts h
  have hsame := hg.sameParts
  refine ⟨fun failure hfailure => ?_, fun n hn _ lexemes hscan =>
    ⟨Lexeme.indices_of_scan hscan, (Dag.nodeOf_eq_ok (hnodes n hn)).2.1⟩⟩
  rw [Formula.root, hbind] at hfailure ⊢
  simp only at hfailure ⊢
  split at hfailure
  · rename_i fault memo heq
    refine ⟨fault, (Except.error.inj hfailure).symm, ?_⟩
    have hvalues : (Evaluation.Valuation.ofValues values).values.length = g.letters.length := by
      simpa [Evaluation.Valuation.ofValues] using (congrArg List.length (mapM_eq_ok_iff.1 hbind)).symm
    have hnodes' : ∀ n ∈ g.dag.nodes, Dag.nodeOf g.rules g.letters n.context = .ok n := by
      rw [hsame.dag, hsame.rules, hsame.letters]
      exact hnodes
    have hrank' : g.dag.Ranked (· < g.dag.size) rank := by
      rw [hsame.dag]
      exact hrank
    have hslots' : g.memo.slots = g.dag.size := by
      rw [hsame.slots, hsame.dag]
      exact hslots
    have hroot' : Index.root < g.dag.size := by
      rw [hsame.dag]
      exact hroot
    have hreports := Evaluation.reports_of_evaluate (e := g.evaluation) hnodes' hvalues hrank' hslots' hroot' (congrArg Prod.fst heq)
    rw [heq] at hreports
    exact not_internal_of_reports (hsame.reports hreports)
  · cases hfailure

/-- A reciprocal at its pole, after a call without the variable and another one at the pole. -/
theorem root_not_internal_reciprocal :
    ∃ f g, ofContexts .standard ["x".toList] reciprocal = .ok f ∧ Used f g ∧
      Argument.bind [("x".toList, .number 0.0)] g.letters = .ok [0.0] ∧
      (∀ failure, (g.root [("x".toList, .number 0.0)]).1 = .error failure → ∃ fault, failure = .evaluation fault ∧
        ((∃ i j o u branches x, f.evaluation.FunctionFails
          (fun k => (g.root [("x".toList, .number 0.0)]).2.memo.get? k (Key.ofValues [0.0])) fault i j o u branches x) ∨
            ¬ f.Internal fault)) ∧
      ∀ n ∈ f.dag.nodes, n.kind = .sum → ∀ lexemes, Lexeme.scan n.context = .ok lexemes →
        Lexeme.indices lexemes = Token.references n.context ∧ n.dependencies = Token.references n.context := by
  obtain ⟨f, hf, hletters⟩ := exists_reciprocal
  have hg : Used f (Operation.run (Operation.run f (.call [] 2)).2 (.call [("x".toList, .number 0.0)] 2)).2 :=
    .operation (.operation .new _) _
  have hbind : Argument.bind [("x".toList, .number 0.0)] ['x'] = .ok [0.0] := by decide +kernel
  rw [← hletters, ← hg.sameParts.letters] at hbind
  exact ⟨f, _, hf, hg, hbind, root_not_internal hf hg hbind⟩

/-- A function that always reports a cycle. -/
def cyclic : UserFunction where
  name := "c".toList
  document := ⟨"Cycle", "c(x)", "fails for every x"⟩
  apply := fun _ => .error (.cycle 0)
  nonempty := by decide
  letters := by decide
  notReserved := by decide

/-- The standard rules and the function that reports a cycle. -/
def withCyclic : RuleSet := ⟨[cyclic], by decide⟩

/-- The contexts of a call of the function. -/
def cyclicContexts : Contexts := .ofTexts ["c@/1/@".toList, "x".toList]

/-- The dag of a call of the function. -/
def cyclicDag : Dag := ⟨[⟨.rule ⟨0, 0, 6, "c@/1/@".toList, none, [some (.index 1)]⟩, "c@/1/@".toList, [1]⟩, ⟨.variable 0, "x".toList, []⟩]⟩

theorem build_cyclic : Dag.build withCyclic ['x'] cyclicContexts = .ok cyclicDag := by
  have hbuild : Dag.build withCyclic ['x'] cyclicContexts =
      .ok ⟨[⟨.rule ⟨0, 0, 6, "c@/1/@".toList, none, [some (.index 1)]⟩, "c@/1/@".toList, Token.references "c@/1/@".toList⟩,
        ⟨.variable 0, "x".toList, Token.references "x".toList⟩]⟩ := rfl
  have hcall : Token.references "c@/1/@".toList = [1] := by decide +kernel
  have hx : Token.references "x".toList = [] := by decide +kernel
  rw [hbuild, hcall, hx]
  rfl

theorem computes_cyclic : Evaluation.Computes ⟨cyclicDag, withCyclic, 15⟩ [1.5] Index.root (.error (.cycle 0)) := by
  have hx : Evaluation.nodeValue ⟨cyclicDag, withCyclic, 15⟩ [1.5] (fun _ => []) 1 ⟨.variable 0, "x".toList, []⟩ = .ok [1.5] := by
    simp only [Evaluation.nodeValue, List.getElem?_cons_zero, Except.map, Branches.normalForm, List.map_cons, List.map_nil,
      List.mergeSort_singleton]
    decide +kernel
  have hcomputes : Evaluation.Computes ⟨cyclicDag, withCyclic, 15⟩ [1.5] 1 (.ok [1.5]) := hx ▸ .value rfl (by simp)
  have hcall : Evaluation.nodeValue ⟨cyclicDag, withCyclic, 15⟩ [1.5] (fun _ => [1.5]) 0
      ⟨.rule ⟨0, 0, 6, "c@/1/@".toList, none, [some (.index 1)]⟩, "c@/1/@".toList, [1]⟩ = .error (.cycle 0) := rfl
  exact hcall ▸ .value rfl (by simpa using hcomputes)

/-- A formula without a cycle reports one when a function of the user does. -/
theorem exists_cycle_reported : ∃ (rules : RuleSet) (f : Formula), RuleSet.standard.registerAll [cyclic] = .ok rules ∧
    cyclicContexts.validate = .ok () ∧ ofContexts rules ["x".toList] cyclicContexts = .ok f ∧
      Argument.bind [("x".toList, .number 1.5)] f.letters = .ok [1.5] ∧
      (f.root [("x".toList, .number 1.5)]).1 = .error (.evaluation (.cycle 0)) := by
  have hvalid : cyclicContexts.validate = .ok () := by cbv
  have hcompact : cyclicContexts.compact = cyclicContexts := by rw [Contexts.compact, if_pos (by decide)]
  have hdeclare : Source.declare withCyclic ["x".toList] = .ok ['x'] := by decide +kernel
  have hf := (ofContexts_eq_ok_iff (Contexts.validate_eq_ok.1 hvalid)).2 ⟨_, cyclicDag, hdeclare, hcompact.symm ▸ build_cyclic, rfl⟩
  have hbind : Argument.bind [("x".toList, .number 1.5)] ['x'] = .ok [1.5] := bind_x (by decide +kernel)
  have hevaluate := computes_cyclic.evaluate_eq hvalid (by decide) build_cyclic
  exact ⟨withCyclic, _, rfl, hvalid, hf, hbind, root_of_evaluate_error hbind hevaluate⟩

end Formula

end FormulaDag
