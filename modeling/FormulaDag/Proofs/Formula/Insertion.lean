import FormulaDag.Proofs.Evaluation.Insertion
import FormulaDag.Proofs.Formula.Faults
import FormulaDag.Proofs.Formula.Permutation
import FormulaDag.Proofs.Pool.Insertion

/-!
# Formulas beside a further function

A function of the user takes part in the whole of compilation: its name is looked for wherever white space is taken away, letters are
protected or rules are tried, and its rule moves others on. When the source text lacks the name, none of this shows. The formula has the same
contexts, and it answers every operation as before.
-/

namespace FormulaDag

section
variable {φ : Nat → Nat} {s s' : RuleSet} (hrules : s.Renumbered φ s')
include hrules

namespace Outline

/-- The line of a node does not show the numbers of its rules. -/
theorem fullLine_renumber (d : Dag) (m : Memo) (key : Key) (e : Entry) : fullLine (d.renumber φ) s' m key e = fullLine d s m key e := by
  have hlabel : label s' (((d.renumber φ).node? e.node).map Node.kind) = label s ((d.node? e.node).map Node.kind) := by
    rw [Dag.node?_renumber]
    cases hn : d.node? e.node with
    | none => rfl
    | some n =>
      cases hk : n.kind with
      | rule o => simp only [Option.map_some, Node.renumber, hk, NodeKind.renumber, label, Occurrence.renumber, hrules o.rule]
      | _ => simp only [Option.map_some, Node.renumber, hk, NodeKind.renumber, label]
  rw [fullLine, fullLine, hlabel, Dag.context_renumber]

/-- The lines of an outline do not show the numbers of the rules. -/
theorem lines_renumber (d : Dag) (m : Memo) (key : Key) (shown : List (Nat × Nat)) (pending : List Entry) :
    lines (d.renumber φ) s' m key shown pending = lines d s m key shown pending := by
  induction shown, pending using lines.induct d with
  | case1 shown => rw [lines, lines]
  | case2 shown e rest level hseen ih => rw [lines_of_shown hseen, lines_of_shown hseen, ih]
  | case3 shown e rest hnew hsize ih =>
    rw [lines_of_new hnew, lines_of_new hnew, fullLine_renumber hrules, Dag.dependencies_renumber, ih]
  | case4 shown e rest hnew hsize ih =>
    rw [lines_of_new hnew, lines_of_new hnew, fullLine_renumber hrules, Dag.dependencies_renumber,
      Dag.dependencies_of_size_le (Nat.not_lt.1 hsize), children, List.nil_append, ih]

/-- The outline of a node looks the same. -/
theorem render_renumber (d : Dag) (m : Memo) (key : Key) (target : Nat) : render (d.renumber φ) s' m key target = render d s m key target := by
  unfold render
  rw [Dag.node?_renumber, lines_renumber hrules]
  cases d.node? target <;> rfl

end Outline

end

namespace Formula

/-- The formula with another rule set and the numbers that the rules of its nodes have there. -/
def withRules (φ : Nat → Nat) (s : RuleSet) (f : Formula) : Formula := { f with rules := s, dag := f.dag.renumber φ }

/-- A rule set holds the rules of a formula under numbers that correspond, and the nodes of the formula refer to its rules only. -/
structure Carries (φ : Nat → Nat) (s : RuleSet) (f : Formula) : Prop where
  rules : f.rules.Renumbered φ s
  filled : ∀ n ∈ f.dag.nodes, Evaluation.Filled f.rules n

section
variable {φ : Nat → Nat} {s : RuleSet} {f : Formula}

theorem Carries.of_sameParts {g : Formula} (h : Carries φ s f) (hg : SameParts f g) : Carries φ s g :=
  ⟨hg.rules ▸ h.rules, hg.rules ▸ hg.dag ▸ h.filled⟩

/-- A formula that carries over to other rules does so after any operation. -/
theorem Carries.run (h : Carries φ s f) (op : Operation) : Carries φ s (op.run f).2 :=
  h.of_sameParts (Operation.run_invariant (fun g arguments hg => hg.trans (.root g arguments)) (.refl f) op)

/-- The root has the same branches, and the same results are kept. -/
theorem root_withRules (h : Carries φ s f) (arguments : List (Text × Argument)) :
    (f.withRules φ s).root arguments = ((f.root arguments).1, (f.root arguments).2.withRules φ s) := by
  rw [root, root]
  have hletters : (f.withRules φ s).letters = f.letters := rfl
  rw [hletters]
  cases Argument.bind arguments f.letters with
  | error fault => rfl
  | ok values =>
    have hevaluate : (f.withRules φ s).evaluation.evaluate (.ofValues values) Index.root (f.withRules φ s).memo =
        f.evaluation.evaluate (.ofValues values) Index.root f.memo := Evaluation.evaluate_renumber h.rules h.filled _ _ _ _
    simp only [hevaluate]
    rcases f.evaluation.evaluate (.ofValues values) Index.root f.memo with ⟨answer, memo⟩
    cases answer <;> rfl

/-- A call answers alike under renumbered rules. -/
theorem call_withRules (h : Carries φ s f) (arguments : List (Text × Argument)) (places : Nat) :
    (f.withRules φ s).call arguments places = ((f.call arguments places).1, (f.call arguments places).2.withRules φ s) := by
  rw [call, call, root_withRules h]
  rcases f.root arguments with ⟨answer, g⟩
  cases answer <;> rfl

/-- A batch answers alike under renumbered rules. -/
theorem callEach_withRules (h : Carries φ s f) (places : Nat) (assignments : List (List (Text × Float))) :
    (f.withRules φ s).callEach places assignments = ((f.callEach places assignments).1, (f.callEach places assignments).2.withRules φ s) := by
  induction assignments generalizing f with
  | nil => rfl
  | cons assignment rest ih =>
    have hnext : ∀ arguments, Carries φ s (f.call arguments places).2 := fun arguments => h.run (.call arguments places)
    simp only [callEach, call_withRules h, ih (hnext _)]

/-- An outline is alike under renumbered rules. -/
theorem outline_withRules (h : Carries φ s f) (arguments : List (Text × Argument)) :
    (f.withRules φ s).outline arguments = ((f.outline arguments).1, (f.outline arguments).2.withRules φ s) := by
  have hkept : Carries φ s (f.root arguments).2 := h.of_sameParts (.root f arguments)
  rw [outline, outline, root_withRules h]
  rcases hroot : f.root arguments with ⟨answer, g⟩
  cases answer with
  | error fault => rfl
  | ok pair =>
    rw [hroot] at hkept
    exact Prod.ext (congrArg Except.ok (Outline.render_renumber hkept.rules g.dag g.memo pair.1.key Index.root)) rfl

/-- An operation answers the same and keeps the same results. -/
theorem run_withRules (h : Carries φ s f) (op : Operation) :
    op.run (f.withRules φ s) = ((op.run f).1, (op.run f).2.withRules φ s) := by
  cases op with
  | call arguments places => rw [Operation.run, Operation.run, call_withRules h]
  | callRounded arguments =>
    have hplaces : (f.withRules φ s).settings = f.settings := rfl
    rw [Operation.run, Operation.run, callRounded, callRounded, hplaces, call_withRules h]
  | callEach places assignments => rw [Operation.run, Operation.run, callEach_withRules h]
  | outline arguments => rw [Operation.run, Operation.run, outline_withRules h]

/-- After any history a formula is alike under renumbered rules. -/
theorem runAll_withRules (h : Carries φ s f) (history : List Operation) :
    Operation.runAll (f.withRules φ s) history = (Operation.runAll f history).withRules φ s ∧ Carries φ s (Operation.runAll f history) := by
  induction history generalizing f with
  | nil => exact ⟨rfl, h⟩
  | cons op rest ih =>
    rw [Operation.runAll, Operation.runAll, List.foldl_cons, List.foldl_cons, run_withRules h]
    exact ih (h.run op)

end

/-- A further function that the source text does not mention changes nothing, at whatever place it is registered: the text still compiles, to the
same contexts, and after the same operations every operation answers the same. -/
theorem run_insert {s s' : RuleSet} {u : UserFunction} {before after : List UserFunction} (hs : s.functions = before ++ after)
    (hs' : s'.functions = before ++ u :: after) {settings : Settings} {names : List Text} {source : Text} {f : Formula}
    (hnames : u.name ∉ names) (hsource : u.name.Lacks source) (hstripped : u.name.Lacks (Source.stripBlanks s.functionNames source))
    (hf : compileWith s settings names source = .ok f) :
    ∃ g, compileWith s' settings names source = .ok g ∧ g.contexts = f.contexts ∧
      ∀ (history : List Operation) (op : Operation),
        (op.run (Operation.runAll g history)).1 = (op.run (Operation.runAll f history)).1 := by
  obtain ⟨_, hvalid, hf⟩ := bind_eq_ok.1 hf
  obtain ⟨letters, hdeclare, hf⟩ := bind_eq_ok.1 hf
  obtain ⟨contexts, hcontexts, hf⟩ := bind_eq_ok.1 hf
  obtain ⟨order, dag, horder, hbuild, rfl⟩ := ofParts_eq_ok hf
  have hdeclare' : Source.declare s names = .ok letters := mapError_eq_ok.1 hdeclare
  have hletters : ∀ letter ∈ letters, u.name ≠ [letter] := by
    obtain ⟨more, rfl, rfl, -, -⟩ := Source.declareAfter_eq_ok.1 hdeclare'
    rintro letter hletter hname
    exact hnames (List.mem_map.2 ⟨letter, hletter, hname.symm⟩)
  have hlacks : ∀ t ∈ contexts.texts, u.name.Lacks t := fun t => Contexts.lacks_of_mem_ofSource u.isName hletters hstripped hcontexts
  have hbuild' : Dag.build s' letters contexts = .ok (dag.renumber (RuleSet.shift before.length)) := by
    rw [Dag.build_insert hs hs' letters hlacks, hbuild]
    rfl
  let f : Formula := ⟨letters, s, contexts, dag, .empty dag.size, settings⟩
  have hcarries : Carries (RuleSet.shift before.length) s' f := ⟨RuleSet.get?_shift hs hs', Dag.filled_of_build hbuild⟩
  refine ⟨f.withRules (RuleSet.shift before.length) s', ?_, rfl, fun history op => ?_⟩
  · refine bind_eq_ok.2 ⟨_, hvalid, bind_eq_ok.2 ⟨letters, ?_, bind_eq_ok.2 ⟨contexts, ?_, ?_⟩⟩⟩
    · rw [Source.declare_insert hs hs' hnames, hdeclare]
    · rw [Contexts.ofSource_insert hs hs' hletters hsource hstripped, hcontexts]
    · rw [ofParts_eq horder hbuild', Dag.size_renumber]
      rfl
  · obtain ⟨hrun, hcarries'⟩ := runAll_withRules hcarries history
    rw [hrun, run_withRules hcarries']

/-- A product of sums answers as before once the Fibonacci numbers have been registered. -/
theorem run_insert_product : ∃ f, compile .standard ["x".toList] "(x+x)*x".toList = .ok f ∧
    ∃ g, compile ⟨[.fibonacci], by simp⟩ ["x".toList] "(x+x)*x".toList = .ok g ∧ g.contexts = f.contexts ∧
      ∀ (history : List Operation) (op : Operation),
        (op.run (Operation.runAll g history)).1 = (op.run (Operation.runAll f history)).1 := by
  obtain ⟨f, hf, -⟩ := exists_product
  have hstrip : Source.stripBlanks RuleSet.standard.functionNames "(x+x)*x".toList = "(x+x)*x".toList := by decide +kernel
  have hlacks : UserFunction.fibonacci.name.Lacks "(x+x)*x".toList := by
    rw [Text.Lacks]
    decide
  exact ⟨f, hf, @run_insert .standard ⟨[.fibonacci], by simp⟩ .fibonacci [] [] rfl rfl .standard _ _ f (by decide) hlacks
    (by rwa [hstrip]) hf⟩

end Formula

end FormulaDag
