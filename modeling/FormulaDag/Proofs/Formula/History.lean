import FormulaDag.Formula
import FormulaDag.Proofs.Argument
import FormulaDag.Proofs.Evaluation.Memo

/-!
# Formulas and what was computed before

A formula keeps the results of its nodes from one operation to the next. The answers do not show it: after any operations, failed
ones included, a formula answers as it did when it was compiled. What the memo holds at any time is what plain recursion gives, and
an evaluation fails at the same node however much of the rest is known already.
-/

namespace FormulaDag

namespace Outline

/-- The children of an entry are its dependencies. -/
theorem node_of_mem_children {e child : Entry} {l : List Nat} (h : child ∈ children e l) : child.node ∈ l := by
  induction l using children.induct with
  | case1 => simp [children] at h
  | case2 i =>
    rw [children, List.mem_singleton] at h
    simp [h]
  | case3 i rest hne ih =>
    rw [children, List.mem_cons] at h
    · rcases h with rfl | h
      · simp
      · exact List.mem_cons_of_mem _ (ih h)
    · exact hne

/-- A node that was shown is referred to. -/
theorem lines_of_shown {d : Dag} {s : RuleSet} {m : Memo} {key : Key} {shown : List (Nat × Nat)} {e : Entry} {level : Nat}
    (h : shown.lookup e.node = some level) (rest : List Entry) :
    lines d s m key shown (e :: rest) = referenceLine e level :: lines d s m key shown rest := by
  rw [lines]
  split
  · rename_i level' h'
    rw [Option.some.inj (h.symm.trans h')]
  · rename_i h'
    rw [h] at h'
    simp at h'

/-- The line of a node that was not shown, then its dependencies, if any, and the rest. -/
theorem lines_of_new {d : Dag} {s : RuleSet} {m : Memo} {key : Key} {shown : List (Nat × Nat)} {e : Entry}
    (h : shown.lookup e.node = none) (rest : List Entry) :
    lines d s m key shown (e :: rest) = fullLine d s m key e ::
      lines d s m key ((e.node, e.level) :: shown) (children e (d.dependencies e.node) ++ rest) := by
  rw [lines]
  split
  · rename_i level h'
    rw [h] at h'
    simp at h'
  · split
    · rfl
    · rename_i hsize
      rw [Dag.dependencies_of_size_le (Nat.not_lt.1 hsize), children, List.nil_append]

/-- The lines of entries show the results of their nodes and of those that these depend on, and no others. -/
theorem lines_congr {d : Dag} {s : RuleSet} {m m' : Memo} {key : Key} {nodes : Nat → Prop}
    (h : ∀ i, nodes i → m.get? i key = m'.get? i key) (hclosed : ∀ i, nodes i → ∀ j ∈ d.dependencies i, nodes j)
    {shown : List (Nat × Nat)} {pending : List Entry} (hpending : ∀ e ∈ pending, nodes e.node) :
    lines d s m key shown pending = lines d s m' key shown pending := by
  induction shown, pending using lines.induct d with
  | case1 shown => rw [lines, lines]
  | case2 shown e rest level hseen ih =>
    rw [lines_of_shown hseen, lines_of_shown hseen, ih fun e he => hpending e (List.mem_cons_of_mem _ he)]
  | case3 shown e rest hnew hsize ih =>
    have he := hpending e (by simp)
    rw [lines_of_new hnew, lines_of_new hnew, fullLine, fullLine, h e.node he, ih]
    intro child hchild
    rcases List.mem_append.1 hchild with hchild | hchild
    · exact hclosed e.node he child.node (node_of_mem_children hchild)
    · exact hpending child (List.mem_cons_of_mem _ hchild)
  | case4 shown e rest hnew hsize ih =>
    have he := hpending e (by simp)
    have hnone := Dag.dependencies_of_size_le (Nat.not_lt.1 hsize)
    rw [lines_of_new hnew, lines_of_new hnew, fullLine, fullLine, h e.node he, hnone, children, List.nil_append,
      ih fun e he => hpending e (List.mem_cons_of_mem _ he)]

/-- An outline depends on the results of what its target reaches only. -/
theorem render_congr {d : Dag} {s : RuleSet} {m m' : Memo} {key : Key} {nodes : Nat → Prop}
    (h : ∀ i, nodes i → m.get? i key = m'.get? i key) (hclosed : ∀ i, nodes i → ∀ j ∈ d.dependencies i, nodes j)
    {target : Nat} (htarget : nodes target) : render d s m key target = render d s m' key target := by
  unfold render
  rw [lines_congr h hclosed (by simpa using htarget)]

end Outline

namespace Formula

/-- An operation on a formula. -/
inductive Operation where
  | call (arguments : List (Text × Argument)) (places : Nat)
  | callRounded (arguments : List (Text × Argument))
  | callEach (places : Nat) (assignments : List (List (Text × Float)))
  | outline (arguments : List (Text × Argument))

/-- The answer of an operation. -/
inductive Answer where
  | branches (answer : Except Failure Branches)
  | each (answers : List (Except Failure Branches))
  | outline (answer : Except Failure String)

namespace Operation

/-- Runs an operation: its answer and the formula after it. -/
def run (f : Formula) : Operation → Answer × Formula
  | .call arguments places => ((.branches (f.call arguments places).1), (f.call arguments places).2)
  | .callRounded arguments => ((.branches (f.callRounded arguments).1), (f.callRounded arguments).2)
  | .callEach places assignments => ((.each (f.callEach places assignments).1), (f.callEach places assignments).2)
  | .outline arguments => ((.outline (f.outline arguments).1), (f.outline arguments).2)

/-- The formula after operations, one after the other. -/
def runAll (f : Formula) (operations : List Operation) : Formula := operations.foldl (fun g op => (op.run g).2) f

/-- The arguments that an operation evaluates a formula for. -/
def arguments : Operation → List (List (Text × Argument))
  | .call arguments _ => [arguments]
  | .callRounded arguments => [arguments]
  | .callEach _ assignments => assignments.map fun assignment => assignment.map fun (name, x) => (name, .number x)
  | .outline arguments => [arguments]

/-- What evaluating the root preserves is preserved by every operation. -/
theorem run_invariant {P : Formula → Prop} (hroot : ∀ g arguments, P g → P (g.root arguments).2) {f : Formula} (hf : P f)
    (op : Operation) : P (op.run f).2 := by
  have call : ∀ g arguments places, P g → P (g.call arguments places).2 := by
    intro g arguments places hg
    have hkept := hroot g arguments hg
    rw [Formula.call]
    split
    · rename_i heq
      rwa [heq] at hkept
    · rename_i heq
      rwa [heq] at hkept
  cases op with
  | call arguments places => exact call f arguments places hf
  | callRounded arguments => exact call f arguments _ hf
  | callEach places assignments =>
    rw [run]
    induction assignments generalizing f with
    | nil => exact hf
    | cons assignment rest ih => exact ih (call f _ places hf)
  | outline arguments =>
    have hkept := hroot f arguments hf
    rw [run, Formula.outline]
    split
    · rename_i heq
      rwa [heq] at hkept
    · rename_i heq
      rwa [heq] at hkept

end Operation

/-- A formula as it comes out of compilation, under its first settings or under others chosen before any operation. -/
inductive Compiled : Formula → Prop where
  | source {rules : RuleSet} {settings : Settings} {names : List Text} {source : Text} {f : Formula}
      (h : compileWith rules settings names source = .ok f) : Compiled f
  | contexts {rules : RuleSet} {names : List Text} {contexts : Contexts} {f : Formula}
      (h : ofContexts rules names contexts = .ok f) : Compiled f
  | json {rules : RuleSet} {names : List Text} {json : Text} {f : Formula} (h : ofJson rules names json = .ok f) :
      Compiled f
  | settings {f g : Formula} {settings : Settings} (hf : Compiled f) (h : f.withSettings settings = .ok g) : Compiled g

theorem ofParts_eq_ok {rules : RuleSet} {letters : List Char} {contexts : Contexts} {settings : Settings} {f : Formula}
    (h : ofParts rules letters contexts settings = .ok f) :
    ∃ order dag, contexts.order = .ok order ∧ Dag.build rules letters contexts = .ok dag ∧
      f = ⟨letters, rules, contexts, dag, Memo.empty dag.size, settings⟩ := by
  obtain ⟨order, ho, h⟩ := bind_eq_ok.1 h
  obtain ⟨dag, hb, h⟩ := bind_eq_ok.1 h
  exact ⟨order, dag, mapError_eq_ok.1 ho, mapError_eq_ok.1 hb, (Except.ok.inj h).symm⟩

theorem ofParts_eq {rules : RuleSet} {letters : List Char} {contexts : Contexts} {order : List Nat} {dag : Dag}
    (ho : contexts.order = .ok order) (hb : Dag.build rules letters contexts = .ok dag) (settings : Settings) :
    ofParts rules letters contexts settings = .ok ⟨letters, rules, contexts, dag, Memo.empty dag.size, settings⟩ :=
  bind_eq_ok.2 ⟨order, mapError_eq_ok.2 ho, bind_eq_ok.2 ⟨dag, mapError_eq_ok.2 hb, rfl⟩⟩

/-- What holds of a formula made from its parts, and under any settings chosen after that, holds of every compiled formula. -/
theorem Compiled.of_parts {P : Formula → Prop}
    (hparts : ∀ {rules names letters contexts settings} {f : Formula}, Source.declare rules names = .ok letters →
      settings.validate = .ok () → ofParts rules letters contexts settings = .ok f → P f)
    (hsettings : ∀ {f : Formula} {settings : Settings}, P f → settings.validate = .ok () → P { f with settings := settings })
    {f : Formula} (hf : Compiled f) : P f := by
  have ofContexts : ∀ {rules names contexts} {f : Formula}, ofContexts rules names contexts = .ok f → P f := by
    intro rules names contexts f h
    obtain ⟨letters, hletters, h⟩ := bind_eq_ok.1 h
    obtain ⟨_, -, h⟩ := bind_eq_ok.1 h
    exact hparts (mapError_eq_ok.1 hletters) rfl h
  induction hf with
  | source h =>
    obtain ⟨_, hvalid, h⟩ := bind_eq_ok.1 h
    obtain ⟨letters, hletters, h⟩ := bind_eq_ok.1 h
    obtain ⟨contexts, -, h⟩ := bind_eq_ok.1 h
    exact hparts (mapError_eq_ok.1 hletters) (mapError_eq_ok.1 hvalid) h
  | contexts h => exact ofContexts h
  | json h =>
    obtain ⟨contexts, -, h⟩ := bind_eq_ok.1 h
    exact ofContexts h
  | settings _ h ih =>
    obtain ⟨_, hvalid, h⟩ := bind_eq_ok.1 h
    rw [← Except.ok.inj h]
    exact hsettings ih (mapError_eq_ok.1 hvalid)

/-- A compiled formula has kept nothing yet, and its nodes read nothing but their dependencies. -/
theorem Compiled.fresh {f : Formula} (hf : Compiled f) :
    f.memo = Memo.empty f.dag.size ∧ ∀ n ∈ f.dag.nodes, Evaluation.IsLocal f.rules n := by
  refine hf.of_parts (P := fun f => f.memo = Memo.empty f.dag.size ∧ ∀ n ∈ f.dag.nodes, Evaluation.IsLocal f.rules n)
    (fun _ _ h => ?_) fun h _ => h
  obtain ⟨order, dag, -, hb, rfl⟩ := ofParts_eq_ok h
  exact ⟨rfl, Dag.isLocal_of_build hb⟩

/-- A formula that differs from a compiled one in its memo only, which is sound. -/
structure Kept (f : Formula) (nodes : Nat → Prop) (inputs : List Float → Prop)
    (results : List Float → Nat → Except EvaluationFault Branches) (g : Formula) : Prop where
  same : g = { f with memo := g.memo }
  sound : g.memo.Sound f.dag nodes inputs results

/-- Arguments that bind variables to an input of the given set, if they bind them at all. -/
def Binds (f : Formula) (inputs : List Float → Prop) (arguments : List (Text × Argument)) : Prop :=
  ∀ values, Argument.bind arguments f.letters = .ok values → inputs values

section
variable {f g g' : Formula} {nodes : Nat → Prop} {inputs : List Float → Prop}
  {results : List Float → Nat → Except EvaluationFault Branches}

/-- Results of the root that every evaluation of a formula answers. -/
def Answers (f : Formula) (nodes : Nat → Prop) (inputs : List Float → Prop)
    (results : List Float → Nat → Except EvaluationFault Branches) : Prop :=
  ∀ values, inputs values → ∀ m : Memo, m.Sound f.dag nodes inputs results →
    (f.evaluation.evaluate (.ofValues values) Index.root m).1 = results values Index.root ∧
      (f.evaluation.evaluate (.ofValues values) Index.root m).2.Sound f.dag nodes inputs results ∧
      ∀ b, results values Index.root = .ok b →
        (f.evaluation.evaluate (.ofValues values) Index.root m).2.contains Index.root (Key.ofValues values) = true

/-- The root gives the same for any two memos, and what it needed is in both of them afterwards. -/
theorem Kept.root (hf : f.Answers nodes inputs results) (hg : Kept f nodes inputs results g)
    (hg' : Kept f nodes inputs results g') {arguments : List (Text × Argument)} (h : f.Binds inputs arguments) :
    (g.root arguments).1 = (g'.root arguments).1 ∧ Kept f nodes inputs results (g.root arguments).2 ∧
      ∀ a b, (g.root arguments).1 = .ok (a, b) → ∃ values, inputs values ∧ a = .ofValues values ∧
        (g.root arguments).2.memo.contains Index.root a.key = true := by
  obtain ⟨m, rfl⟩ : ∃ m, g = { f with memo := m } := ⟨_, hg.same⟩
  obtain ⟨m', rfl⟩ : ∃ m, g' = { f with memo := m } := ⟨_, hg'.same⟩
  rw [Formula.root, Formula.root]
  cases hb : Argument.bind arguments f.letters with
  | error fault => exact ⟨rfl, hg, by simp⟩
  | ok values =>
    obtain ⟨heq, hsound, hin⟩ := hf values (h values hb) m hg.sound
    obtain ⟨heq', -, -⟩ := hf values (h values hb) m' hg'.sound
    have hevaluation : ∀ m : Memo, ({ f with memo := m } : Formula).evaluation = f.evaluation := fun _ => rfl
    simp only [hevaluation]
    generalize f.evaluation.evaluate (.ofValues values) Index.root m = first at heq hsound hin
    generalize f.evaluation.evaluate (.ofValues values) Index.root m' = second at heq'
    obtain ⟨answer, kept⟩ := first
    obtain ⟨answer', kept'⟩ := second
    simp only at heq heq' hsound hin
    subst heq heq'
    cases hr : results values Index.root with
    | error fault => exact ⟨rfl, ⟨rfl, hsound⟩, by simp⟩
    | ok b =>
      refine ⟨rfl, ⟨rfl, hsound⟩, fun a c hac => ⟨values, h values hb, ?_⟩⟩
      simp only [Except.ok.injEq, Prod.mk.injEq] at hac
      obtain ⟨rfl, rfl⟩ := hac
      exact ⟨rfl, hin b hr⟩

/-- Two states that keep the same results answer a call alike. -/
theorem Kept.call (hf : f.Answers nodes inputs results) (hg : Kept f nodes inputs results g)
    (hg' : Kept f nodes inputs results g') {arguments : List (Text × Argument)} (h : f.Binds inputs arguments)
    (places : Nat) :
    (g.call arguments places).1 = (g'.call arguments places).1 ∧
      Kept f nodes inputs results (g.call arguments places).2 := by
  obtain ⟨heq, hkept, -⟩ := hg.root hf hg' h
  rw [Formula.call, Formula.call]
  generalize g.root arguments = first at heq hkept
  generalize g'.root arguments = second at heq
  obtain ⟨answer, g₁⟩ := first
  obtain ⟨answer', g₂⟩ := second
  simp only at heq
  subst heq
  cases answer with
  | error fault => exact ⟨rfl, hkept⟩
  | ok pair => exact ⟨rfl, hkept⟩

/-- Every position of a batch has the answer of a lone call. -/
theorem Kept.callEach (hf : f.Answers nodes inputs results) (hg : Kept f nodes inputs results g)
    (hg' : Kept f nodes inputs results g') (places : Nat) {assignments : List (List (Text × Float))}
    (h : ∀ assignment ∈ assignments, f.Binds inputs (assignment.map fun (name, x) => (name, .number x))) :
    (g.callEach places assignments).1 =
        assignments.map (fun assignment => (g'.call (assignment.map fun (name, x) => (name, .number x)) places).1) ∧
      Kept f nodes inputs results (g.callEach places assignments).2 := by
  induction assignments generalizing g with
  | nil => exact ⟨rfl, hg⟩
  | cons assignment rest ih =>
    obtain ⟨heq, hkept⟩ := hg.call hf hg' (h assignment (by simp)) places
    obtain ⟨hrest, hlast⟩ := ih hkept fun a ha => h a (List.mem_cons_of_mem _ ha)
    rw [Formula.callEach, List.map_cons]
    exact ⟨by rw [← heq, ← hrest], hlast⟩

/-- Two states that keep the same results show the same outline. -/
theorem Kept.outline (hf : f.Answers nodes inputs results) (hg : Kept f nodes inputs results g)
    (hg' : Kept f nodes inputs results g') {arguments : List (Text × Argument)} (h : f.Binds inputs arguments) :
    (g.outline arguments).1 = (g'.outline arguments).1 ∧ Kept f nodes inputs results (g.outline arguments).2 := by
  obtain ⟨heq, hkept, hin⟩ := hg.root hf hg' h
  obtain ⟨-, hkept', hin'⟩ := hg'.root hf hg h
  rw [← heq] at hin'
  rw [Formula.outline, Formula.outline]
  generalize g.root arguments = first at heq hkept hin hin'
  generalize g'.root arguments = second at heq hkept' hin'
  obtain ⟨answer, g₁⟩ := first
  obtain ⟨answer', g₂⟩ := second
  simp only at heq
  subst heq
  cases answer with
  | error fault => exact ⟨rfl, hkept⟩
  | ok pair =>
    obtain ⟨a, b⟩ := pair
    refine ⟨?_, hkept⟩
    obtain ⟨values, hv, rfl, hroot⟩ := hin a b rfl
    obtain ⟨-, -, -, hroot'⟩ := hin' _ b rfl
    obtain ⟨m, rfl⟩ : ∃ m, g₁ = { f with memo := m } := ⟨_, hkept.same⟩
    obtain ⟨m', rfl⟩ : ∃ m, g₂ = { f with memo := m } := ⟨_, hkept'.same⟩
    let both : Nat → Prop := fun i =>
      m.contains i (Key.ofValues values) = true ∧ m'.contains i (Key.ofValues values) = true
    have hagree : ∀ i, both i → m.get? i (Key.ofValues values) = m'.get? i (Key.ofValues values) := by
      intro i hi
      obtain ⟨c, hc, hres⟩ := hkept.sound.toOption_eq hv hi.1
      obtain ⟨c', hc', hres'⟩ := hkept'.sound.toOption_eq hv hi.2
      rw [hres, Except.ok.injEq] at hres'
      exact hc.trans (hres' ▸ hc'.symm)
    have hclosed : ∀ i, both i → ∀ j ∈ f.dag.dependencies i, both j := by
      intro i hi j hj
      obtain ⟨c, hc⟩ := Memo.contains_iff.1 hi.1
      obtain ⟨c', hc'⟩ := Memo.contains_iff.1 hi.2
      exact ⟨(hkept.sound.kept values hv i c hc).2.2 j hj, (hkept'.sound.kept values hv i c' hc').2.2 j hj⟩
    exact congrArg Except.ok (Outline.render_congr hagree hclosed ⟨hroot, hroot'⟩)

/-- An operation answers the same for any two memos and keeps the memo sound. -/
theorem Kept.run (hf : f.Answers nodes inputs results) (hg : Kept f nodes inputs results g)
    (hg' : Kept f nodes inputs results g') {op : Operation} (h : ∀ arguments ∈ op.arguments, f.Binds inputs arguments) :
    (op.run g).1 = (op.run g').1 ∧ Kept f nodes inputs results (op.run g).2 := by
  cases op with
  | call arguments places =>
    obtain ⟨heq, hkept⟩ := hg.call hf hg' (h arguments (by simp [Operation.arguments])) places
    exact ⟨congrArg Answer.branches heq, hkept⟩
  | callRounded arguments =>
    have hplaces : g.settings.places = g'.settings.places := by rw [hg.same, hg'.same]
    obtain ⟨heq, hkept⟩ := hg.call hf hg' (h arguments (by simp [Operation.arguments])) g.settings.places
    rw [Operation.run, Operation.run, callRounded, callRounded, ← hplaces]
    exact ⟨congrArg Answer.branches heq, hkept⟩
  | callEach places assignments =>
    have hbinds := fun assignment hmem => h _ (List.mem_map.2 ⟨assignment, hmem, rfl⟩)
    obtain ⟨heq, hkept⟩ := hg.callEach hf hg' places hbinds
    obtain ⟨heq', -⟩ := hg'.callEach hf hg' places hbinds
    exact ⟨congrArg Answer.each (heq.trans heq'.symm), hkept⟩
  | outline arguments =>
    obtain ⟨heq, hkept⟩ := hg.outline hf hg' (h arguments (by simp [Operation.arguments]))
    exact ⟨congrArg Answer.outline heq, hkept⟩

/-- A history keeps the results. -/
theorem Kept.runAll (hf : f.Answers nodes inputs results) (hg : Kept f nodes inputs results g)
    {operations : List Operation} (h : ∀ op ∈ operations, ∀ arguments ∈ op.arguments, f.Binds inputs arguments) :
    Kept f nodes inputs results (Operation.runAll g operations) := by
  induction operations generalizing g with
  | nil => exact hg
  | cons op rest ih =>
    exact ih (hg.run hf hg (h op (by simp))).2 fun op' hmem => h op' (List.mem_cons_of_mem _ hmem)

end

/-- An assignment of finite numbers. -/
def AllFinite (values : List Float) : Prop := ∀ x ∈ values, x.isFinite = true

theorem binds_allFinite (f : Formula) (arguments : List (Text × Argument)) : f.Binds AllFinite arguments := fun _ =>
  Argument.isFinite_of_bind

theorem separates_allFinite : Key.Separates AllFinite := Key.separates_of_finite fun _ hv => hv

/-- Answers do not depend on what was computed before. After any operations, failed ones included, an operation on a compiled
formula answers what it answers as the first one; and a batch has at each position the answer of a lone call. Results are kept under
the written values of the variables, which tell finite numbers apart. -/
theorem run_runAll {f : Formula} (hf : Compiled f) (history : List Operation) (op : Operation) :
    (op.run (Operation.runAll f history)).1 = (op.run f).1 ∧
      ∀ places assignments, op = .callEach places assignments →
        (op.run (Operation.runAll f history)).1 = .each (assignments.map fun assignment =>
          (f.call (assignment.map fun (name, x) => (name, .number x)) places).1) := by
  obtain ⟨hempty, hlocal⟩ := hf.fresh
  obtain ⟨nodes, results, hanswers⟩ := Evaluation.exists_results (e := f.evaluation) hlocal separates_allFinite Index.root
  have hfirst : Kept f nodes AllFinite results f := ⟨rfl, hempty ▸ Memo.Sound.empty _ _ _ _⟩
  have hlater : Kept f nodes AllFinite results (Operation.runAll f history) :=
    hfirst.runAll hanswers fun _ _ arguments _ => f.binds_allFinite arguments
  refine ⟨(hlater.run hanswers hfirst fun arguments _ => f.binds_allFinite arguments).1, ?_⟩
  rintro places assignments rfl
  exact congrArg Answer.each (hlater.callEach hanswers hfirst places fun _ _ => f.binds_allFinite _).1

section
variable {f : Formula} {arguments : List (Text × Argument)} {values : List Float} (hvalues : Argument.bind arguments f.letters = .ok values)
include hvalues

/-- The root fails as its evaluation does. -/
theorem root_of_evaluate_error {fault : EvaluationFault}
    (h : (f.evaluation.evaluate (.ofValues values) Index.root f.memo).1 = .error fault) :
    (f.root arguments).1 = .error (.evaluation fault) := by
  rw [root, hvalues]
  simp only
  generalize f.evaluation.evaluate (.ofValues values) Index.root f.memo = found at h
  obtain ⟨answer, memo⟩ := found
  simp only at h
  subst h
  rfl

/-- A call answers with the rounded branches that the evaluation of the root gives. -/
theorem call_of_evaluate {result : Branches} (h : (f.evaluation.evaluate (.ofValues values) Index.root f.memo).1 = .ok result)
    (places : Nat) : (f.call arguments places).1 = .ok (result.map (Branches.toPlaces places)) := by
  rw [call, root, hvalues]
  simp only
  generalize f.evaluation.evaluate (.ofValues values) Index.root f.memo = found at h
  obtain ⟨answer, memo⟩ := found
  simp only at h
  subst h
  rfl

end

/-- The contexts of the reciprocal of a variable. -/
def reciprocal : Contexts := .ofTexts ["1/@/1/@".toList, "x".toList]

theorem exists_reciprocal : ∃ f, ofContexts .standard ["x".toList] reciprocal = .ok f ∧ f.letters = ['x'] := by
  have hvalid : reciprocal.validate = .ok () := by cbv
  have horder : reciprocal.order = .ok [1, 0] := by cbv
  have hbuild : Dag.build .standard ['x'] reciprocal =
      .ok ⟨[⟨.sum, "1/@/1/@".toList, Token.references "1/@/1/@".toList⟩, ⟨.variable 0, ['x'], Token.references ['x']⟩]⟩ := rfl
  exact ⟨_, bind_eq_ok.2 ⟨['x'], rfl, bind_eq_ok.2 ⟨(), mapError_eq_ok.2 hvalid, ofParts_eq horder hbuild _⟩⟩, rfl⟩

/-- A reciprocal, first without its variable and at its pole, then as a batch. -/
theorem run_runAll_reciprocal :
    ∃ f, Compiled f ∧ f.letters = ['x'] ∧
      (Operation.run
          (Operation.runAll f [.call [] 2, .outline [("x".toList, .number 0.0)], .callRounded [("x".toList, .number 2.5)]])
          (.callEach 3 [[("x".toList, 2.5)], [("x".toList, 0.0)], [("x".toList, 2.5)]])).1 =
        (Operation.run f (.callEach 3 [[("x".toList, 2.5)], [("x".toList, 0.0)], [("x".toList, 2.5)]])).1 := by
  obtain ⟨f, hf, hletters⟩ := exists_reciprocal
  exact ⟨f, .contexts hf, hletters, (run_runAll (.contexts hf) _ _).1⟩

end Formula

end FormulaDag
