import FormulaDag.Proofs.Contexts.WellFormed
import FormulaDag.Proofs.Evaluation.Completeness
import FormulaDag.Proofs.Formula.History

/-!
# Formulas under other settings

Results are kept under the written values of the variables, and other settings do not discard them. So a formula under another
precision answers as one that was compiled with it, as long as it is asked for assignments that it was not evaluated for before. For
an assignment that was, it still has the results in the old precision.
-/

namespace FormulaDag

namespace Memo

/-- A result that is kept under one key is not found under another. -/
theorem get?_insert_of_ne {m : Memo} {i : Nat} {key key' : Key} (h : key ≠ key') (result : Branches) (j : Nat) :
    (m.insert i key' result).get? j key = m.get? j key := by
  by_cases hi : i < m.slots
  · rw [get?_insert hi, if_neg fun heq => h heq.2]
  · rw [insert, if_neg hi]

end Memo

namespace Evaluation

/-- Computing nodes leaves the results under other keys as they are. -/
theorem get?_computeAll_of_ne (e : Evaluation) (a : Valuation) {key : Key} (h : key ≠ a.key) (l : List Nat) (m : Memo) (j : Nat) :
    (e.computeAll a l m).2.get? j key = m.get? j key := by
  induction l generalizing m with
  | nil => rfl
  | cons i l ih =>
    rw [computeAll]
    split
    · rfl
    · split
      · rfl
      · rw [ih, Memo.get?_insert_of_ne h]

/-- An evaluation leaves what was kept under other keys. -/
theorem get?_evaluate_of_ne (e : Evaluation) (a : Valuation) {key : Key} (h : key ≠ a.key) (target : Nat) (m : Memo) (j : Nat) :
    (e.evaluate a target m).2.get? j key = m.get? j key := by
  rw [evaluate]
  split
  · rfl
  · split
    · rfl
    · rename_i demanded _
      have hget := e.get?_computeAll_of_ne a h demanded m j
      split
      · rename_i hcomputed
        rwa [hcomputed] at hget
      · rename_i hcomputed
        rw [hcomputed] at hget
        split <;> exact hget

end Evaluation

namespace Formula

/-- A formula that differs from another one in its memo only, and there only in what is kept under the given assignments. -/
structure Touched (f : Formula) (inputs : List Float → Prop) (g : Formula) : Prop where
  same : g = { f with memo := g.memo }
  kept : ∀ key, (∀ values, inputs values → key ≠ Key.ofValues values) → ∀ i, g.memo.get? i key = f.memo.get? i key

section
variable {f g g' : Formula} {inputs inputs' : List Float → Prop}

/-- A formula is touched by nothing when nothing is done. -/
theorem Touched.refl (f : Formula) (inputs : List Float → Prop) : Touched f inputs f := ⟨rfl, fun _ _ _ => rfl⟩

/-- What was touched for some assignments was touched for more of them. -/
theorem Touched.mono (h : Touched f inputs g) (hsub : ∀ values, inputs values → inputs' values) : Touched f inputs' g :=
  ⟨h.same, fun key hkey => h.kept key fun values hv => hkey values (hsub values hv)⟩

/-- One history behind another touches what both do. -/
theorem Touched.trans (h : Touched f inputs g) (h' : Touched g inputs g') : Touched f inputs g' := by
  refine ⟨?_, fun key hkey i => (h'.kept key hkey i).trans (h.kept key hkey i)⟩
  rw [h'.same, h.same]

/-- A formula that was touched has the same letters. -/
theorem Touched.letters (h : Touched f inputs g) : g.letters = f.letters := by rw [h.same]

/-- A formula that was touched has the same dag. -/
theorem Touched.dag (h : Touched f inputs g) : g.dag = f.dag := by rw [h.same]

/-- The root touches the assignment that its arguments give. -/
theorem touched_root (f : Formula) (arguments : List (Text × Argument)) :
    Touched f (fun values => Argument.bind arguments f.letters = .ok values) (f.root arguments).2 := by
  rw [Formula.root]
  cases hb : Argument.bind arguments f.letters with
  | error fault => exact .refl f _
  | ok values =>
    have hget : ∀ key, key ≠ Key.ofValues values → ∀ i,
        (f.evaluation.evaluate (.ofValues values) Index.root f.memo).2.get? i key = f.memo.get? i key := fun key hkey =>
      f.evaluation.get?_evaluate_of_ne (.ofValues values) hkey Index.root f.memo
    simp only
    split
    · rename_i heval
      rw [heval] at hget
      exact ⟨rfl, fun key hkey => hget key (hkey values rfl)⟩
    · rename_i heval
      rw [heval] at hget
      exact ⟨rfl, fun key hkey => hget key (hkey values rfl)⟩

/-- A call touches the assignment that its arguments give. -/
theorem touched_call (f : Formula) (arguments : List (Text × Argument)) (places : Nat) :
    Touched f (fun values => Argument.bind arguments f.letters = .ok values) (f.call arguments places).2 := by
  have h := f.touched_root arguments
  rw [Formula.call]
  split
  · rename_i hroot
    rwa [hroot] at h
  · rename_i hroot
    rwa [hroot] at h

/-- An outline touches the assignment that its arguments give. -/
theorem touched_outline (f : Formula) (arguments : List (Text × Argument)) :
    Touched f (fun values => Argument.bind arguments f.letters = .ok values) (f.outline arguments).2 := by
  have h := f.touched_root arguments
  rw [Formula.outline]
  split
  · rename_i hroot
    rwa [hroot] at h
  · rename_i hroot
    rwa [hroot] at h

end

/-- The assignments that an operation evaluates a formula for. -/
def Operation.inputs (letters : List Char) (op : Operation) (values : List Float) : Prop :=
  ∃ arguments ∈ op.arguments, Argument.bind arguments letters = .ok values

/-- A batch touches the assignments that it lists. -/
theorem touched_callEach (f : Formula) (places : Nat) (assignments : List (List (Text × Float))) :
    Touched f (Operation.inputs f.letters (.callEach places assignments)) (f.callEach places assignments).2 := by
  induction assignments generalizing f with
  | nil => exact .refl f _
  | cons assignment rest ih =>
    have hfirst := f.touched_call (assignment.map fun e => (e.1, .number e.2)) places
    have hrest := ih (f.call (assignment.map fun e => (e.1, .number e.2)) places).2
    rw [hfirst.letters] at hrest
    refine .trans (hfirst.mono fun values hv => ⟨_, by simp [Operation.arguments], hv⟩) (hrest.mono ?_)
    rintro values ⟨arguments, hmem, hv⟩
    exact ⟨arguments, List.mem_cons_of_mem _ hmem, hv⟩

/-- An operation changes nothing but what is kept under the assignments that it evaluates the formula for. -/
theorem touched_run (f : Formula) (op : Operation) : Touched f (op.inputs f.letters) (op.run f).2 := by
  cases op with
  | call arguments places =>
    exact (f.touched_call arguments places).mono fun values hv => ⟨arguments, by simp [Operation.arguments], hv⟩
  | callRounded arguments =>
    exact (f.touched_call arguments _).mono fun values hv => ⟨arguments, by simp [Operation.arguments], hv⟩
  | callEach places assignments => exact f.touched_callEach places assignments
  | outline arguments =>
    exact (f.touched_outline arguments).mono fun values hv => ⟨arguments, by simp [Operation.arguments], hv⟩

/-- A history touches the assignments of its operations. -/
theorem touched_runAll (f : Formula) (history : List Operation) :
    Touched f (fun values => ∃ op ∈ history, op.inputs f.letters values) (Operation.runAll f history) := by
  induction history generalizing f with
  | nil => exact .refl f _
  | cons op rest ih =>
    have hfirst := f.touched_run op
    have hrest := ih (op.run f).2
    rw [hfirst.letters] at hrest
    refine .trans (hfirst.mono fun values hv => ⟨op, by simp, hv⟩) (hrest.mono ?_)
    rintro values ⟨op', hmem, hv⟩
    exact ⟨op', List.mem_cons_of_mem _ hmem, hv⟩

/-- An operation evaluates a formula for finite numbers. -/
theorem Operation.isFinite_of_inputs {letters : List Char} {op : Operation} {values : List Float} (h : op.inputs letters values) :
    AllFinite values := by
  obtain ⟨arguments, -, hb⟩ := h
  exact Argument.isFinite_of_bind hb

/-- Compiling under other settings changes the settings only. -/
theorem compileWith_settings {rules : RuleSet} {settings settings' : Settings} {names : List Text} {source : Text} {f : Formula}
    (h : compileWith rules settings names source = .ok f) (hvalid : settings'.validate = .ok ()) :
    f.settings = settings ∧ compileWith rules settings' names source = .ok { f with settings := settings' } := by
  obtain ⟨_, -, h⟩ := bind_eq_ok.1 h
  obtain ⟨letters, hletters, h⟩ := bind_eq_ok.1 h
  obtain ⟨contexts, hcontexts, h⟩ := bind_eq_ok.1 h
  obtain ⟨order, dag, ho, hb, rfl⟩ := ofParts_eq_ok h
  exact ⟨rfl, bind_eq_ok.2 ⟨(), mapError_eq_ok.2 hvalid, bind_eq_ok.2 ⟨letters, hletters, bind_eq_ok.2 ⟨contexts, hcontexts,
    ofParts_eq ho hb settings'⟩⟩⟩⟩

/-- Valid settings are taken over, and nothing else changes. -/
theorem withSettings_eq {settings : Settings} (f : Formula) (h : settings.validate = .ok ()) :
    f.withSettings settings = .ok { f with settings := settings } :=
  bind_eq_ok.2 ⟨(), mapError_eq_ok.2 h, rfl⟩

/-- A call that was answered has the same answer again under any settings, since the result it needs is kept. -/
theorem call_withSettings_of_ok {f g : Formula} {arguments : List (Text × Argument)} {places : Nat} {answer : Branches}
    (h : f.call arguments places = (.ok answer, g)) (settings : Settings) :
    (call { g with settings := settings } arguments places).1 = .ok answer := by
  rw [Formula.call, Formula.root] at h
  cases hb : Argument.bind arguments f.letters with
  | error fault => simp [hb] at h
  | ok values =>
    simp only [hb] at h
    split at h
    · cases h
    · rename_i hroot
      split at hroot
      · cases hroot
      · rename_i result m heval
        cases hroot
        cases h
        have hkept := Evaluation.get?_of_evaluate_eq_ok heval
        rw [Formula.call, Formula.root]
        simp only [hb]
        rw [Evaluation.evaluate]
        simp only [Evaluation.Valuation.ofValues] at hkept ⊢
        rw [hkept]

/-- Under settings with the same precision a formula has the same results. -/
theorem answers_withPrecision {f : Formula} {nodes : Nat → Prop} {inputs : List Float → Prop}
    {results : List Float → Nat → Except EvaluationFault Branches} (h : f.Answers nodes inputs results) {settings : Settings}
    (hprecision : settings.precision = f.settings.precision) : Answers { f with settings := settings } nodes inputs results := by
  have hsame : evaluation { f with settings := settings } = f.evaluation := by rw [evaluation, evaluation, hprecision]
  unfold Answers
  rw [hsame]
  exact h

/-- What a formula has kept says nothing about assignments that it was not evaluated for. -/
theorem Touched.sound_of_new {f g : Formula} {inputs inputs' : List Float → Prop} (h : Touched f inputs g)
    (hempty : f.memo = Memo.empty f.dag.size) (hslots : g.memo.slots = f.dag.size)
    (hnew : ∀ v, inputs' v → ∀ w, inputs w → Key.ofValues v ≠ Key.ofValues w) (nodes : Nat → Prop)
    (results : List Float → Nat → Except EvaluationFault Branches) : g.memo.Sound f.dag nodes inputs' results := by
  refine ⟨hslots, fun values hv i b hb => ?_⟩
  rw [h.kept _ (hnew values hv) i, hempty] at hb
  cases hb

/-- A formula under other settings answers as the formula that is compiled with them, for assignments that it was not evaluated for
before, and for all of them if the precision is the same. -/
theorem run_withSettings {rules : RuleSet} {settings settings' : Settings} {names : List Text} {source : Text} {f : Formula}
    (hf : compileWith rules settings names source = .ok f) (hvalid : settings'.validate = .ok ()) (history : List Operation)
    (op : Operation)
    (hnew : settings'.precision = settings.precision ∨
      ∀ values, op.inputs f.letters values → ∀ earlier ∈ history, ¬ earlier.inputs f.letters values) :
    ∃ g fresh, (Operation.runAll f history).withSettings settings' = .ok g ∧
      compileWith rules settings' names source = .ok fresh ∧ (op.run g).1 = (op.run fresh).1 := by
  obtain ⟨hempty, hlocal⟩ := (Compiled.source hf).fresh
  obtain ⟨hsettings, hfresh⟩ := compileWith_settings hf hvalid
  obtain ⟨nodes, results, hanswers⟩ := Evaluation.exists_results (e := f.evaluation) hlocal separates_allFinite Index.root
  have hfirst : Kept f nodes AllFinite results f := ⟨rfl, hempty ▸ Memo.Sound.empty _ _ _ _⟩
  have hlater : Kept f nodes AllFinite results (Operation.runAll f history) :=
    hfirst.runAll hanswers fun _ _ arguments _ => f.binds_allFinite arguments
  -- results that the formula with the new settings answers, and for which what was kept before is sound
  obtain ⟨nodes', inputs', results', hanswers', hbinds', hsound⟩ : ∃ nodes' inputs' results',
      Answers { f with settings := settings' } nodes' inputs' results' ∧
        (∀ arguments ∈ op.arguments, f.Binds inputs' arguments) ∧
        (Operation.runAll f history).memo.Sound f.dag nodes' inputs' results' := by
    rcases hnew with hprecision | hnew
    · exact ⟨nodes, _, results, answers_withPrecision hanswers (hprecision.trans (by rw [hsettings])),
        fun arguments _ => f.binds_allFinite arguments, hlater.sound⟩
    · have hkeys : Key.Separates (op.inputs f.letters) := Key.separates_of_finite fun _ => Operation.isFinite_of_inputs
      obtain ⟨nodes', results', hanswers'⟩ :=
        Evaluation.exists_results (e := evaluation { f with settings := settings' }) hlocal hkeys Index.root
      refine ⟨nodes', _, results', hanswers', fun arguments hmem values hb => ⟨arguments, hmem, hb⟩, ?_⟩
      refine (f.touched_runAll history).sound_of_new hempty hlater.sound.slots ?_ nodes' results'
      rintro v hv w ⟨earlier, hmem, hw⟩ heq
      have hvw := Key.eq_of_ofValues (Operation.isFinite_of_inputs hv) (Operation.isFinite_of_inputs hw) heq
      exact hnew v hv earlier hmem (hvw ▸ hw)
  have hstart : Kept { f with settings := settings' } nodes' inputs' results' { f with settings := settings' } :=
    ⟨rfl, hempty ▸ Memo.Sound.empty _ _ _ _⟩
  have hgoal : Kept { f with settings := settings' } nodes' inputs' results'
      { Operation.runAll f history with settings := settings' } := ⟨by rw [(f.touched_runAll history).same], hsound⟩
  exact ⟨_, _, withSettings_eq _ hvalid, hfresh, (hgoal.run hanswers' hstart hbinds').1⟩

end Formula

/-- The pool of a source that is the variable. -/
def Pool.variable : Pool := ⟨[.holding "x".toList], [("x".toList, 0)]⟩

theorem Pool.ofSource_variable : Pool.ofSource .standard "x".toList = .ok Pool.variable := by
  have hgroups : Pool.ofGroups "x".toList = Pool.variable := by decide +kernel
  have hreduce : Pool.reduce .standard Pool.variable = .ok Pool.variable := by decide +kernel
  have hcanonical : Pool.canonical Pool.variable = Pool.variable := by decide +kernel
  rw [Pool.ofSource, hgroups, hreduce, Except.map, hcanonical]

theorem Contexts.ofSource_variable : Contexts.ofSource .standard ['x'] "x".toList = .ok (.ofTexts ["x".toList]) := by
  have hstrip : Source.stripBlanks RuleSet.standard.functionNames "x".toList = "x".toList := by decide +kernel
  have hfault : Source.fault? .standard ['x'] "x".toList = none := by decide +kernel
  have hfreeze : (Pool.bindLetters RuleSet.standard.functionNames ['x'] Pool.variable).freeze = ofTexts ["x".toList] := by cbv
  rw [ofSource, hstrip, hfault]
  simp only
  rw [ofWellFormed, Pool.ofSource_variable, Except.map, hfreeze]
  rfl

namespace Formula

/-- Settings under which nodes keep one significant digit. -/
def oneDigit : Settings := { precision := 1 }

/-- The dag of a variable alone. -/
def variableDag : Dag := ⟨[⟨.variable 0, "x".toList, []⟩]⟩

/-- The formula that is its variable. -/
def identity (settings : Settings) : Formula where
  letters := ['x']
  rules := .standard
  contexts := .ofTexts ["x".toList]
  dag := variableDag
  memo := .empty 1
  settings := settings

/-- The source that is a variable is compiled to the formula of that variable. -/
theorem compileWith_identity {settings : Settings} (h : settings.validate = .ok ()) :
    compileWith .standard settings ["x".toList] "x".toList = .ok (Formula.identity settings) := by
  have horder : (Contexts.ofTexts ["x".toList]).order = .ok [0] := by cbv
  have hbuild : Dag.build .standard ['x'] (.ofTexts ["x".toList]) = .ok variableDag := by decide +kernel
  exact bind_eq_ok.2 ⟨(), mapError_eq_ok.2 h, bind_eq_ok.2 ⟨['x'], mapError_eq_ok.2 Contexts.declare_x,
    bind_eq_ok.2 ⟨_, Contexts.ofSource_variable, ofParts_eq horder hbuild settings⟩⟩⟩

/-- A finite number for the variable is bound as it is. -/
theorem bind_x {x : Float} (hx : x.isFinite = true) : Argument.bind [("x".toList, .number x)] ['x'] = .ok [x] := by
  have hvalue : Argument.valueOf [("x".toList, .number x)] 'x' = .ok x := by
    simp [Argument.valueOf, Argument.last?, Argument.toFinite?, Option.filter, hx]
  exact bind_eq_ok.2 ⟨x, hvalue, rfl⟩

theorem computeAll_identity (settings : Settings) (x : Float) :
    (evaluation (identity settings)).computeAll (.ofValues [x]) [Index.root] (.empty 1) =
      (.ok (), (Memo.empty 1).insert Index.root (Key.ofValues [x]) [Branches.normalize settings.precision x]) := by
  have hvalue : Evaluation.nodeBranches .standard settings.precision [x] Index.root ⟨.variable 0, "x".toList, []⟩
      (fun j => (Memo.empty 1).get? j (Key.ofValues [x])) = .ok [Branches.normalize settings.precision x] := by
    simp only [Evaluation.nodeBranches, Evaluation.rawBranches, List.getElem?_cons_zero, Except.map, Branches.normalForm,
      List.map_cons, List.map_nil, List.mergeSort_singleton]
    rfl
  have hnode : (evaluation (identity settings)).dag.node? Index.root = some ⟨.variable 0, "x".toList, []⟩ := rfl
  simp only [Evaluation.computeAll, hnode]
  simp only [evaluation, identity, Evaluation.Valuation.ofValues, hvalue]

/-- The formula of a variable answers with the value of it, normalized and rounded. -/
theorem call_identity (settings : Settings) {x : Float} (hx : x.isFinite = true) (places : Nat) :
    ((identity settings).call [("x".toList, .number x)] places).1 =
      .ok [Branches.toPlaces places (Branches.normalize settings.precision x)] := by
  have hget : (Memo.empty 1).get? Index.root (Evaluation.Valuation.ofValues [x]).key = none := rfl
  have hdemand : (evaluation (identity settings)).dag.demand
      (fun i => (Memo.empty 1).contains i (Evaluation.Valuation.ofValues [x]).key) Index.root = .ok [Index.root] := by
    simp [Dag.demand, Dag.demandFrom, Memo.contains, Memo.get?, Memo.empty, Dag.size, Dag.dependencies, Dag.node?, Index.root,
      evaluation, identity, variableDag]
  have hkept : ((Memo.empty 1).insert Index.root (Key.ofValues [x]) [Branches.normalize settings.precision x]).get? Index.root
      (Evaluation.Valuation.ofValues [x]).key = some [Branches.normalize settings.precision x] := by
    rw [Memo.get?_insert (by decide)]
    exact if_pos ⟨rfl, rfl⟩
  have hroot : (evaluation (identity settings)).evaluate (.ofValues [x]) Index.root (.empty 1) =
      (.ok [Branches.normalize settings.precision x],
        (Memo.empty 1).insert Index.root (Key.ofValues [x]) [Branches.normalize settings.precision x]) := by
    rw [Evaluation.evaluate, hget]
    simp only [hdemand, computeAll_identity, hkept]
  rw [Formula.call, Formula.root, show (identity settings).letters = ['x'] from rfl, bind_x hx]
  simp only
  rw [show (identity settings).memo = Memo.empty 1 from rfl, hroot]
  rfl

/-- Another assignment is evaluated in the new precision. -/
theorem run_withSettings_identity :
    ∃ f g fresh, compileWith .standard .standard ["x".toList] "x".toList = .ok f ∧
      (Operation.runAll f [.call [("x".toList, .number 1.5)] 5]).withSettings oneDigit = .ok g ∧
      compileWith .standard oneDigit ["x".toList] "x".toList = .ok fresh ∧
      (Operation.run g (.call [("x".toList, .number 2.5)] 5)).1 = (Operation.run fresh (.call [("x".toList, .number 2.5)] 5)).1 := by
  have hnew : ∀ values, Operation.inputs ['x'] (.call [("x".toList, .number 2.5)] 5) values →
      ¬ Operation.inputs ['x'] (.call [("x".toList, .number 1.5)] 5) values := by
    rintro values ⟨arguments, hmem, hb⟩ ⟨earlier, hmem', hb'⟩
    rw [Operation.arguments, List.mem_singleton] at hmem hmem'
    subst hmem hmem'
    rw [bind_x (by decide +kernel)] at hb hb'
    cases hb
    exact absurd (List.singleton_inj.1 (Except.ok.inj hb')) (by decide +kernel)
  have hf : compileWith .standard .standard ["x".toList] "x".toList = .ok (identity .standard) := compileWith_identity rfl
  have hvalid : oneDigit.validate = .ok () := rfl
  obtain ⟨g, fresh, hg, hfresh, heq⟩ := run_withSettings hf hvalid [.call [("x".toList, .number 1.5)] 5]
    (.call [("x".toList, .number 2.5)] 5)
    (.inr fun values hv earlier hmem => List.mem_singleton.1 hmem ▸ hnew values hv)
  exact ⟨_, g, fresh, hf, hg, hfresh, heq⟩

/-- A formula that was evaluated for an assignment keeps the result in the old precision. -/
theorem exists_stale : ∃ (settings settings' : Settings) (f g fresh : Formula) (op : Operation),
    compileWith .standard settings ["x".toList] "x".toList = .ok f ∧ settings'.validate = .ok () ∧
      (Operation.runAll f [op]).withSettings settings' = .ok g ∧
      compileWith .standard settings' ["x".toList] "x".toList = .ok fresh ∧
      (op.run g).1 = .branches (.ok [1.5]) ∧ (op.run fresh).1 = .branches (.ok [2.0]) := by
  refine ⟨.standard, oneDigit, _, _, _, .call [("x".toList, .number 1.5)] 5, compileWith_identity rfl,
    rfl, withSettings_eq _ rfl, compileWith_identity rfl, ?_, ?_⟩
  · have hfirst : ((identity .standard).call [("x".toList, .number 1.5)] 5).1 = .ok [1.5] :=
      (call_identity _ (by decide +kernel) 5).trans (by decide +kernel)
    exact congrArg Answer.branches (call_withSettings_of_ok (Prod.ext hfirst rfl) _)
  · exact congrArg Answer.branches ((call_identity _ (by decide +kernel) 5).trans (by decide +kernel))

end Formula

end FormulaDag
