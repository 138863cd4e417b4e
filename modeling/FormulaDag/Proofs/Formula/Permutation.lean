import FormulaDag.Proofs.Contexts.Permutation
import FormulaDag.Proofs.Evaluation.Permutation
import FormulaDag.Proofs.Formula.Reloading
import FormulaDag.Proofs.Formula.Renumbering

/-!
# Formulas under another order of the variables

The order in which variables are declared changes the numbers of contexts, the positions of variables and the keys of results, and none
of this shows in an answer.
-/

namespace FormulaDag

namespace Source

variable {s : RuleSet} {names names' : List Text} {letters : List Char}

theorem letter?_eq_some {declared : List Char} {name : Text} {c : Char} : letter? s declared name = some c ↔
    name = [c] ∧ c ∉ declared ∧ c.isLower = true ∧ s.isCommand [c] = false := by
  unfold letter?
  split
  · rename_i d
    rw [Option.ite_none_right_eq_some]
    simp only [Bool.and_eq_true, Bool.not_eq_true', List.contains_eq_mem, decide_eq_false_iff_not, Option.some.injEq,
      List.cons.injEq, and_true]
    constructor
    · rintro ⟨⟨⟨hlower, hnew⟩, hcommand⟩, rfl⟩
      exact ⟨rfl, hnew, hlower, hcommand⟩
    · rintro ⟨rfl, hnew, hlower, hcommand⟩
      exact ⟨⟨⟨hlower, hnew⟩, hcommand⟩, rfl⟩
  · rename_i hne
    simp only [reduceCtorEq, false_iff, not_and]
    rintro rfl
    exact absurd rfl (hne c)

/-- Variables can be declared after others when they are further distinct lowercase letters that name no command. -/
theorem declareAfter_eq_ok {declared : List Char} : declareAfter s declared names = .ok letters ↔
    ∃ more, letters = declared ++ more ∧ names = more.map (fun c => [c]) ∧ more.Nodup ∧
      ∀ c ∈ more, c ∉ declared ∧ c.isLower = true ∧ s.isCommand [c] = false := by
  induction names generalizing declared with
  | nil =>
    rw [declareAfter, Except.ok.injEq]
    constructor
    · rintro rfl
      exact ⟨[], by simp⟩
    · rintro ⟨more, rfl, hnames, -, -⟩
      rw [List.map_eq_nil_iff.1 hnames.symm, List.append_nil]
  | cons name names ih =>
    rw [declareAfter]
    constructor
    · intro h
      split at h
      · rename_i c hc
        obtain ⟨rfl, hfacts⟩ := letter?_eq_some.1 hc
        obtain ⟨more, rfl, rfl, hdistinct, hmore⟩ := ih.1 h
        refine ⟨c :: more, by simp, rfl, List.nodup_cons.2 ⟨fun hmem => (hmore c hmem).1 (by simp), hdistinct⟩, ?_⟩
        refine List.forall_mem_cons.2 ⟨hfacts, fun d hd => ?_⟩
        obtain ⟨hnew, hlower, hcommand⟩ := hmore d hd
        exact ⟨fun hmem => hnew (List.mem_append_left _ hmem), hlower, hcommand⟩
      · cases h
    · rintro ⟨more, rfl, hnames, hdistinct, hmore⟩
      cases more with
      | nil => cases hnames
      | cons c more =>
        obtain ⟨rfl, rfl⟩ := List.cons.inj hnames
        obtain ⟨hfacts, hmore⟩ := List.forall_mem_cons.1 hmore
        obtain ⟨hnew, hdistinct⟩ := List.nodup_cons.1 hdistinct
        rw [letter?_eq_some.2 ⟨rfl, hfacts⟩]
        refine ih.2 ⟨more, by simp, rfl, hdistinct, fun d hd => ⟨fun hmem => ?_, (hmore d hd).2⟩⟩
        rcases List.mem_append.1 hmem with hmem | hmem
        · exact (hmore d hd).1 hmem
        · exact hnew (List.mem_singleton.1 hmem ▸ hd)

/-- Variables that can be declared can be declared in any order. -/
theorem declare_perm (hperm : names.Perm names') (h : declare s names = .ok letters) :
    ∃ letters', declare s names' = .ok letters' ∧ letters.Perm letters' := by
  obtain ⟨more, rfl, rfl, hdistinct, hmore⟩ := declareAfter_eq_ok.1 h
  have hsingle : ∀ name ∈ names', [name.headD ' '] = name := by
    intro name hname
    obtain ⟨c, -, rfl⟩ := List.mem_map.1 (hperm.mem_iff.2 hname)
    rfl
  have hletters : letters.Perm (names'.map fun name => name.headD ' ') := by
    have hmap := hperm.map fun name : Text => name.headD ' '
    rwa [List.map_map, show (fun name : Text => name.headD ' ') ∘ (fun c => [c]) = id from rfl, List.map_id] at hmap
  refine ⟨_, declareAfter_eq_ok.2 ⟨_, rfl, ?_, hletters.nodup hdistinct, fun c hc => hmore c (hletters.mem_iff.2 hc)⟩, hletters⟩
  rw [List.map_map]
  exact ((List.map_congr_left hsingle).trans (List.map_id _)).symm

end Source

namespace Formula

variable {rules : RuleSet} {settings : Settings} {names names' : List Text} {letters letters' : List Char} {source : Text} {f : Formula}

/-- A source text compiles when the settings are valid, the variables can be declared, and it has contexts with a dag. -/
theorem parts_of_compileWith (hletters : Source.declare rules names = .ok letters)
    (h : compileWith rules settings names source = .ok f) : ∃ contexts dag, settings.validate = .ok () ∧
      Contexts.ofSource rules letters source = .ok contexts ∧ Dag.build rules letters contexts = .ok dag ∧
        f = ⟨letters, rules, contexts, dag, Memo.empty dag.size, settings⟩ := by
  obtain ⟨_, hvalid, h⟩ := bind_eq_ok.1 h
  obtain ⟨letters', hletters', h⟩ := bind_eq_ok.1 h
  obtain ⟨contexts, hcontexts, h⟩ := bind_eq_ok.1 h
  obtain ⟨_, dag, -, hbuild, rfl⟩ := ofParts_eq_ok h
  obtain rfl := Except.ok.inj (hletters.symm.trans (mapError_eq_ok.1 hletters'))
  exact ⟨contexts, dag, mapError_eq_ok.1 hvalid, hcontexts, hbuild, rfl⟩

theorem compileWith_of_parts (hletters : Source.declare rules names = .ok letters)
    (hsmall : Contexts.created rules letters source ≤ Index.bound) (hvalid : settings.validate = .ok ()) {contexts : Contexts}
    (hcontexts : Contexts.ofSource rules letters source = .ok contexts) {dag : Dag} (hbuild : Dag.build rules letters contexts = .ok dag) :
    compileWith rules settings names source = .ok ⟨letters, rules, contexts, dag, Memo.empty dag.size, settings⟩ := by
  have hsaved := Contexts.saved_ofSource hletters hsmall hcontexts
  obtain ⟨order, horder⟩ := Contexts.exists_order_iff.2 (Contexts.validate_eq_ok.1 hsaved.valid).acyclic
  exact bind_eq_ok.2 ⟨(), mapError_eq_ok.2 hvalid, bind_eq_ok.2 ⟨letters, mapError_eq_ok.2 hletters, bind_eq_ok.2 ⟨contexts, hcontexts,
    ofParts_eq horder hbuild _⟩⟩⟩

/-- A source text that compiles does so in any order of the variables, and the formulas answer alike. -/
theorem call_reordered (hletters : Source.declare rules names = .ok letters) (hletters' : Source.declare rules names' = .ok letters')
    (hperm : letters.Perm letters') (hsmall : Contexts.created rules letters source ≤ Index.bound)
    (hf : compileWith rules settings names source = .ok f) :
    ∃ g, compileWith rules settings names' source = .ok g ∧
      ∀ arguments places, Alike Eq (f.call arguments places).1 (g.call arguments places).1 := by
  obtain ⟨contexts, dag, hvalid, hcontexts, hbuild, rfl⟩ := parts_of_compileWith hletters hf
  obtain ⟨contexts', ρ, hcontexts', hrenumbered⟩ := Contexts.ofSource_perm hletters hletters' hperm hsmall hcontexts
  have hsmall' := (Contexts.created_perm hletters hletters' hperm (Contexts.fault?_of_ofSource hcontexts)).trans_le hsmall
  have hsaved := Contexts.saved_ofSource hletters hsmall hcontexts
  have hsaved' := Contexts.saved_ofSource hletters' hsmall' hcontexts'
  have hsame : ∀ c, c ∈ letters ↔ c ∈ letters' := fun c => hperm.mem_iff
  -- first the order of the variables changes, then the numbers do
  obtain ⟨middle, hmiddle⟩ := (Dag.exists_build_reordered hsame).1 ⟨dag, hbuild⟩
  obtain ⟨dag', hbuild'⟩ := Dag.exists_build_of_copies hrenumbered.copies ⟨middle, hmiddle⟩
  refine ⟨_, compileWith_of_parts hletters' hsmall' hvalid hcontexts' hbuild', fun arguments places => ?_⟩
  have hbind := Argument.bind_reordered hsame arguments
  rw [call, call, root, root]
  simp only
  generalize Argument.bind arguments letters = bound at hbind
  generalize Argument.bind arguments letters' = bound' at hbind
  cases hbind with
  | error => exact .error _ _
  | @ok values values' hagree =>
    have hroot := Evaluation.evaluate_reordered hsaved.valid hsaved.dense hsame hbuild hmiddle hagree settings.precision Index.root
    have halike := Evaluation.evaluate_renumbered hrenumbered (Contexts.validate_eq_ok.1 hsaved.valid) hsaved.dense hsaved'.dense hmiddle
      hbuild' settings.precision values'
    rw [← hroot] at halike
    simp only [evaluation]
    generalize Evaluation.evaluate ⟨dag, rules, settings.precision⟩ (.ofValues values) Index.root (.empty dag.size) = found at halike
    generalize Evaluation.evaluate ⟨dag', rules, settings.precision⟩ (.ofValues values') Index.root (.empty dag'.size) = found' at halike
    obtain ⟨answer, memo⟩ := found
    obtain ⟨answer', memo'⟩ := found'
    cases halike with
    | error => exact .error _ _
    | ok heq => exact .ok (by rw [heq])

/-- The order in which variables are declared does not matter. A source text compiles in all orders of its variables or in none; and
under all named arguments the formulas answer with the same branches, or both fail. -/
theorem call_permuted (hperm : names.Perm names') (hletters : Source.declare rules names = .ok letters)
    (hsmall : Contexts.created rules letters source ≤ Index.bound) (settings : Settings) :
    ((∃ f, compileWith rules settings names source = .ok f) ↔ ∃ g, compileWith rules settings names' source = .ok g) ∧
      ∀ f g, compileWith rules settings names source = .ok f → compileWith rules settings names' source = .ok g →
        ∀ arguments places answer, (f.call arguments places).1 = .ok answer ↔ (g.call arguments places).1 = .ok answer := by
  obtain ⟨letters', hletters', hsame⟩ := Source.declare_perm hperm hletters
  refine ⟨⟨?_, ?_⟩, fun f g hf hg arguments places answer => ?_⟩
  · rintro ⟨f, hf⟩
    obtain ⟨g, hg, -⟩ := call_reordered hletters hletters' hsame hsmall hf
    exact ⟨g, hg⟩
  · rintro ⟨g, hg⟩
    obtain ⟨contexts, -, -, hcontexts, -⟩ := parts_of_compileWith hletters' hg
    have hfault := Source.fault?_perm rules hsame _ ▸ Contexts.fault?_of_ofSource hcontexts
    have hsmall' := (Contexts.created_perm hletters hletters' hsame hfault).trans_le hsmall
    obtain ⟨f, hf, -⟩ := call_reordered hletters' hletters hsame.symm hsmall' hg
    exact ⟨f, hf⟩
  · obtain ⟨g', hg', halike⟩ := call_reordered hletters hletters' hsame hsmall hf
    obtain rfl := Except.ok.inj (hg.symm.trans hg')
    exact (halike arguments places).eq_ok_iff

/-- The pool of a difference of two variables before these are bound. -/
def differencePool : Pool := ⟨[.holding "x-y".toList], [("x-y".toList, 0)]⟩

theorem stripBlanks_difference : Source.stripBlanks RuleSet.standard.functionNames "x-y".toList = "x-y".toList := by decide +kernel

theorem ofSource_difference : Pool.ofSource .standard "x-y".toList = .ok differencePool := by
  have hgroups : Pool.ofGroups "x-y".toList = differencePool := by decide +kernel
  have hreduce : Pool.reduce .standard differencePool = .ok differencePool := by decide +kernel
  have hcanonical : Pool.canonical differencePool = differencePool := by decide +kernel
  rw [Pool.ofSource, hgroups, hreduce, Except.map, hcanonical]

/-- The variables of a difference are numbered in the order of their declaration, and its answers do not depend on it. -/
theorem call_permuted_difference : ∃ f g, compileWith .standard .standard ["x".toList, "y".toList] "x-y".toList = .ok f ∧
    compileWith .standard .standard ["y".toList, "x".toList] "x-y".toList = .ok g ∧
      f.contexts = .ofTexts ["@/1/@-@/2/@".toList, "x".toList, "y".toList] ∧
      g.contexts = .ofTexts ["@/2/@-@/1/@".toList, "y".toList, "x".toList] ∧
      ∀ arguments places answer, (f.call arguments places).1 = .ok answer ↔ (g.call arguments places).1 = .ok answer := by
  have hletters : Source.declare .standard ["x".toList, "y".toList] = .ok ['x', 'y'] := by decide +kernel
  have hletters' : Source.declare .standard ["y".toList, "x".toList] = .ok ['y', 'x'] := by decide +kernel
  have hsmall : Contexts.created .standard ['x', 'y'] "x-y".toList ≤ Index.bound := by
    have hlength : (differencePool.bindLetters RuleSet.standard.functionNames ['x', 'y']).cells.length = 3 := by decide +kernel
    rw [Contexts.created, stripBlanks_difference, ofSource_difference]
    simp only [hlength]
    decide
  have hcontexts : ∀ {letters : List Char}, Source.fault? .standard letters "x-y".toList = none →
      Contexts.ofSource .standard letters "x-y".toList =
        .ok (differencePool.bindLetters RuleSet.standard.functionNames letters).freeze := by
    intro letters hfault
    rw [Contexts.ofSource, stripBlanks_difference, hfault]
    simp only
    rw [Contexts.ofWellFormed, ofSource_difference]
    rfl
  have hfreeze : (differencePool.bindLetters RuleSet.standard.functionNames ['x', 'y']).freeze =
      .ofTexts ["@/1/@-@/2/@".toList, "x".toList, "y".toList] := by cbv
  have hfreeze' : (differencePool.bindLetters RuleSet.standard.functionNames ['y', 'x']).freeze =
      .ofTexts ["@/2/@-@/1/@".toList, "y".toList, "x".toList] := by cbv
  have hbuild : ∃ d, Dag.build .standard ['x', 'y'] (.ofTexts ["@/1/@-@/2/@".toList, "x".toList, "y".toList]) = .ok d := ⟨_, rfl⟩
  obtain ⟨hcompiled, hcall⟩ := call_permuted (.swap "y".toList "x".toList []) hletters hsmall Settings.standard
  obtain ⟨d, hbuild⟩ := hbuild
  have hvalid : Settings.standard.validate = .ok () := rfl
  have hf := compileWith_of_parts hletters hsmall hvalid
    ((hcontexts (by decide +kernel)).trans (congrArg _ hfreeze)) hbuild
  obtain ⟨g, hg⟩ := hcompiled.1 ⟨_, hf⟩
  obtain ⟨contexts, _, -, hcontexts', -, rfl⟩ := parts_of_compileWith hletters' hg
  have heq := Except.ok.inj (hcontexts'.symm.trans (hcontexts (by decide +kernel)))
  exact ⟨_, _, hf, hg, rfl, heq.trans hfreeze', hcall _ _ hf hg⟩

end Formula

end FormulaDag
