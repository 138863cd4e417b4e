import FormulaDag.Proofs.Argument
import FormulaDag.Proofs.Formula.Renumbering

/-!
# Formulas and their arguments

What a formula answers depends on its arguments only through the numbers that they give to its variables. The order of the pairs, names
that are not declared, earlier pairs of the same name and the way in which a number is given leave no trace, neither in the answer nor
in the results that are kept. The main statement also says when arguments are refused, and for which variable.
-/

namespace FormulaDag.Formula

section
variable {f : Formula} {arguments arguments' : List (Text × Argument)} {fault : UserFault}

/-- The root depends on what the arguments bind only. -/
theorem root_congr (h : Argument.bind arguments f.letters = Argument.bind arguments' f.letters) :
    f.root arguments = f.root arguments' := by
  unfold root
  rw [h]

/-- An evaluation is refused for its arguments exactly when these do not bind the variables, and then nothing is evaluated. -/
theorem root_eq_error_iff {g : Formula} :
    f.root arguments = (.error (.user fault), g) ↔ Argument.bind arguments f.letters = .error fault ∧ g = f := by
  unfold root
  cases Argument.bind arguments f.letters with
  | error fault' => simp [eq_comm]
  | ok values =>
    simp only [reduceCtorEq, false_and, iff_false]
    generalize f.evaluation.evaluate (.ofValues values) Index.root f.memo = found
    obtain ⟨answer, memo⟩ := found
    cases answer <;> simp

/-- Arguments that do not bind are refused by a call, and the formula stays as it is. -/
theorem call_of_bind_error (h : Argument.bind arguments f.letters = .error fault) (places : Nat) :
    f.call arguments places = (.error (.user fault), f) := by
  unfold call
  rw [root_eq_error_iff.2 ⟨h, rfl⟩]

/-- Arguments that do not bind are refused by an outline, and the formula stays as it is. -/
theorem outline_of_bind_error (h : Argument.bind arguments f.letters = .error fault) :
    f.outline arguments = (.error (.user fault), f) := by
  unfold outline
  rw [root_eq_error_iff.2 ⟨h, rfl⟩]

/-- A call that refuses its arguments does so since they do not bind. -/
theorem bind_error_of_call {places : Nat} (h : (f.call arguments places).1 = .error (.user fault)) :
    Argument.bind arguments f.letters = .error fault := by
  unfold call at h
  split at h
  · rename_i fault' g hroot
    obtain rfl : fault' = .user fault := Except.error.inj h
    exact (root_eq_error_iff.1 hroot).1
  · cases h

/-- An outline that refuses its arguments does so since they do not bind. -/
theorem bind_error_of_outline (h : (f.outline arguments).1 = .error (.user fault)) :
    Argument.bind arguments f.letters = .error fault := by
  unfold outline at h
  split at h
  · rename_i fault' g hroot
    obtain rfl : fault' = .user fault := Except.error.inj h
    exact (root_eq_error_iff.1 hroot).1
  · cases h

end

/-- A call depends only on the numbers that its arguments give to the variables, in three parts, for a formula in any state.
1. Arguments that give every variable the same number have the same answer and outline, and leave the same formula behind.
2. Arguments are refused exactly when some variable gets no number, and the fault is that of the first such variable.
3. Arguments that are refused leave the formula as it was. -/
theorem call_depends_on_values (f : Formula) (arguments arguments' : List (Text × Argument)) (places : Nat) :
    ((∀ letter ∈ f.letters, ∃ x, Argument.Gives arguments [letter] x ∧ Argument.Gives arguments' [letter] x) →
        f.call arguments places = f.call arguments' places ∧ f.outline arguments = f.outline arguments') ∧
    (((∃ letter ∈ f.letters, ∀ x, ¬ Argument.Gives arguments [letter] x) ↔ ∃ fault, Argument.Refused arguments f.letters fault) ∧
      ∀ fault, ((f.call arguments places).1 = .error (.user fault) ↔ Argument.Refused arguments f.letters fault) ∧
        ((f.outline arguments).1 = .error (.user fault) ↔ Argument.Refused arguments f.letters fault)) ∧
    (∀ fault, Argument.Refused arguments f.letters fault → (f.call arguments places).2 = f ∧ (f.outline arguments).2 = f) := by
  refine ⟨?_, ⟨Argument.exists_refused_iff.symm, ?_⟩, ?_⟩
  · intro hsame
    have hroot := root_congr (Argument.bind_congr hsame)
    unfold call outline
    rw [hroot]
    exact ⟨rfl, rfl⟩
  · intro fault
    rw [← Argument.bind_eq_error_iff]
    refine ⟨⟨bind_error_of_call, ?_⟩, bind_error_of_outline, ?_⟩
    · intro hbind
      rw [call_of_bind_error hbind]
    · intro hbind
      rw [outline_of_bind_error hbind]
  · intro fault hrefused
    have hbind := Argument.bind_eq_error_iff.2 hrefused
    rw [call_of_bind_error hbind, outline_of_bind_error hbind]
    exact ⟨rfl, rfl⟩

/-- The contexts of a difference of two variables. -/
def differenceContexts : Contexts := .ofTexts ["@/1/@-@/2/@".toList, "x".toList, "y".toList]

theorem exists_difference : ∃ f, ofContexts .standard ["x".toList, "y".toList] differenceContexts = .ok f ∧ f.letters = ['x', 'y'] := by
  have hvalid : differenceContexts.validate = .ok () := by cbv
  have hdeclare : Source.declare .standard ["x".toList, "y".toList] = .ok ['x', 'y'] := by decide +kernel
  have hcompact : differenceContexts.compact = differenceContexts := by rw [Contexts.compact, if_pos (by decide)]
  have hbuild : ∃ dag, Dag.build .standard ['x', 'y'] differenceContexts = .ok dag := ⟨_, rfl⟩
  obtain ⟨dag, hbuild⟩ := hbuild
  exact ⟨_, (ofContexts_eq_ok_iff (Contexts.validate_eq_ok.1 hvalid)).2 ⟨_, dag, hdeclare, hcompact.symm ▸ hbuild, rfl⟩, rfl⟩

/-- A difference is the same for numbers and for the same numbers written in a text, in another order, between other pairs; and it is
left alone when a number is missing. -/
theorem call_depends_on_values_difference : ∃ f, ofContexts .standard ["x".toList, "y".toList] differenceContexts = .ok f ∧
    (∀ letter ∈ f.letters, ∃ x, Argument.Gives [("x".toList, .number 1.25), ("y".toList, .number 2.0)] [letter] x ∧
      Argument.Gives [("y".toList, .number 7.0), ("z".toList, .text "none".toList), ("y".toList, .text " 2 ".toList),
        ("x".toList, .text "+1.250\u3000".toList)] [letter] x) ∧
    f.call [("x".toList, .number 1.25), ("y".toList, .number 2.0)] 5 =
      f.call [("y".toList, .number 7.0), ("z".toList, .text "none".toList), ("y".toList, .text " 2 ".toList),
        ("x".toList, .text "+1.250\u3000".toList)] 5 ∧
    Argument.Refused [("x".toList, .number 1.25)] f.letters (.missingVariable "y".toList) ∧
    (f.call [("x".toList, .number 1.25)] 5).2 = f := by
  obtain ⟨f, hf, hletters⟩ := exists_difference
  have hgiven : ∀ letter ∈ f.letters, ∃ x, Argument.Gives [("x".toList, .number 1.25), ("y".toList, .number 2.0)] [letter] x ∧
      Argument.Gives [("y".toList, .number 7.0), ("z".toList, .text "none".toList), ("y".toList, .text " 2 ".toList),
        ("x".toList, .text "+1.250\u3000".toList)] [letter] x := by
    rw [hletters]
    simp only [← Argument.valueOf_eq_ok_iff]
    intro letter hletter
    simp only [List.mem_cons, List.not_mem_nil, or_false] at hletter
    rcases hletter with rfl | rfl
    · exact ⟨1.25, by decide +kernel, by decide +kernel⟩
    · exact ⟨2.0, by decide +kernel, by decide +kernel⟩
  have hrefused : Argument.Refused [("x".toList, .number 1.25)] f.letters (.missingVariable "y".toList) := by
    rw [hletters]
    refine ⟨['x'], 'y', [], rfl, ?_, .missing (by decide)⟩
    simp only [← Argument.valueOf_eq_ok_iff, List.mem_singleton, forall_eq]
    exact ⟨1.25, by decide +kernel⟩
  exact ⟨f, hf, hgiven, ((call_depends_on_values f _ _ 5).1 hgiven).1, hrefused,
    ((call_depends_on_values f _ [] 5).2.2 _ hrefused).1⟩

end FormulaDag.Formula
