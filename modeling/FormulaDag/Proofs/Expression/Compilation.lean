import FormulaDag.Proofs.Expression.Values
import FormulaDag.Proofs.Formula.Permutation

/-!
# Compiling an expression

The written text of an expression compiles, and the formula gives the value of the expression: it fails where the expression has no value,
and answers with a single branch where it has one. All passes are in between: taking groups apart, extracting what the rules find, binding
variables, merging equal texts, numbering, telling the kinds of nodes, and evaluating them on demand.
-/

namespace FormulaDag

namespace Contexts

/-- Every context of an expression has a node. -/
theorem Represents.exists_nodeOf {letters : List Char} {M : Nat → Expression → Prop} {e : Expression} {c : Contexts}
    (h : c.Represents letters M e) (hletters : ∀ c ∈ letters, c.isLower = true) {i : Nat} {t : Text} (ht : c.get? i = some t) :
    ∃ n, Dag.nodeOf .standard letters t = .ok n := by
  rcases h.meant i t ht with ⟨d, hd, rfl⟩ | ⟨a, ha⟩
  · exact Dag.exists_nodeOf_letterText hd
  · obtain ⟨l, hget, hl⟩ := h.conveys i a ha
    obtain ⟨kind, -, hnode⟩ := hl.exists_kind hletters h.small
    rw [ht, Option.some.injEq] at hget
    exact ⟨_, hget ▸ hnode⟩

end Contexts

namespace Formula

/-- Compiling the text of an expression and evaluating the formula is evaluating the expression by recursion, and then rounding. -/
theorem call_write {names : List Text} {letters : List Char} (hletters : Source.declare .standard names = .ok letters) {e : Expression}
    (he : ∀ c ∈ e.letters, c ∈ letters ∧ c ≠ 'e') (hbound : e.write.length + letters.length ≤ Index.bound) :
    ∃ f, compile .standard names e.write = .ok f ∧ ∀ (arguments : List (Text × Argument)) (assignment : Char → Float) (places : Nat),
      (∀ c ∈ letters, Argument.valueOf arguments c = .ok (assignment c)) →
        (f.call arguments places).1.toOption =
          (e.value Settings.standard.precision assignment).map fun x => [Branches.toPlaces places x] := by
  obtain ⟨contexts, M, hcontexts, hcreated, hM⟩ := e.exists_contexts hletters he hbound
  have hlower := (Source.declare_facts hletters).2
  have hsaved := Contexts.saved_ofSource hletters hcreated hcontexts
  obtain ⟨dag, hbuild⟩ : ∃ dag, Dag.build .standard letters contexts = .ok dag :=
    Dag.exists_build_iff.2 fun i t ht => hM.exists_nodeOf hlower ht
  have hresults := fun assignment : Char → Float =>
    Evaluation.computes_evaluate hsaved.valid hsaved.dense hbuild Settings.standard.precision (letters.map assignment)
  refine ⟨_, compileWith_of_parts hletters hcreated rfl hcontexts hbuild, fun arguments assignment places harguments => ?_⟩
  have hbind : Argument.bind arguments letters = .ok (letters.map assignment) := mapM_eq_ok_iff.2 (by simpa using harguments)
  have hroot := Evaluation.yields_of_conveys hlower hM.conveys hM.small hsaved.dense hbuild (hresults assignment) hM.root
  rw [call, root]
  simp only [hbind, evaluation]
  generalize Evaluation.evaluate _ _ Index.root _ = answer at hroot ⊢
  cases hvalue : e.value Settings.standard.precision assignment with
  | none =>
    rw [hvalue] at hroot
    obtain ⟨fault, hfault⟩ := hroot
    obtain ⟨result, memo⟩ := answer
    obtain rfl : result = .error fault := hfault
    rfl
  | some x =>
    rw [hvalue] at hroot
    obtain ⟨result, memo⟩ := answer
    obtain rfl : result = .ok [x] := hroot
    rfl

/-- The half of the successor of a variable is compiled from its text, and is three halves where the variable is two. -/
theorem call_write_half : ∃ f, compile .standard ["x".toList] "(x+1)/(2)".toList = .ok f ∧
    (f.call [("x".toList, .number 2.0)] 5).1.toOption = some [1.5] := by
  let sum : Expression := .operation .plus (.letter 'x') (.digits ⟨['1'], by simp, by simp⟩)
  let half : Expression := .operation .divide sum (.digits ⟨['2'], by simp, by simp⟩)
  have hletters : ∀ c ∈ half.letters, c ∈ ['x'] ∧ c ≠ 'e' := by simp [half, sum, Expression.letters]
  have hbound : half.write.length + ['x'].length ≤ Index.bound := by decide +kernel
  have hvalue : half.value Settings.standard.precision (fun _ => 2.0) = some 1.5 := by decide +kernel
  have harguments : Argument.valueOf [("x".toList, .number 2.0)] 'x' = .ok 2.0 := by rfl
  have hwrite : half.write = "(x+1)/(2)".toList := by decide +kernel
  obtain ⟨f, hf, hcall⟩ := call_write Contexts.declare_x hletters hbound
  refine ⟨f, hwrite ▸ hf, ?_⟩
  rw [hcall [("x".toList, .number 2.0)] (fun _ => 2.0) 5 (by simpa using harguments), hvalue]
  decide +kernel

end Formula

end FormulaDag
