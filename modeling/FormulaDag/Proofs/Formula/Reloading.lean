import FormulaDag.Proofs.Contexts.Codec
import FormulaDag.Proofs.Contexts.WellFormed
import FormulaDag.Proofs.Formula.History

/-!
# Formulas that were saved and loaded

A formula is saved as the JSON of its contexts. Those of a compiled source text are valid and numbered from zero on, so they are read back
and compiled without being renumbered, into the formula that was saved, without the results that it has kept since.
-/

namespace FormulaDag

namespace Contexts

/-- What reading contexts back and compiling them needs: they are valid, their numbers are dense, and each can be written in a token. -/
structure Saved (c : Contexts) : Prop where
  valid : c.validate = .ok ()
  dense : c.isDense = true
  small : ∀ i ∈ c.indices, i < Index.bound

/-- The contexts of a source text can be saved. -/
theorem saved_ofSource {s : RuleSet} {names : List Text} {letters : List Char} {source : Text} {c : Contexts}
    (hletters : Source.declare s names = .ok letters) (hsmall : created s letters source ≤ Index.bound)
    (h : ofSource s letters source = .ok c) : c.Saved := by
  have hwrite : ∀ c ∈ ['(', ')', '{', '}'], (fun _ => [] : Char → Text) c = [] := fun _ _ => rfl
  obtain ⟨lines, rfl, hfrozen⟩ := exists_frozen hletters hwrite (fun _ => by simp) hsmall h
  refine ⟨validate_of_frozen hfrozen, ?_, fun i hi => ?_⟩
  · simp [isDense, indices_ofTexts, size_ofTexts]
  · exact Nat.lt_of_lt_of_le (mem_indices_lines.1 hi) hfrozen.small

end Contexts

namespace Formula

variable {rules : RuleSet} {names : List Text} {source : Text} {f : Formula}

/-- Contexts that were saved are loaded as a formula exactly when they are compiled as they are. -/
theorem ofJson_saved {c : Contexts} (h : c.Saved) {letters : List Char} (hletters : Source.declare rules names = .ok letters) :
    ofJson rules names c.toJson = ofParts rules letters c Settings.standard := by
  have hread : Contexts.ofJson c.toJson = .ok c := by
    rw [Contexts.ofJson_written h.small, h.valid]
    rfl
  have hcompact : c.compact = c := if_pos h.dense
  have hcontexts : ofContexts rules names c = ofParts rules letters c Settings.standard := by
    rw [ofContexts, hletters, h.valid, hcompact]
    rfl
  rw [ofJson, hread, ← hcontexts]
  rfl

/-- A source text that compiles is compiled again from its saved contexts, into the same formula. -/
theorem ofJson_of_compile (hf : compile rules names source = .ok f) (hsmall : Contexts.created rules f.letters source ≤ Index.bound) :
    ofJson rules names f.contexts.toJson = .ok f := by
  obtain ⟨_, -, h⟩ := bind_eq_ok.1 hf
  obtain ⟨letters, hletters, h⟩ := bind_eq_ok.1 h
  obtain ⟨contexts, hcontexts, h⟩ := bind_eq_ok.1 h
  obtain ⟨_, dag, -, -, rfl⟩ := ofParts_eq_ok h
  rw [ofJson_saved (Contexts.saved_ofSource (mapError_eq_ok.1 hletters) hsmall hcontexts) (mapError_eq_ok.1 hletters), h]

/-- Saving a compiled source text and loading it gives a formula with the same contexts, the same order of dependencies and the same
answers: the same branches or the same failure of every operation, after any operations on both. -/
theorem run_reloaded (hf : compile rules names source = .ok f) (hsmall : Contexts.created rules f.letters source ≤ Index.bound) :
    ∃ g, ofJson rules names f.contexts.toJson = .ok g ∧ g.contexts = f.contexts ∧ g.order = f.order ∧
      ∀ history op, (Operation.run (Operation.runAll g history) op).1 = (Operation.run (Operation.runAll f history) op).1 :=
  ⟨f, ofJson_of_compile hf hsmall, rfl, rfl, fun _ _ => rfl⟩

theorem exists_product : ∃ f, compile .standard ["x".toList] "(x+x)*x".toList = .ok f ∧ f.letters = ['x'] := by
  have horder : (Contexts.ofTexts ["@/1/@*@/2/@".toList, "@/2/@+@/2/@".toList, "x".toList]).order = .ok [2, 1, 0] := by cbv
  have hbuild : ∃ d, Dag.build .standard ['x'] (.ofTexts ["@/1/@*@/2/@".toList, "@/2/@+@/2/@".toList, "x".toList]) = .ok d :=
    ⟨_, rfl⟩
  obtain ⟨d, hbuild⟩ := hbuild
  exact ⟨_, bind_eq_ok.2 ⟨(), rfl, bind_eq_ok.2 ⟨['x'], mapError_eq_ok.2 Contexts.declare_x,
    bind_eq_ok.2 ⟨_, Contexts.ofSource_product_eq, ofParts_eq horder hbuild _⟩⟩⟩, rfl⟩

/-- A product of sums answers as before once it has been saved and loaded. -/
theorem run_reloaded_product : ∃ f g, compile .standard ["x".toList] "(x+x)*x".toList = .ok f ∧
    ofJson .standard ["x".toList] f.contexts.toJson = .ok g ∧
      ∀ history op, (Operation.run (Operation.runAll g history) op).1 = (Operation.run (Operation.runAll f history) op).1 := by
  obtain ⟨f, hf, hletters⟩ := exists_product
  obtain ⟨g, hg, -, -, hrun⟩ := run_reloaded hf (by rw [hletters]; exact Contexts.created_product)
  exact ⟨f, g, hf, hg, hrun⟩

end Formula

end FormulaDag
