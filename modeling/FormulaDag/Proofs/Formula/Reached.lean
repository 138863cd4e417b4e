import FormulaDag.Proofs.Evaluation.Completeness
import FormulaDag.Proofs.Formula.Reconfiguration

/-!
# Formulas that are reached

A formula is compiled, then used and put under other settings in any order. What this preserves is proved for compiled formulas, for
evaluations of the root and for changes of the settings. What is kept is complete at any time.
-/

namespace FormulaDag

namespace Formula

/-- A formula that was compiled, and any formula after an operation or under other settings. -/
inductive Reached : Formula → Prop where
  | compiled {f : Formula} (h : Compiled f) : Reached f
  | operation {f : Formula} (hf : Reached f) (op : Operation) : Reached (op.run f).2
  | settings {f g : Formula} {settings : Settings} (hf : Reached f) (h : f.withSettings settings = .ok g) : Reached g

/-- Evaluating the root changes the memo only, and only when the variables are bound. -/
theorem root_snd_cases (f : Formula) (arguments : List (Text × Argument)) : (f.root arguments).2 = f ∨
    ∃ values, Argument.bind arguments f.letters = .ok values ∧
      (f.root arguments).2 = { f with memo := (f.evaluation.evaluate (.ofValues values) Index.root f.memo).2 } := by
  rw [Formula.root]
  split
  · exact .inl rfl
  · rename_i values hvalues
    split
    · rename_i heq
      exact .inr ⟨values, hvalues, by rw [heq]⟩
    · rename_i heq
      exact .inr ⟨values, hvalues, by rw [heq]⟩

/-- What holds of compiled formulas and is preserved by an evaluation for finite values and by a change of the settings holds of every
formula that is reached. -/
theorem Reached.invariant {P : Formula → Prop} (hcompiled : ∀ {f : Formula}, Compiled f → P f)
    (hevaluate : ∀ {f : Formula} {values : List Float}, (∀ x ∈ values, x.isFinite = true) → P f →
      P { f with memo := (f.evaluation.evaluate (.ofValues values) Index.root f.memo).2 })
    (hsettings : ∀ {f : Formula} {settings : Settings}, settings.validate = .ok () → P f → P { f with settings := settings })
    {f : Formula} (hf : Reached f) : P f := by
  induction hf with
  | compiled h => exact hcompiled h
  | operation _ op ih =>
    refine Operation.run_invariant (fun g arguments hg => ?_) ih op
    rcases g.root_snd_cases arguments with heq | ⟨values, hvalues, heq⟩
    · rwa [heq]
    · rw [heq]
      exact hevaluate (Argument.isFinite_of_bind hvalues) hg
  | settings _ h ih =>
    obtain ⟨_, hvalid, h⟩ := bind_eq_ok.1 h
    rw [← Except.ok.inj h]
    exact hsettings (mapError_eq_ok.1 hvalid) ih

section
variable {f g : Formula} {arguments : List (Text × Argument)}

/-- A call leaves the state that its root leaves. -/
theorem call_snd (f : Formula) (arguments : List (Text × Argument)) (places : Nat) :
    (f.call arguments places).2 = (f.root arguments).2 := by
  rw [call]
  split
  · rename_i heq
    rw [heq]
  · rename_i heq
    rw [heq]

/-- An outline leaves the state that its root leaves. -/
theorem outline_snd (f : Formula) (arguments : List (Text × Argument)) : (f.outline arguments).2 = (f.root arguments).2 := by
  rw [outline]
  split
  · rename_i heq
    rw [heq]
  · rename_i heq
    rw [heq]

theorem root_snd (f : Formula) (arguments : List (Text × Argument)) :
    (f.root arguments).2 = { f with memo := (f.root arguments).2.memo } := (f.touched_root arguments).same

/-- What a formula that is reached has kept is complete. -/
theorem Reached.complete (hf : Reached f) : f.memo.Complete f.dag Index.root := by
  refine hf.invariant (P := fun f => f.memo.Complete f.dag Index.root) (fun h => ?_)
    (fun {f values} _ hf => Evaluation.complete_evaluate (e := f.evaluation) (.ofValues values) hf) fun _ hf => hf
  rw [h.fresh.1]
  exact Memo.complete_empty _ _

/-- A complete memo stays complete when the root is asked for. -/
theorem complete_root (hf : f.memo.Complete f.dag Index.root) (arguments : List (Text × Argument)) :
    (f.root arguments).2.memo.Complete (f.root arguments).2.dag Index.root := by
  rcases f.root_snd_cases arguments with heq | ⟨values, -, heq⟩
  · rwa [heq]
  · rw [heq]
    exact Evaluation.complete_evaluate (e := f.evaluation) (.ofValues values) hf

/-- An evaluation of the root that succeeds keeps a result of it, and nothing changes for other keys. -/
theorem root_eq_ok {a : Evaluation.Valuation} {result : Branches} (h : f.root arguments = (.ok (a, result), g)) :
    ∃ values, Argument.bind arguments f.letters = .ok values ∧ a = .ofValues values ∧ g = { f with memo := g.memo } ∧
      g.memo.get? Index.root a.key = some result ∧ ∀ key, key ≠ a.key → ∀ i, g.memo.get? i key = f.memo.get? i key := by
  have hsame := f.root_snd arguments
  have hkept := (f.touched_root arguments).kept
  rw [h] at hsame hkept
  rw [root] at h
  split at h
  · cases h
  · rename_i values hvalues
    split at h
    · cases h
    · rename_i found m heval
      obtain ⟨⟨rfl, rfl⟩, rfl⟩ := by simpa using h
      refine ⟨values, hvalues, rfl, hsame, Evaluation.get?_of_evaluate_eq_ok heval, fun key hkey => hkept key ?_⟩
      rintro values' hvalues' rfl
      exact hkey (by rw [Except.ok.inj (hvalues.symm.trans hvalues')]; rfl)

end

end Formula

end FormulaDag
