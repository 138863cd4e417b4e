import FormulaDag.Proofs.Evaluation.Overflow
import FormulaDag.Proofs.Formula.Reached

/-!
# Answers that leave the range

Whatever was done with a formula, a call answers with finite numbers, apart from infinities that a finite value of the root at the edge of
the range was normalized to. There are such answers, since values are checked before they are normalized and not after.
-/

namespace FormulaDag

namespace Formula

/-- A formula that is reached, with the precisions that it had so far. -/
inductive ReachedUnder : Formula → List Nat → Prop where
  | compiled {f : Formula} (h : Compiled f) : ReachedUnder f [f.settings.precision]
  | operation {f : Formula} {precisions : List Nat} (hf : ReachedUnder f precisions) (op : Operation) :
      ReachedUnder (op.run f).2 precisions
  | settings {f g : Formula} {precisions : List Nat} {settings : Settings} (hf : ReachedUnder f precisions)
      (h : f.withSettings settings = .ok g) : ReachedUnder g (settings.precision :: precisions)

/-- Every formula that is reached had some precisions. -/
theorem reached_iff {f : Formula} : Reached f ↔ ∃ precisions, ReachedUnder f precisions := by
  constructor
  · intro h
    induction h with
    | compiled h => exact ⟨_, .compiled h⟩
    | operation _ op ih => exact ih.imp fun _ h => h.operation op
    | settings _ h ih => exact ih.elim fun _ hf => ⟨_, hf.settings h⟩
  · rintro ⟨precisions, h⟩
    induction h with
    | compiled h => exact .compiled h
    | operation _ op ih => exact ih.operation op
    | settings _ h ih => exact ih.settings h

/-- What a formula has kept was computed by its nodes, under the precisions that it had. -/
structure Recorded (f : Formula) (precisions : List Nat) : Prop where
  precision : f.settings.precision ∈ precisions
  nodes : ∀ n ∈ f.dag.nodes, Evaluation.IsLocal f.rules n
  complete : f.memo.Complete f.dag Index.root
  computed : f.memo.Computed f.dag f.rules precisions

/-- What the root adds to the memo is recorded under the precision of the formula. -/
theorem Recorded.root {f : Formula} {precisions : List Nat} (hf : Recorded f precisions) (arguments : List (Text × Argument)) :
    Recorded (f.root arguments).2 precisions := by
  rcases f.root_snd_cases arguments with heq | ⟨values, hvalues, heq⟩
  · rwa [heq]
  · rw [heq]
    exact ⟨hf.precision, hf.nodes, Evaluation.complete_evaluate (e := f.evaluation) (.ofValues values) hf.complete,
      Evaluation.computed_evaluate (e := f.evaluation) hf.computed hf.complete hf.nodes hf.precision (Argument.isFinite_of_bind hvalues)⟩

/-- An operation keeps the record. -/
theorem Recorded.run {f : Formula} {precisions : List Nat} (hf : Recorded f precisions) (op : Operation) :
    Recorded (op.run f).2 precisions :=
  Operation.run_invariant (P := fun g => Recorded g precisions) (fun _ arguments hg => hg.root arguments) hf op

/-- What a formula keeps was recorded under one of its precisions. -/
theorem ReachedUnder.recorded {f : Formula} {precisions : List Nat} (hf : ReachedUnder f precisions) : Recorded f precisions := by
  induction hf with
  | compiled h =>
    obtain ⟨hempty, hlocal⟩ := h.fresh
    exact ⟨List.mem_singleton_self _, hlocal, hempty ▸ Memo.complete_empty _ _, hempty ▸ Memo.computed_empty _⟩
  | operation _ op ih => exact ih.run op
  | settings _ h ih =>
    obtain ⟨_, -, h⟩ := bind_eq_ok.1 h
    rw [← Except.ok.inj h]
    exact ⟨List.mem_cons_self, ih.nodes, ih.complete, ih.computed.mono (List.subset_cons_self _ _)⟩

/-- A call answers with numbers that are finite, or that are infinite because the root had a finite value at the edge of the range. That is
a value that the node of the root has for the bound values and for what the call leaves in the memo, and the answer is what it is
normalized to under a precision that the formula had. No answer is what is no number. -/
theorem call_finite_or_overflowed {f g : Formula} {precisions : List Nat} (hf : ReachedUnder f precisions)
    {arguments : List (Text × Argument)} {places : Nat} {answer : Branches} (h : f.call arguments places = (.ok answer, g)) :
    ∃ bound, Argument.bind arguments f.letters = .ok bound ∧ ∀ x ∈ answer, x.isFinite = true ∨ x.isNaN = false ∧
      ∃ n raw, ∃ precision ∈ precisions, ∃ v ∈ raw, f.dag.node? Index.root = some n ∧
        Evaluation.rawBranches f.rules bound Index.root n (fun j => g.memo.get? j (Key.ofValues bound)) = .ok raw ∧
        v.isFinite = true ∧ (Binary.ofFloat v).NearEdge ∧ x = Branches.normalize precision v := by
  have hrecorded := hf.recorded.root arguments
  rw [Formula.call] at h
  split at h
  · cases h
  · rename_i a result g' hroot
    obtain ⟨hanswer, rfl⟩ := Prod.mk.inj h
    obtain ⟨bound, hbound, rfl, hsame, hget, -⟩ := root_eq_ok hroot
    rw [hroot] at hrecorded
    have hdag : g'.dag = f.dag := by rw [hsame]
    have hrules : g'.rules = f.rules := by rw [hsame]
    obtain ⟨n, precision, hp, values, hn, hvalues, hkey, hresult⟩ := hrecorded.computed _ _ _ hget
    rw [hdag] at hn
    rw [hrules] at hresult
    obtain rfl : values = bound := Key.eq_of_ofValues hvalues (Argument.isFinite_of_bind hbound) hkey
    refine ⟨values, hbound, fun x hx => ?_⟩
    rw [← Except.ok.inj hanswer] at hx
    obtain ⟨y, hy, rfl⟩ := List.mem_map.1 hx
    cases hfinite : y.isFinite with
    | true => exact .inl (Branches.isFinite_toPlaces hfinite places)
    | false =>
      rw [Branches.toPlaces_of_not_finite hfinite]
      obtain ⟨hnumber, raw, v, hv, hraw, hvfinite, hedge, hnormal⟩ := Evaluation.overflowed_of_nodeBranches hvalues hresult hy hfinite
      exact .inr ⟨hnumber, n, raw, precision, hp, v, hv, hn, hraw, hvfinite, hedge, hnormal⟩

/-- A variable answers with its value. -/
theorem call_finite_or_overflowed_identity : ∃ f g answer, ReachedUnder f [15] ∧
    f.call [("x".toList, .number 1.5)] 5 = (.ok answer, g) ∧
    ∃ bound, Argument.bind [("x".toList, .number 1.5)] f.letters = .ok bound ∧ ∀ x ∈ answer, x.isFinite = true ∨ x.isNaN = false ∧
      ∃ n raw, ∃ precision ∈ [15], ∃ v ∈ raw, f.dag.node? Index.root = some n ∧
        Evaluation.rawBranches f.rules bound Index.root n (fun j => g.memo.get? j (Key.ofValues bound)) = .ok raw ∧
        v.isFinite = true ∧ (Binary.ofFloat v).NearEdge ∧ x = Branches.normalize precision v := by
  have hf : ReachedUnder (identity .standard) [15] := .compiled (.source (compileWith_identity rfl))
  obtain ⟨answer, hanswer⟩ : ∃ answer, ((identity .standard).call [("x".toList, .number 1.5)] 5).1 = .ok answer :=
    ⟨_, call_identity .standard (by decide +kernel) 5⟩
  have hcall : (identity .standard).call [("x".toList, .number 1.5)] 5 = (.ok answer, _) := Prod.ext hanswer rfl
  exact ⟨_, _, _, hf, hcall, call_finite_or_overflowed hf hcall⟩

/-- The greatest double is rounded up to fifteen digits, which is beyond the range: a variable with this value answers with infinity. -/
theorem exists_infinite : ∃ f, compile .standard ["x".toList] "x".toList = .ok f ∧
    (f.call [("x".toList, .number 1.7976931348623157e308)] 5).1 = .ok [1.0 / 0.0] ∧ Float.isFinite (1.0 / 0.0) = false :=
  ⟨_, compileWith_identity rfl, (call_identity .standard (by decide +kernel) 5).trans (by decide +kernel), by decide +kernel⟩

end Formula

end FormulaDag
