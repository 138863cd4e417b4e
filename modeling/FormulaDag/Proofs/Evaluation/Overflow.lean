import FormulaDag.Proofs.Combination
import FormulaDag.Proofs.Decimal.Range
import FormulaDag.Proofs.Evaluation.Completeness
import FormulaDag.Settings

/-!
# Values that leave the range

Every value is finite when it is computed: variables are bound to finite numbers only, and the value of a rule or of a sum that is not
finite is a failure. It is normalized after that. This is where a value can leave the range, and only one at its edge does.
-/

namespace FormulaDag

open Doubles

namespace Branches

/-- A value before the edge of the range stays in it in every precision. -/
theorem isFinite_normalize {x : Float} (hx : x.isFinite = true) (hedge : ¬ (Binary.ofFloat x).NearEdge) (precision : Nat) :
    (normalize precision x).isFinite = true := by
  rw [normalize, if_pos hx]
  split
  · decide
  · exact Binary.isFinite_toSignificant hedge precision

/-- A finite double is not normalized to what is no number. -/
theorem not_isNaN_normalize {x : Float} (hx : x.isFinite = true) (precision : Nat) : (normalize precision x).isNaN = false := by
  rw [normalize, if_pos hx]
  split
  · decide
  · exact Decimal.not_isNaN_toFloat _

/-- Rounding to places keeps finite values finite and others as they are. -/
theorem isFinite_toPlaces {x : Float} (hx : x.isFinite = true) (places : Nat) : (toPlaces places x).isFinite = true := by
  rw [toPlaces, if_pos hx]
  split
  · decide
  · exact Binary.isFinite_toPlaces hx places

/-- What is not finite is left as it is by rounding. -/
theorem toPlaces_of_not_finite {x : Float} (hx : x.isFinite = false) (places : Nat) : toPlaces places x = x := by
  rw [toPlaces, hx]
  exact if_neg (by simp [beq_zero_of_not_finite hx])

theorem eraseReps_loop (x : Float) (l found : Branches) :
    List.eraseRepsBy.loop (· == ·) x l found = found.reverse ++ (x :: l).eraseReps := by
  have happend : ∀ (l : Branches) (x : Float) (found more : Branches), List.eraseRepsBy.loop (· == ·) x l (found ++ more) =
      more.reverse ++ List.eraseRepsBy.loop (· == ·) x l found := by
    intro l
    induction l with
    | nil =>
      intro x found more
      simp [List.eraseRepsBy.loop]
    | cons y l ih =>
      intro x found more
      rw [List.eraseRepsBy.loop, List.eraseRepsBy.loop]
      split
      · exact ih x found more
      · exact ih y (x :: found) more
  exact happend l x [] found

/-- Of two equal neighbours the first is dropped. -/
theorem eraseReps_cons_cons (x y : Float) (l : Branches) :
    (x :: y :: l).eraseReps = if x == y then (x :: l).eraseReps else x :: (y :: l).eraseReps := by
  have hstep : (x :: y :: l).eraseReps =
      if x == y then List.eraseRepsBy.loop (· == ·) x l [] else List.eraseRepsBy.loop (· == ·) y l [x] := by
    rw [List.eraseReps, List.eraseRepsBy, List.eraseRepsBy.loop]
    cases x == y <;> rfl
  rw [hstep, eraseReps_loop, eraseReps_loop]
  rfl

/-- Dropping repetitions adds nothing. -/
theorem mem_of_mem_eraseReps {values : Branches} {x : Float} (h : x ∈ values.eraseReps) : x ∈ values := by
  cases values with
  | nil => exact h
  | cons y l =>
    induction l generalizing y with
    | nil => exact h
    | cons z l ih =>
      rw [eraseReps_cons_cons] at h
      split at h
      · exact (List.mem_cons.1 (ih y h)).elim (fun heq => heq ▸ List.mem_cons_self) fun hl =>
          List.mem_cons_of_mem _ (List.mem_cons_of_mem _ hl)
      · exact (List.mem_cons.1 h).elim (fun heq => heq ▸ List.mem_cons_self) fun hl => List.mem_cons_of_mem _ (ih z hl)

/-- What a normal form holds is the normal form of a value. -/
theorem exists_of_mem_normalForm {precision : Nat} {values : Branches} {x : Float} (hx : x ∈ normalForm precision values) :
    ∃ v ∈ values, x = normalize precision v := by
  have hsorted : x ∈ (values.map (normalize precision)).mergeSort ranksBelow := by
    rw [normalForm] at hx
    exact mem_of_mem_eraseReps hx
  obtain ⟨v, hv, rfl⟩ := List.mem_map.1 (List.mem_mergeSort.1 hsorted)
  exact ⟨v, hv, rfl⟩

end Branches

namespace Evaluation

/-- What a rule is applied to successfully has a finite value. -/
theorem isFinite_applyRule {r : Rule} {selector : Option String} {values : List (Option Float)} {x : Float}
    (h : applyRule r selector values = .ok x) : x.isFinite = true := by
  rw [applyRule] at h
  split at h
  · cases h
  · split at h
    · rename_i hfinite
      exact Except.ok.inj h ▸ hfinite
    · cases h

/-- A leaf combines numbers to a finite value. -/
theorem isFinite_combine {i : Nat} {context : Text} {lexemes : List Lexeme} {combination : List Choice} {x : Float}
    (h : Leaf.combine i context lexemes combination = .ok x) : x.isFinite = true := by
  rw [Leaf.combine] at h
  split at h
  · cases h
  · cases h
  · split at h
    · rename_i hfinite
      exact Except.ok.inj h ▸ hfinite
    · cases h

theorem isFinite_of_mapChoices {α : Type} {choices : List (List α)} {f : List α → Except EvaluationFault Float}
    (hf : ∀ c x, f c = .ok x → x.isFinite = true) {values : Branches} (h : Combination.mapChoices choices f = .ok values) :
    ∀ x ∈ values, x.isFinite = true := by
  intro x hx
  rw [Combination.mapChoices_eq_mapM] at h
  obtain ⟨c, -, hc⟩ := exists_of_mem_mapM h hx
  exact hf c x hc

/-- The values of a node are finite before they are normalized. -/
theorem isFinite_rawBranches {s : RuleSet} {values : List Float} (hvalues : ∀ x ∈ values, x.isFinite = true) {i : Nat} {n : Node}
    {lookup : Nat → Option Branches} {result : Branches} (h : rawBranches s values i n lookup = .ok result) :
    ∀ x ∈ result, x.isFinite = true := by
  rw [rawBranches] at h
  split at h
  · split at h
    · rename_i x hx
      rw [← Except.ok.inj h]
      simpa using hvalues x (List.mem_of_getElem? hx)
    · cases h
  · rw [ruleBranches] at h
    split at h
    · cases h
    · split at h
      · cases h
      · exact isFinite_of_mapChoices (fun _ _ => isFinite_applyRule) h
  · rw [Leaf.branches] at h
    split at h
    · cases h
    · split at h
      · cases h
      · exact isFinite_of_mapChoices (fun _ _ => isFinite_combine) h

/-- A result of a node that is not finite is an infinity, and it is the normal form of a finite value of the node at the edge of the
range. -/
theorem overflowed_of_nodeBranches {s : RuleSet} {precision : Nat} {values : List Float} (hvalues : ∀ x ∈ values, x.isFinite = true)
    {i : Nat} {n : Node} {lookup : Nat → Option Branches} {result : Branches} (h : nodeBranches s precision values i n lookup = .ok result)
    {x : Float} (hx : x ∈ result) (hinfinite : x.isFinite = false) : x.isNaN = false ∧ ∃ raw, ∃ v ∈ raw,
      rawBranches s values i n lookup = .ok raw ∧ v.isFinite = true ∧ (Binary.ofFloat v).NearEdge ∧ x = Branches.normalize precision v := by
  obtain ⟨raw, hraw, rfl⟩ := map_eq_ok.1 h
  obtain ⟨v, hv, rfl⟩ := Branches.exists_of_mem_normalForm hx
  have hfinite := isFinite_rawBranches hvalues hraw v hv
  refine ⟨Branches.not_isNaN_normalize hfinite precision, raw, v, hv, hraw, hfinite, ?_, rfl⟩
  by_contra hedge
  rw [Branches.isFinite_normalize hfinite hedge] at hinfinite
  cases hinfinite

end Evaluation

end FormulaDag
