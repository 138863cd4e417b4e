import FormulaDag.Proofs.Combination

/-!
# The calls of a fold over combinations

A fold calls its callback with the combinations in lexicographic order, each once, and ends with the first call that fails. A callback that
writes down what it is called with shows that: its notes are those of a run of the callback itself, since writing changes nothing else.
-/

namespace FormulaDag.Combination

variable {σ ε : Type} {lengths : List Nat}

/-- A callback that also writes down the combinations it is called with, the one on which it fails included. -/
def recording (visit : σ → List Nat → Except ε σ) (noted : σ × List (List Nat)) (cursor : List Nat) :
    Except (ε × List (List Nat)) (σ × List (List Nat)) :=
  match visit noted.1 cursor with
  | .error fault => .error (fault, noted.2 ++ [cursor])
  | .ok reached => .ok (reached, noted.2 ++ [cursor])

/-- The combinations that a fold calls its callback with, in the order of the calls. -/
def calls (lengths : List Nat) (visit : σ → List Nat → Except ε σ) (state : σ) : List (List Nat) :=
  match fold lengths (recording visit) (state, []) with
  | .error (_, noted) => noted
  | .ok (_, noted) => noted

/-! ### The order of the combinations -/

theorem mem_all_iff {cursor : List Nat} : cursor ∈ all lengths ↔ Below lengths cursor := by
  induction lengths generalizing cursor with
  | nil => simp [all, Below]
  | cons length lengths ih =>
    simp only [all, List.mem_flatMap, List.mem_range, List.mem_map, ih]
    constructor
    · rintro ⟨i, hi, later, hlater, rfl⟩
      exact .cons hi hlater
    · rintro (_ | ⟨hi, hlater⟩)
      exact ⟨_, hi, _, hlater, rfl⟩

/-- Every combination stands behind those that are smaller at the first position where they differ. -/
theorem pairwise_all (lengths : List Nat) : (all lengths).Pairwise (List.Lex (· < ·)) := by
  induction lengths with
  | nil => simp [all]
  | cons length lengths ih =>
    rw [all, List.pairwise_flatMap]
    constructor
    · intro i _
      rw [List.pairwise_map]
      exact ih.imp fun h => .cons h
    · refine List.pairwise_lt_range.imp ?_
      intro i j hij v hv w hw
      obtain ⟨v, -, rfl⟩ := List.mem_map.1 hv
      obtain ⟨w, -, rfl⟩ := List.mem_map.1 hw
      exact .rel hij

theorem nodup_all (lengths : List Nat) : (all lengths).Nodup := by
  refine (pairwise_all lengths).imp ?_
  rintro v w h rfl
  exact List.lt_irrefl v h

/-! ### The calls -/

/-- Along a list, a callback that takes notes succeeds and fails as it does without them. It notes everything when nothing fails, and
otherwise what it is called with up to its first failure. -/
theorem foldlM_recording (visit : σ → List Nat → Except ε σ) (l : List (List Nat)) (state : σ) (noted : List (List Nat)) :
    match l.foldlM (recording visit) (state, noted) with
    | .ok (reached, calls) => l.foldlM visit state = .ok reached ∧ calls = noted ++ l
    | .error (fault, calls) => l.foldlM visit state = .error fault ∧ ∃ before cursor after between, l = before ++ cursor :: after ∧
        calls = noted ++ (before ++ [cursor]) ∧ before.foldlM visit state = .ok between ∧ visit between cursor = .error fault := by
  induction l generalizing state noted with
  | nil => exact ⟨rfl, (List.append_nil noted).symm⟩
  | cons cursor l ih =>
    simp only [List.foldlM_cons, recording]
    cases hvisit : visit state cursor with
    | error fault => exact ⟨rfl, [], cursor, l, state, rfl, rfl, rfl, hvisit⟩
    | ok reached =>
      have hlater := ih reached (noted ++ [cursor])
      simp only [bind, Except.bind]
      split at hlater
      · exact ⟨hlater.1, by rw [hlater.2, List.append_assoc]; rfl⟩
      · obtain ⟨hfault, before, failing, after, between, hl, hcalls, hbefore, hfailing⟩ := hlater
        refine ⟨hfault, cursor :: before, failing, after, between, by rw [hl]; rfl, by rw [hcalls]; simp, ?_, hfailing⟩
        rw [List.foldlM_cons, hvisit]
        exact hbefore

/-- A fold succeeds and has called its callback with all combinations, or it fails with the fault of its last call. -/
theorem fold_cases (lengths : List Nat) (visit : σ → List Nat → Except ε σ) (state : σ) :
    (∃ reached, fold lengths visit state = .ok reached ∧ calls lengths visit state = all lengths ∧
      (all lengths).foldlM visit state = .ok reached) ∨
    ∃ fault before cursor after between, fold lengths visit state = .error fault ∧ all lengths = before ++ cursor :: after ∧
      calls lengths visit state = before ++ [cursor] ∧ before.foldlM visit state = .ok between ∧ visit between cursor = .error fault := by
  have hrecording := foldlM_recording visit (all lengths) state []
  rw [← fold_eq_foldlM] at hrecording
  rw [calls, fold_eq_foldlM lengths visit]
  cases hrun : fold lengths (recording visit) (state, []) with
  | ok last =>
    obtain ⟨reached, noted⟩ := last
    rw [hrun] at hrecording
    exact .inl ⟨reached, hrecording.1, hrecording.2, hrecording.1⟩
  | error last =>
    obtain ⟨fault, noted⟩ := last
    rw [hrun] at hrecording
    obtain ⟨hfault, before, cursor, after, between, hall, hnoted, hbefore, hfails⟩ := hrecording
    exact .inr ⟨fault, before, cursor, after, between, hfault, hall, hnoted, hbefore, hfails⟩

/-- The callback of a fold is called with every vector of positions below the lengths, in lexicographic order and with each once, up to the
first one on which it fails; then its fault is the outcome. Without lists there is one call, and with an empty list there is none. The
odometer comes to its end by itself: a higher bound on its turns changes nothing. -/
theorem fold_calls (lengths : List Nat) (visit : σ → List Nat → Except ε σ) (state : σ) :
    ((all lengths).Pairwise (List.Lex (· < ·)) ∧ (all lengths).Nodup ∧ ∀ cursor, cursor ∈ all lengths ↔ Below lengths cursor) ∧
      (match fold lengths visit state with
        | .ok reached => calls lengths visit state = all lengths ∧ (all lengths).foldlM visit state = .ok reached
        | .error fault => ∃ before cursor after between, all lengths = before ++ cursor :: after ∧
            calls lengths visit state = before ++ [cursor] ∧ before.foldlM visit state = .ok between ∧
            visit between cursor = .error fault) ∧
      (lengths = [] → calls lengths visit state = [[]]) ∧ (0 ∈ lengths → calls lengths visit state = []) ∧
      ((∀ length ∈ lengths, 0 < length) → ∀ turns, count lengths ≤ turns →
        foldFrom lengths visit turns (lengths.map fun _ => 0) state = fold lengths visit state) := by
  refine ⟨⟨pairwise_all lengths, nodup_all lengths, fun _ => mem_all_iff⟩, ?_, ?_, ?_, ?_⟩
  · rcases fold_cases lengths visit state with ⟨reached, hfold, hrest⟩ | ⟨fault, before, cursor, after, between, hfold, hrest⟩
    · rw [hfold]
      exact hrest
    · rw [hfold]
      exact ⟨before, cursor, after, between, hrest⟩
  · rintro rfl
    rcases fold_cases [] visit state with ⟨_, -, hcalls, -⟩ | ⟨_, before, cursor, after, _, -, hall, hcalls, -⟩
    · exact hcalls
    · obtain ⟨rfl, hcursor⟩ | ⟨_, -, hafter⟩ := List.append_eq_cons_iff.1 hall.symm
      · rw [hcalls, (List.cons.inj hcursor).1, List.nil_append]
      · simp at hafter
  · intro hzero
    have hnone := all_of_mem_zero hzero
    rcases fold_cases lengths visit state with ⟨_, -, hcalls, -⟩ | ⟨_, before, cursor, after, _, -, hall, -⟩
    · rw [hcalls, hnone]
    · rw [hnone] at hall
      simp at hall
  · intro hpos turns hturns
    rw [fold_eq_foldlM, foldFrom_eq_foldlM (below_start hpos) (by rwa [onward_start hpos, length_all]), onward_start hpos]

/-- A callback that counts its calls and fails on the first one whose positions begin with one. -/
def stopAtOne (state : Nat) (cursor : List Nat) : Except Nat Nat := if cursor.head? = some 1 then .error state else .ok (state + 1)

/-- Three of four combinations are visited when the callback fails on the third, and none when the second list is empty. -/
theorem fold_calls_stopped : fold [2, 2] stopAtOne 0 = .error 2 ∧ calls [2, 2] stopAtOne 0 = [[0, 0], [0, 1], [1, 0]] ∧
    0 ∈ [2, 0] ∧ calls [2, 0] stopAtOne 0 = [] ∧ foldFrom [2, 2] stopAtOne 7 [0, 0] 0 = .error 2 := by
  have hfold : fold [2, 2] stopAtOne 0 = .error 2 := by rfl
  obtain ⟨-, -, -, hempty, -⟩ := fold_calls [2, 0] stopAtOne 0
  obtain ⟨-, -, -, -, hturns⟩ := fold_calls [2, 2] stopAtOne 0
  exact ⟨hfold, rfl, by decide, hempty (by decide), (hturns (by decide) 7 (by decide)).trans hfold⟩

end FormulaDag.Combination
