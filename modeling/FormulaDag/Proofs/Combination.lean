import FormulaDag.Combination
import FormulaDag.Proofs.Results

/-!
# The odometer visits the product

Turning from one combination to the next visits every element of the Cartesian product once, in lexicographic order. So a fold over
combinations is a fold over the list of all of them, and a map over choices is a map over their product, up to the first failure.
-/

namespace FormulaDag.Combination

/-- Every choice of one element from each list. The choice from the last list changes fastest. -/
def product {α : Type} : List (List α) → List (List α)
  | [] => [[]]
  | list :: lists => list.flatMap fun x => (product lists).map (x :: ·)

/-- A combination has an element for each list. -/
theorem length_of_mem_product {α : Type} {lists : List (List α)} {combination : List α} (h : combination ∈ product lists) :
    combination.length = lists.length := by
  induction lists generalizing combination with
  | nil => simpa [product] using h
  | cons list lists ih =>
    rw [product] at h
    obtain ⟨x, -, h⟩ := List.mem_flatMap.1 h
    obtain ⟨rest, hrest, rfl⟩ := List.mem_map.1 h
    rw [List.length_cons, List.length_cons, ih hrest]

/-- A vector of positions below the given lengths. -/
def Below (lengths cursor : List Nat) : Prop := List.Forall₂ (fun length i => i < length) lengths cursor

/-- The combinations from a given one on. -/
def onward : List Nat → List Nat → List (List Nat)
  | length :: lengths, i :: cursor =>
    (onward lengths cursor).map (i :: ·) ++ (List.range' (i + 1) (length - (i + 1))).flatMap fun k => (all lengths).map (k :: ·)
  | _, _ => [[]]

/-- When all lists have elements, the first cursor is all zeros. -/
theorem below_start {lengths : List Nat} (h : ∀ length ∈ lengths, 0 < length) : Below lengths (lengths.map fun _ => 0) := by
  induction lengths with
  | nil => exact .nil
  | cons length lengths ih => exact .cons (h length (by simp)) (ih fun n hn => h n (List.mem_cons_of_mem _ hn))

/-- Where there is a cursor, every list has elements. -/
theorem Below.pos {lengths cursor : List Nat} (h : Below lengths cursor) : ∀ length ∈ lengths, 0 < length := by
  induction h with
  | nil => simp
  | cons hi _ ih => exact List.forall_mem_cons.2 ⟨Nat.zero_lt_of_lt hi, ih⟩

/-- Setting a cursor back gives the first one. -/
theorem Below.map_zero {lengths cursor : List Nat} (h : Below lengths cursor) :
    (cursor.map fun _ => 0) = lengths.map fun _ => 0 := by
  rw [List.map_const', List.map_const', h.length_eq]

theorem range_eq_cons {n : Nat} (h : 0 < n) : List.range n = 0 :: List.range' 1 (n - 1) := by
  obtain ⟨n, rfl⟩ := Nat.exists_eq_succ_of_ne_zero (Nat.ne_of_gt h)
  rw [List.range_eq_range', List.range'_succ, Nat.zero_add, Nat.succ_sub_one]

/-- From the start on there are all combinations. -/
theorem onward_start {lengths : List Nat} (h : ∀ length ∈ lengths, 0 < length) :
    onward lengths (lengths.map fun _ => 0) = all lengths := by
  induction lengths with
  | nil => rfl
  | cons length lengths ih =>
    rw [List.map_cons, onward, ih fun n hn => h n (List.mem_cons_of_mem _ hn), all, range_eq_cons (h length (by simp)),
      List.flatMap_cons]

/-- From the last cursor on there is that one only. -/
theorem onward_of_next?_eq_none {lengths cursor : List Nat} (h : Below lengths cursor) (hnext : next? lengths cursor = none) :
    onward lengths cursor = [cursor] := by
  induction h with
  | nil => rfl
  | @cons length i lengths cursor hi _ ih =>
    rw [next?] at hnext
    split at hnext
    · simp at hnext
    · rename_i hlater
      split at hnext
      · simp at hnext
      · rw [onward, ih hlater, show length - (i + 1) = 0 by omega]
        rfl

/-- Turning once drops the combination that was turned from. -/
theorem onward_of_next?_eq_some {lengths cursor turned : List Nat} (h : Below lengths cursor)
    (hnext : next? lengths cursor = some turned) :
    Below lengths turned ∧ onward lengths cursor = cursor :: onward lengths turned := by
  induction h generalizing turned with
  | nil => simp [next?] at hnext
  | @cons length i lengths cursor hi hbelow ih =>
    rw [next?] at hnext
    split at hnext
    · rename_i later hlater
      obtain ⟨hlaterBelow, heq⟩ := ih hlater
      rw [← Option.some.inj hnext]
      exact ⟨.cons hi hlaterBelow, by rw [onward, heq, List.map_cons, List.cons_append, onward]⟩
    · rename_i hlater
      split at hnext
      · rename_i hgrow
        rw [← Option.some.inj hnext, Below.map_zero hbelow]
        refine ⟨.cons hgrow (below_start (Below.pos hbelow)), ?_⟩
        rw [onward, onward_of_next?_eq_none hbelow hlater, onward, onward_start (Below.pos hbelow),
          show length - (i + 1) = length - (i + 1 + 1) + 1 by omega, List.range'_succ, List.flatMap_cons]
        rfl
      · simp at hnext

/-- From a cursor on there is at least that one. -/
theorem length_onward_pos {lengths cursor : List Nat} (h : Below lengths cursor) : 0 < (onward lengths cursor).length := by
  induction h with
  | nil => simp [onward]
  | cons _ _ ih =>
    rw [onward, List.length_append, List.length_map]
    omega

/-- There are as many combinations as the product of the lengths. -/
theorem length_all (lengths : List Nat) : (all lengths).length = count lengths := by
  induction lengths with
  | nil => rfl
  | cons length lengths ih => simp [all, count, List.length_flatMap, ih]

/-- With an empty list there is no combination. -/
theorem all_of_mem_zero {lengths : List Nat} (h : 0 ∈ lengths) : all lengths = [] := by
  rw [← List.length_eq_zero_iff, length_all, count, ← List.prod_eq_foldr, List.prod_eq_zero_iff]
  exact h

section
variable {σ ε α β : Type}

/-- Visiting from a combination on is a fold over those that are left. -/
theorem foldFrom_eq_foldlM {lengths cursor : List Nat} {visit : σ → List Nat → Except ε σ} {turns : Nat} (h : Below lengths cursor)
    (hturns : (onward lengths cursor).length ≤ turns) (state : σ) :
    foldFrom lengths visit turns cursor state = (onward lengths cursor).foldlM visit state := by
  induction turns generalizing cursor state with
  | zero =>
    have := length_onward_pos h
    omega
  | succ turns ih =>
    rw [foldFrom]
    cases hnext : next? lengths cursor with
    | none =>
      rw [onward_of_next?_eq_none h hnext, List.foldlM_cons]
      cases visit state cursor <;> rfl
    | some turned =>
      obtain ⟨hbelow, heq⟩ := onward_of_next?_eq_some h hnext
      rw [heq, List.length_cons] at hturns
      rw [heq, List.foldlM_cons]
      cases visit state cursor with
      | error fault => rfl
      | ok reached => exact ih hbelow (by omega) reached

/-- The odometer visits all combinations in order. -/
theorem fold_eq_foldlM (lengths : List Nat) (visit : σ → List Nat → Except ε σ) (state : σ) :
    fold lengths visit state = (all lengths).foldlM visit state := by
  by_cases h : 0 ∈ lengths
  · have hall := all_of_mem_zero h
    rw [fold, ← length_all, hall]
    rfl
  · have hpos : ∀ length ∈ lengths, 0 < length := fun length hmem => Nat.pos_of_ne_zero fun hzero => h (hzero ▸ hmem)
    rw [fold, foldFrom_eq_foldlM (below_start hpos) (by rw [onward_start hpos, length_all]), onward_start hpos]

/-- A cursor picks the element of the first list and goes on with the others. -/
theorem pick_cons (list : List α) (lists : List (List α)) {i : Nat} (h : i < list.length) (cursor : List Nat) :
    pick (list :: lists) (i :: cursor) = list[i] :: pick lists cursor := by
  rw [pick, List.zip_cons_cons, List.filterMap_cons]
  simp only [List.getElem?_eq_getElem h]
  rfl

theorem flatMap_getElem?_range (list : List α) : (List.range list.length).flatMap (fun i => list[i]?.toList) = list := by
  induction list with
  | nil => rfl
  | cons x list ih => simpa [List.range_succ_eq_map, List.flatMap_map] using ih

/-- The elements that all vectors of positions pick make up the product. -/
theorem map_pick_all (choices : List (List α)) : (all (choices.map List.length)).map (pick choices) = product choices := by
  induction choices with
  | nil => rfl
  | cons list lists ih =>
    have hpick : ∀ i ∈ List.range list.length, ((all (lists.map List.length)).map (i :: ·)).map (pick (list :: lists)) =
        (list[i]?.toList).flatMap fun x => (product lists).map (x :: ·) := by
      intro i hi
      have hlt := List.mem_range.1 hi
      simp only [List.getElem?_eq_getElem hlt, Option.toList_some, List.flatMap_singleton, ← ih, List.map_map]
      exact List.map_congr_left fun cursor _ => pick_cons list lists hlt cursor
    rw [List.map_cons, all, List.map_flatMap, List.flatMap_congr hpick, ← List.flatMap_assoc, flatMap_getElem?_range, product]

/-- Collecting values in reverse and turning the collection round is a map. -/
theorem foldlM_collect (f : α → Except ε β) (l : List α) (found : List β) :
    (l.foldlM (fun found x => (f x).map (· :: found)) found).map List.reverse = (l.mapM f).map (found.reverse ++ ·) := by
  induction l generalizing found with
  | nil =>
    rw [List.mapM_nil, List.foldlM_nil]
    simp [pure, Except.pure, Except.map]
  | cons x l ih =>
    rw [List.foldlM_cons, List.mapM_cons]
    cases f x with
    | error fault => rfl
    | ok y =>
      refine (ih (y :: found)).trans ?_
      cases l.mapM f with
      | error fault => rfl
      | ok ys => simp [Except.map, bind, Except.bind, pure, Except.pure]

/-- A map over choices is a map over their product. -/
theorem mapChoices_eq_mapM (choices : List (List α)) (f : List α → Except ε β) :
    mapChoices choices f = (product choices).mapM f := by
  have hcompose : ∀ (l : List (List Nat)) (found : List β),
      l.foldlM (fun found cursor => (f (pick choices cursor)).map (· :: found)) found =
        (l.map (pick choices)).foldlM (fun found x => (f x).map (· :: found)) found := by
    intro l found
    rw [List.foldlM_map]
  rw [mapChoices, fold_eq_foldlM, hcompose, map_pick_all, foldlM_collect]
  cases (product choices).mapM f <;> rfl

end

end FormulaDag.Combination
