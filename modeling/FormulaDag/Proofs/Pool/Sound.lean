import Mathlib
import FormulaDag.Pool.Basic

/-!
# Sound pools

In a sound pool the table knows the index of every text, no two cells hold the same text, and every chain of pointers ends at a
text. Putting a text in and replacing one keep a pool sound. Replacing may make two texts equal; then the chains that ended at the
one end at the other.
-/

namespace FormulaDag.Pool

/-- The number of cells that point to others. -/
def pointers (p : Pool) : Nat :=
  p.cells.countP fun
    | .pointing _ => true
    | .holding _ => false

/-- The table lists exactly the texts of the cells, each under its index, and the pointers from any cell end at a text. The empty
text that stands for an unfinished root is not listed. -/
structure Sound (p : Pool) : Prop where
  found : ∀ t i, p.find? t = some i → p.cells[i]? = some (.holding t)
  listed : ∀ i t, p.cells[i]? = some (.holding t) → t ≠ [] → p.find? t = some i
  unfinished : p.find? [] = none
  ends : ∀ i, i < p.cells.length → p.holds (p.follow p.pointers i) = true

/-- An index holds a text when its cell does. -/
theorem holds_iff {p : Pool} {i : Nat} : p.holds i = true ↔ ∃ t, p.cells[i]? = some (.holding t) := by
  unfold holds
  split
  · rename_i t h
    simp [h]
  · rename_i h
    simp only [Bool.false_eq_true, false_iff, not_exists]
    exact h

/-- Only indices of the pool hold a text. -/
theorem lt_of_holds {p : Pool} {i : Nat} (h : p.holds i = true) : i < p.cells.length := by
  obtain ⟨t, ht⟩ := holds_iff.1 h
  exact (List.getElem?_eq_some_iff.1 ht).1

/-- The holders are the indices that hold a text. -/
theorem mem_holders {p : Pool} {i : Nat} : i ∈ p.holders ↔ p.holds i = true := by
  simp only [holders, List.mem_filter, List.mem_range, and_iff_right_iff_imp]
  exact lt_of_holds

/-- No index is listed twice among the holders. -/
theorem nodup_holders (p : Pool) : p.holders.Nodup := List.nodup_range.filter _

/-- There are no more holders than cells. -/
theorem length_holders_le (p : Pool) : p.holders.length ≤ p.cells.length := by
  simpa [holders] using List.length_filter_le p.holds (List.range p.cells.length)

/-- An index that holds a text is followed to itself. -/
theorem follow_of_holds {p : Pool} {i : Nat} (h : p.holds i = true) (steps : Nat) : p.follow steps i = i := by
  obtain ⟨t, ht⟩ := holds_iff.1 h
  cases steps with
  | zero => rfl
  | succ steps => simp only [follow, ht]

/-- Following by some steps and then by others is following by all of them. -/
theorem follow_add (p : Pool) (m n i : Nat) : p.follow (m + n) i = p.follow n (p.follow m i) := by
  induction m generalizing i with
  | zero => rw [Nat.zero_add, follow]
  | succ m ih =>
    rw [Nat.succ_add, follow, follow]
    split
    · exact ih _
    · rename_i hi
      cases n with
      | zero => rfl
      | succ n =>
        rw [follow]
        split
        · rename_i into h
          exact absurd h (hi into)
        · rfl

/-- There are no more pointers than cells. -/
theorem pointers_le (p : Pool) : p.pointers ≤ p.cells.length := List.countP_le_length

section
variable {p : Pool}

/-- In a sound pool more steps than there are pointers lead no further. -/
theorem Sound.resolve_eq (h : p.Sound) {i : Nat} (hi : i < p.cells.length) {steps : Nat} (hsteps : p.pointers ≤ steps) :
    p.follow steps i = p.follow p.pointers i := by
  obtain ⟨more, rfl⟩ := Nat.exists_eq_add_of_le hsteps
  rw [follow_add, follow_of_holds (h.ends i hi)]

/-- In a sound pool every index resolves to one that holds a text. -/
theorem Sound.holds_resolve (h : p.Sound) {i : Nat} (hi : i < p.cells.length) : p.holds (p.resolve i) = true := by
  rw [resolve, h.resolve_eq hi p.pointers_le]
  exact h.ends i hi

/-- An index that holds a text resolves to itself. -/
theorem resolve_of_holds {i : Nat} (h : p.holds i = true) : p.resolve i = i := follow_of_holds h _

theorem text_of_holding {i : Nat} {t : Text} (h : p.cells[i]? = some (.holding t)) : p.text i = t := by
  rw [text, resolve_of_holds (holds_iff.2 ⟨t, h⟩), h]

/-- The cell of a holder is its text. -/
theorem holding_text {i : Nat} (h : p.holds i = true) : p.cells[i]? = some (.holding (p.text i)) := by
  obtain ⟨t, ht⟩ := holds_iff.1 h
  rw [text_of_holding ht, ht]

/-- No two cells hold the same text. -/
theorem Sound.eq_of_text_eq (h : p.Sound) {i j : Nat} (hi : p.holds i = true) (hj : p.holds j = true)
    (heq : p.text i = p.text j) (hne : p.text i ≠ []) : i = j := by
  have hfi := h.listed i _ (holding_text hi) hne
  rw [heq, h.listed j _ (holding_text hj) (heq ▸ hne)] at hfi
  exact (Option.some.inj hfi).symm

/-- The pool without cells is sound. -/
theorem empty_sound : Pool.empty.Sound where
  found := by simp [find?, Pool.empty]
  listed := by
    intro i t h ht
    rcases i with _ | i
    · simp only [Pool.empty, List.getElem?_cons_zero, Option.some.injEq, Cell.holding.injEq] at h
      exact absurd h.symm ht
    · simp [Pool.empty] at h
  unfinished := rfl
  ends := by
    intro i hi
    obtain rfl : i = 0 := by simpa [Pool.empty] using hi
    rfl

end

/-- A pool with a further cell at its end that holds a new text. -/
def add (p : Pool) (t : Text) : Pool := ⟨p.cells ++ [.holding t], (t, p.cells.length) :: p.table⟩

/-- A text is either found in the table, or added as a new cell. -/
theorem intern_cases (p : Pool) (t : Text) :
    (∃ i, p.find? t = some i ∧ p.intern t = ⟨p, i, false⟩) ∨
      (p.find? t = none ∧ p.intern t = ⟨p.add t, p.cells.length, true⟩) := by
  unfold intern
  cases h : p.find? t with
  | some i => exact .inl ⟨i, rfl, rfl⟩
  | none => exact .inr ⟨rfl, rfl⟩

section
variable {p : Pool} {t : Text}

/-- A cell that is added leaves those before it alone. -/
theorem getElem?_add_of_lt {i : Nat} (hi : i < p.cells.length) : (p.add t).cells[i]? = p.cells[i]? :=
  List.getElem?_append_left hi

@[simp] theorem getElem?_add_length : (p.add t).cells[p.cells.length]? = some (.holding t) := List.getElem?_concat_length

@[simp] theorem length_cells_add : (p.add t).cells.length = p.cells.length + 1 := by simp [add]

/-- Interning takes no cell away. -/
theorem length_cells_le_intern (p : Pool) (t : Text) : p.cells.length ≤ (p.intern t).pool.cells.length := by
  rcases p.intern_cases t with ⟨i, -, heq⟩ | ⟨-, heq⟩ <;> simp [heq]

/-- What holds a text behind an added cell held one before, or is the new cell. -/
theorem holds_add {i : Nat} : (p.add t).holds i = true ↔ p.holds i = true ∨ i = p.cells.length := by
  rw [holds_iff, holds_iff]
  constructor
  · rintro ⟨u, hu⟩
    have hlt := (List.getElem?_eq_some_iff.1 hu).1
    rw [length_cells_add] at hlt
    rcases Nat.lt_or_eq_of_le (Nat.le_of_lt_succ hlt) with hi | hi
    · exact .inl ⟨u, by rw [← getElem?_add_of_lt hi, hu]⟩
    · exact .inr hi
  · rintro (⟨u, hu⟩ | rfl)
    · exact ⟨u, by rw [getElem?_add_of_lt (List.getElem?_eq_some_iff.1 hu).1, hu]⟩
    · exact ⟨t, getElem?_add_length⟩

/-- Pointers that end at a text do so in a larger pool as well. -/
theorem follow_add_cell {steps i : Nat} (hi : i < p.cells.length) (h : p.holds (p.follow steps i) = true) :
    (p.add t).follow steps i = p.follow steps i := by
  induction steps generalizing i with
  | zero => rfl
  | succ steps ih =>
    rw [follow, follow, getElem?_add_of_lt hi]
    split
    · rename_i into hinto
      rw [follow] at h
      simp only [hinto] at h
      refine ih (Nat.lt_of_not_le fun hlen => ?_) h
      have hnone : p.cells[into]? = none := List.getElem?_eq_none hlen
      have hstuck : p.follow steps into = into := by
        cases steps with
        | zero => rfl
        | succ steps => simp only [follow, hnone]
      rw [hstuck] at h
      exact absurd (lt_of_holds h) (Nat.not_lt.2 hlen)
    · rfl

/-- An added cell is no pointer. -/
theorem pointers_add : (p.add t).pointers = p.pointers := by simp [pointers, add]

/-- An added cell does not change where an index resolves to. -/
theorem Sound.resolve_add (h : p.Sound) {i : Nat} (hi : i < p.cells.length) : (p.add t).resolve i = p.resolve i := by
  have hend := h.holds_resolve hi
  rw [resolve, length_cells_add, follow_add, follow_add_cell hi hend]
  exact follow_of_holds (holds_add.2 (.inl hend)) 1

/-- An added cell does not change the text of an index. -/
theorem Sound.text_add (h : p.Sound) {i : Nat} (hi : i < p.cells.length) : (p.add t).text i = p.text i := by
  rw [text, text, h.resolve_add hi, getElem?_add_of_lt (lt_of_holds (h.holds_resolve hi))]

theorem lookup_cons_ite (table : List (Text × Nat)) (t u : Text) (i : Nat) :
    ((t, i) :: table).lookup u = if u = t then some i else table.lookup u := by
  rw [List.lookup_cons]
  by_cases hu : u = t
  · rw [if_pos hu, hu, beq_self_eq_true]
  · rw [if_neg hu, beq_eq_false_iff_ne.2 hu]

/-- Behind an added text, that text is found at the new cell and any other where it was. -/
theorem find?_add (u : Text) : (p.add t).find? u = if u = t then some p.cells.length else p.find? u :=
  lookup_cons_ite p.table t u p.cells.length

/-- The table of a larger pool lists texts under indices that hold them if that of the pool does. -/
theorem holding_of_find?_add {u : Text} {i : Nat} (hfound : ∀ u i, p.find? u = some i → p.cells[i]? = some (.holding u))
    (hu : (p.add t).find? u = some i) : (p.add t).cells[i]? = some (.holding u) := by
  rw [find?_add] at hu
  split at hu
  · rename_i heq
    rw [← Option.some.inj hu, heq]
    exact getElem?_add_length
  · have hcell := hfound u i hu
    rw [getElem?_add_of_lt (List.getElem?_eq_some_iff.1 hcell).1, hcell]

/-- The table of a larger pool knows the index of a text if that of the pool did, and that of the new text. -/
theorem find?_add_of_holding {u : Text} {i : Nat} (hnew : p.find? t = none) (hu : (p.add t).cells[i]? = some (.holding u))
    (hlisted : p.cells[i]? = some (.holding u) → p.find? u = some i) : (p.add t).find? u = some i := by
  rw [find?_add]
  have hlt := (List.getElem?_eq_some_iff.1 hu).1
  rw [length_cells_add] at hlt
  rcases Nat.lt_or_eq_of_le (Nat.le_of_lt_succ hlt) with hi | rfl
  · rw [getElem?_add_of_lt hi] at hu
    have hut : u ≠ t := by
      rintro rfl
      rw [hlisted hu] at hnew
      cases hnew
    rw [if_neg hut, hlisted hu]
  · rw [getElem?_add_length, Option.some.injEq, Cell.holding.injEq] at hu
    rw [if_pos hu.symm]

/-- A text that is not in a sound pool can be added. -/
theorem Sound.add (h : p.Sound) (ht : t ≠ []) (hnew : p.find? t = none) : (p.add t).Sound where
  found _ _ hu := holding_of_find?_add h.found hu
  listed i u hu hne := find?_add_of_holding hnew hu fun hold => h.listed i u hold hne
  unfinished := by
    rw [find?_add, if_neg (Ne.symm ht)]
    exact h.unfinished
  ends := by
    intro i hi
    rw [pointers_add]
    rw [length_cells_add] at hi
    rcases Nat.lt_or_eq_of_le (Nat.le_of_lt_succ hi) with hi | rfl
    · rw [follow_add_cell hi (h.ends i hi)]
      exact holds_add.2 (.inl (h.ends i hi))
    · have hlast : (p.add t).holds p.cells.length = true := holds_add.2 (.inr rfl)
      rw [follow_of_holds hlast]
      exact hlast

end

end FormulaDag.Pool
