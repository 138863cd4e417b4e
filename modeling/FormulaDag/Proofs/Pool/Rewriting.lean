import FormulaDag.Proofs.Pool.Sound

/-!
# Replacing a text in a pool

`Rewritten p q i j t` says that `q` is `p` with `t` as the text of cell `i`, which is the text of cell `j` now: `i` itself, or the
cell that held `t` before and to which `i` points from then on.
-/

namespace FormulaDag.Pool

/-- Setting a text adds no cell. -/
theorem length_cells_setText (p : Pool) (i : Nat) (t : Text) : (p.setText i t).cells.length = p.cells.length := by
  unfold setText
  split
  · split <;> exact List.length_set
  · exact List.length_set

/-- The pool after replacing the text of one cell. -/
structure Rewritten (p q : Pool) (i j : Nat) (t : Text) : Prop where
  held : p.holds i = true
  sound : q.Sound
  length : q.cells.length = p.cells.length
  target : q.cells[j]? = some (.holding t)
  others : ∀ x, x ≠ i → q.cells[x]? = p.cells[x]?
  resolve : ∀ x, x < p.cells.length → q.resolve x = if p.resolve x = i then j else p.resolve x

section
variable {p : Pool} {i : Nat} {t old : Text}

/-- A table without an entry is looked up as before for other texts. -/
theorem lookup_filter_ne (l : List (Text × Nat)) (u v : Text) :
    (l.filter fun entry => entry.1 != u).lookup v = if v = u then none else l.lookup v := by
  induction l with
  | nil => simp
  | cons entry l ih =>
    obtain ⟨w, n⟩ := entry
    by_cases hw : w = u
    · rw [List.filter_cons_of_neg (by simp [hw]), ih, List.lookup_cons]
      by_cases hv : v = u
      · simp [hv]
      · rw [if_neg hv, if_neg hv, beq_eq_false_iff_ne.2 (hw ▸ hv)]
    · rw [List.filter_cons_of_pos (by simpa using hw), List.lookup_cons, List.lookup_cons, ih]
      by_cases hv : v = u
      · rw [if_pos hv, if_pos hv, beq_eq_false_iff_ne.2 (hv ▸ Ne.symm hw)]
      · rw [if_neg hv, if_neg hv]

/-- Without the text of a cell the table knows the other texts as before. -/
theorem Sound.lookup_tableWithout (h : p.Sound) (hi : p.cells[i]? = some (.holding old)) (u : Text) :
    (p.tableWithout i).lookup u = if u = old then none else p.find? u := by
  rw [tableWithout, hi]
  by_cases hold : old = []
  · simp only [hold, h.unfinished]
    split
    · simp_all
    · by_cases hu : u = []
      · rw [if_pos hu, hu]
        exact h.unfinished
      · rw [if_neg hu, find?]
  · simp only [h.listed i old hi hold, if_true]
    exact lookup_filter_ne p.table old u

/-- When another cell holds the new text, the cell becomes a pointer to it. -/
theorem Sound.setText_shared (h : p.Sound) (hi : p.cells[i]? = some (.holding old)) {j : Nat} (hji : j ≠ i)
    (hj : p.cells[j]? = some (.holding t)) (ht : t ≠ []) :
    p.setText i t = ⟨p.cells.set i (.pointing j), p.tableWithout i⟩ := by
  have hfind := h.listed j t hj ht
  have hne : t ≠ old := by
    rintro rfl
    rw [h.listed i t hi ht, Option.some.injEq] at hfind
    exact hji hfind.symm
  have hlookup : (p.tableWithout i).lookup t = some j := by
    rw [h.lookup_tableWithout hi, if_neg hne, hfind]
  rw [setText, hlookup]
  simp only [hji, if_false]

/-- Otherwise the cell holds the new text itself. -/
theorem Sound.setText_own (h : p.Sound) (hi : p.cells[i]? = some (.holding old))
    (hown : ∀ j, j ≠ i → p.cells[j]? ≠ some (.holding t)) :
    p.setText i t = ⟨p.cells.set i (.holding t), (t, i) :: p.tableWithout i⟩ := by
  have hlookup : (p.tableWithout i).lookup t = none := by
    rw [h.lookup_tableWithout hi]
    split
    · rfl
    · rename_i hne
      cases hf : p.find? t with
      | none => rfl
      | some j =>
        have hj := h.found t j hf
        by_cases hji : j = i
        · rw [hji, hi, Option.some.injEq, Cell.holding.injEq] at hj
          exact absurd hj.symm hne
        · exact absurd hj (hown j hji)
  rw [setText, hlookup]

/-- Pointers that end at the cell that became a pointer take one more step. -/
theorem follow_set_pointing {j steps x : Nat} (hi : p.holds i = true) (hji : j ≠ i) (hj : p.holds j = true)
    (table : List (Text × Nat)) (hend : p.holds (p.follow steps x) = true) :
    (Pool.mk (p.cells.set i (.pointing j)) table).follow (steps + 1) x =
      if p.follow steps x = i then j else p.follow steps x := by
  have hsame : ∀ y, y ≠ i → (p.cells.set i (.pointing j))[y]? = p.cells[y]? := fun y hy =>
    List.getElem?_set_ne (Ne.symm hy)
  have hheld : ∀ y, y ≠ i → p.holds y = true → (Pool.mk (p.cells.set i (.pointing j)) table).holds y = true := by
    intro y hy h
    rw [holds_iff] at h ⊢
    exact h.imp fun t ht => (hsame y hy).trans ht
  have hself : (p.cells.set i (.pointing j))[i]? = some (.pointing j) := List.getElem?_set_self (lt_of_holds hi)
  induction steps generalizing x with
  | zero =>
    rw [follow] at hend
    by_cases hx : x = i
    · simp only [follow, hx, hself, if_true]
    · rw [follow_of_holds (hheld x hx hend), follow, if_neg hx]
  | succ steps ih =>
    by_cases hx : x = i
    · rw [hx, follow_of_holds hi, if_pos rfl, follow]
      simp only [hself]
      exact follow_of_holds (hheld j hji hj) _
    · cases hcell : p.cells[x]? with
      | none =>
        have hstuck : p.follow (steps + 1) x = x := by simp only [follow, hcell]
        rw [hstuck, holds_iff, hcell] at hend
        simp at hend
      | some cell =>
        cases cell with
        | holding u =>
          have hx' : p.holds x = true := holds_iff.2 ⟨u, hcell⟩
          rw [follow_of_holds hx', if_neg hx]
          exact follow_of_holds (hheld x hx hx') _
        | pointing into =>
          have hold : p.follow (steps + 1) x = p.follow steps into := by simp only [follow, hcell]
          have hnew : (Pool.mk (p.cells.set i (.pointing j)) table).follow (steps + 1 + 1) x =
              (Pool.mk (p.cells.set i (.pointing j)) table).follow (steps + 1) into := by
            rw [follow]
            simp only [hsame x hx, hcell]
          rw [hold] at hend ⊢
          rw [hnew]
          exact ih hend

/-- A cell that becomes a pointer is one pointer more. -/
theorem pointers_set_pointing {j : Nat} (hi : p.cells[i]? = some (.holding old)) (table : List (Text × Nat)) :
    (Pool.mk (p.cells.set i (.pointing j)) table).pointers = p.pointers + 1 := by
  obtain ⟨hlt, hget⟩ := List.getElem?_eq_some_iff.1 hi
  rw [pointers, List.countP_set hlt, hget]
  simp [pointers]

/-- A cell that keeps holding a text is no pointer more. -/
theorem pointers_set_holding (hi : p.cells[i]? = some (.holding old)) (table : List (Text × Nat)) :
    (Pool.mk (p.cells.set i (.holding t)) table).pointers = p.pointers := by
  obtain ⟨hlt, hget⟩ := List.getElem?_eq_some_iff.1 hi
  rw [pointers, List.countP_set hlt, hget]
  simp [pointers]

/-- Pointers do not see the text at which they end. -/
theorem follow_set_holding (hi : p.cells[i]? = some (.holding old)) (table : List (Text × Nat)) (steps x : Nat) :
    (Pool.mk (p.cells.set i (.holding t)) table).follow steps x = p.follow steps x := by
  induction steps generalizing x with
  | zero => rfl
  | succ steps ih =>
    rw [follow, follow]
    by_cases hx : x = i
    · simp only [hx, hi, List.getElem?_set_self (List.getElem?_eq_some_iff.1 hi).1]
    · simp only [List.getElem?_set_ne (Ne.symm hx), ih]

end

section
variable {p : Pool} {i : Nat} {t old : Text}

/-- Another text is found in another cell. -/
theorem Sound.ne_of_find? (h : p.Sound) (hi : p.cells[i]? = some (.holding old)) {u : Text} {x : Nat} (hne : u ≠ old)
    (hfind : p.find? u = some x) : x ≠ i := by
  rintro rfl
  have hx := h.found u x hfind
  rw [hi, Option.some.injEq, Cell.holding.injEq] at hx
  exact hne hx.symm

/-- Another cell holds another text. -/
theorem Sound.ne_of_cell (h : p.Sound) (hi : p.cells[i]? = some (.holding old)) {u : Text} {x : Nat} (hx : x ≠ i)
    (hu : p.cells[x]? = some (.holding u)) (hne : u ≠ []) : u ≠ old := by
  rintro rfl
  have hfind := h.listed x u hu hne
  rw [h.listed i u hi hne, Option.some.injEq] at hfind
  exact hx hfind.symm

section
variable {j : Nat} (hi : p.cells[i]? = some (.holding old)) (hji : j ≠ i) (hj : p.cells[j]? = some (.holding t))
include hi hji hj

/-- A holder that becomes a pointer to another keeps a pool sound. -/
theorem Sound.set_pointing (h : p.Sound) : (Pool.mk (p.cells.set i (.pointing j)) (p.tableWithout i)).Sound := by
  have hsame : ∀ x, x ≠ i → (p.cells.set i (.pointing j))[x]? = p.cells[x]? := fun x hx =>
    List.getElem?_set_ne (Ne.symm hx)
  constructor
  case found =>
    intro u x hu
    rw [find?, h.lookup_tableWithout hi] at hu
    split at hu
    · simp at hu
    · rename_i hne
      exact (hsame x (h.ne_of_find? hi hne hu)).trans (h.found u x hu)
  case listed =>
    intro x u hu hne
    have hx : x ≠ i := by
      rintro rfl
      rw [List.getElem?_set_self (List.getElem?_eq_some_iff.1 hi).1] at hu
      simp at hu
    rw [hsame x hx] at hu
    rw [find?, h.lookup_tableWithout hi, if_neg (h.ne_of_cell hi hx hu hne), h.listed x u hu hne]
  case unfinished =>
    rw [find?, h.lookup_tableWithout hi]
    split
    · rfl
    · exact h.unfinished
  case ends =>
    intro x hx
    rw [List.length_set] at hx
    rw [pointers_set_pointing hi, follow_set_pointing (holds_iff.2 ⟨old, hi⟩) hji (holds_iff.2 ⟨t, hj⟩) _ (h.ends x hx), holds_iff]
    split
    · exact ⟨t, (hsame j hji).trans hj⟩
    · rename_i hne
      exact (holds_iff.1 (h.ends x hx)).imp fun u hu => (hsame _ hne).trans hu

/-- Setting a text that is held elsewhere makes the index point there. -/
theorem Sound.rewritten_shared (h : p.Sound) (ht : t ≠ []) : Rewritten p (p.setText i t) i j t := by
  have hold : p.holds i = true := holds_iff.2 ⟨old, hi⟩
  have hheld : p.holds j = true := holds_iff.2 ⟨t, hj⟩
  have hsound := h.set_pointing hi hji hj
  have hsame : ∀ x, x ≠ i → (p.cells.set i (.pointing j))[x]? = p.cells[x]? := fun x hx =>
    List.getElem?_set_ne (Ne.symm hx)
  rw [h.setText_shared hi hji hj ht]
  refine ⟨hold, hsound, List.length_set, (hsame j hji).trans hj, hsame, fun x hx => ?_⟩
  have hlen : x < (p.cells.set i (.pointing j)).length := by rwa [List.length_set]
  rw [resolve, hsound.resolve_eq hlen (pointers_le _), pointers_set_pointing hi,
    follow_set_pointing hold hji hheld _ (h.ends x hx), resolve, h.resolve_eq hx p.pointers_le]

end

section
variable (hi : p.cells[i]? = some (.holding old)) (hown : ∀ j, j ≠ i → p.cells[j]? ≠ some (.holding t)) (ht : t ≠ [])
include hi hown ht

/-- A holder with a new text keeps a pool sound. -/
theorem Sound.set_holding (h : p.Sound) : (Pool.mk (p.cells.set i (.holding t)) ((t, i) :: p.tableWithout i)).Sound := by
  have hsame : ∀ x, x ≠ i → (p.cells.set i (.holding t))[x]? = p.cells[x]? := fun x hx =>
    List.getElem?_set_ne (Ne.symm hx)
  have hself : (p.cells.set i (.holding t))[i]? = some (.holding t) := List.getElem?_set_self (List.getElem?_eq_some_iff.1 hi).1
  have hlookup : ∀ u, (Pool.mk (p.cells.set i (.holding t)) ((t, i) :: p.tableWithout i)).find? u =
      if u = t then some i else if u = old then none else p.find? u := by
    intro u
    rw [find?, lookup_cons_ite, h.lookup_tableWithout hi u]
  constructor
  case found =>
    intro u x hu
    rw [hlookup] at hu
    split at hu
    · rename_i heq
      rw [← Option.some.inj hu, heq]
      exact hself
    · split at hu
      · simp at hu
      · rename_i hne
        exact (hsame x (h.ne_of_find? hi hne hu)).trans (h.found u x hu)
  case listed =>
    intro x u hu hne
    rw [hlookup]
    by_cases hx : x = i
    · rw [hx, hself, Option.some.injEq, Cell.holding.injEq] at hu
      rw [if_pos hu.symm, hx]
    · rw [hsame x hx] at hu
      have hut : u ≠ t := by
        rintro rfl
        exact hown x hx hu
      rw [if_neg hut, if_neg (h.ne_of_cell hi hx hu hne), h.listed x u hu hne]
  case unfinished =>
    rw [hlookup, if_neg (Ne.symm ht)]
    split
    · rfl
    · exact h.unfinished
  case ends =>
    intro x hx
    rw [List.length_set] at hx
    rw [pointers_set_holding hi, follow_set_holding hi, holds_iff]
    by_cases hend : p.follow p.pointers x = i
    · exact ⟨t, hend ▸ hself⟩
    · exact (holds_iff.1 (h.ends x hx)).imp fun u hu => (hsame _ hend).trans hu

/-- Setting a text that is held nowhere else keeps it at the index. -/
theorem Sound.rewritten_own (h : p.Sound) : Rewritten p (p.setText i t) i i t := by
  have hsound := h.set_holding hi hown ht
  rw [h.setText_own hi hown]
  refine ⟨holds_iff.2 ⟨old, hi⟩, hsound, List.length_set, List.getElem?_set_self (List.getElem?_eq_some_iff.1 hi).1,
    fun x hx => List.getElem?_set_ne (Ne.symm hx), fun x hx => ?_⟩
  rw [resolve, List.length_set, follow_set_holding hi, ← resolve]
  split
  · assumption
  · rfl

end

/-- Replacing a text of a sound pool by a text that is not empty. -/
theorem Sound.exists_rewritten (h : p.Sound) (hi : p.holds i = true) (ht : t ≠ []) :
    ∃ j, Rewritten p (p.setText i t) i j t := by
  obtain ⟨old, hi⟩ := holds_iff.1 hi
  by_cases hshared : ∃ j, j ≠ i ∧ p.cells[j]? = some (.holding t)
  · obtain ⟨j, hji, hj⟩ := hshared
    exact ⟨j, h.rewritten_shared hi hji hj ht⟩
  · exact ⟨i, h.rewritten_own hi (fun j hji hj => hshared ⟨j, hji, hj⟩) ht⟩

end

namespace Rewritten
variable {p q : Pool} {i j : Nat} {t : Text}

/-- The rewritten index resolves to the holder of its text. -/
theorem resolve_self (h : Rewritten p q i j t) : q.resolve i = j := by
  rw [h.resolve i (lt_of_holds h.held), resolve_of_holds h.held, if_pos rfl]

/-- The cells with texts are those before and `j`, without `i` when it became a pointer. -/
theorem holds_iff_of (h : Rewritten p q i j t) {x : Nat} : q.holds x = true ↔ x = j ∨ (x ≠ i ∧ p.holds x = true) := by
  by_cases hx : x = j
  · simp only [hx, true_or, iff_true]
    exact holds_iff.2 ⟨t, h.target⟩
  · simp only [hx, false_or]
    by_cases hxi : x = i
    · simp only [hxi, ne_eq, not_true_eq_false, false_and, iff_false]
      intro hheld
      have hself := h.resolve_self
      rw [resolve_of_holds hheld] at hself
      exact hx (hxi.trans hself)
    · rw [holds_iff, holds_iff, h.others x hxi]
      simp [hxi]

/-- The holder of the rewritten text has that text. -/
theorem text_target (h : Rewritten p q i j t) : q.text j = t := text_of_holding h.target

/-- Other holders keep their texts. -/
theorem text_of_ne (h : Rewritten p q i j t) {x : Nat} (hx : x ≠ i) (hheld : p.holds x = true) : q.text x = p.text x := by
  apply text_of_holding
  rw [h.others x hx]
  exact holding_text hheld

/-- The cell that has the new text held it before, unless it is the one that was rewritten. -/
theorem text_before (h : Rewritten p q i j t) (hji : j ≠ i) : p.holds j = true ∧ p.text j = t := by
  have hcell := h.target
  rw [h.others j hji] at hcell
  exact ⟨holds_iff.2 ⟨t, hcell⟩, text_of_holding hcell⟩

/-- A text after rewriting is the new one or one of those before. -/
theorem text_cases (h : Rewritten p q i j t) {x : Nat} (hx : q.holds x = true) :
    q.text x = t ∨ (x ≠ i ∧ p.holds x = true ∧ q.text x = p.text x) := by
  rcases h.holds_iff_of.1 hx with rfl | ⟨hxi, hxp⟩
  · exact .inl h.text_target
  · exact .inr ⟨hxi, hxp, h.text_of_ne hxi hxp⟩

/-- What holds a text behind a rewriting held one before. -/
theorem held_before (h : Rewritten p q i j t) {x : Nat} (hx : q.holds x = true) : p.holds x = true := by
  rcases h.holds_iff_of.1 hx with rfl | ⟨-, hx⟩
  · by_cases hji : x = i
    · exact hji ▸ h.held
    · exact (h.text_before hji).1
  · exact hx

end Rewritten

end FormulaDag.Pool
