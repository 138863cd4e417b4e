import FormulaDag.Proofs.Pool.Rewriting

/-!
# Reached pools

Whatever texts are put into a pool and replaced in it, the table knows the index of every text but the empty one, and all pointers lead
to texts. This is less than soundness asks for: several cells may hold the empty text, and an index may be rewritten after it became a
pointer.
-/

namespace FormulaDag.Pool

/-- Pools that come from the empty one by putting texts in and by replacing the texts of indices. -/
inductive Reached : Pool → Prop
  | empty : Reached Pool.empty
  | intern {p : Pool} (h : Reached p) (t : Text) : Reached (p.intern t).pool
  | setText {p : Pool} (h : Reached p) {i : Nat} (hi : i < p.cells.length) (t : Text) : Reached (p.setText i t)

/-- The pointers from an index lead to one that holds a text. -/
inductive Leads (p : Pool) : Nat → Nat → Prop
  | holding {i : Nat} (h : p.holds i = true) : Leads p i i
  | pointing {i k j : Nat} (h : p.cells[i]? = some (.pointing k)) (hk : Leads p k j) : Leads p i j

/-- The table lists texts under indices that hold them and knows every text but the empty one, and all pointers lead to texts. -/
structure Consistent (p : Pool) : Prop where
  found : ∀ t i, p.find? t = some i → p.cells[i]? = some (.holding t)
  listed : ∀ i t, p.cells[i]? = some (.holding t) → t ≠ [] → p.find? t = some i
  ends : ∀ i, i < p.cells.length → ∃ j, p.Leads i j

section
variable {p q : Pool} {i j k x : Nat} {t u : Text}

/-- What an index leads to holds a text. -/
theorem Leads.holds (h : p.Leads i j) : p.holds j = true := by
  induction h with
  | holding h => exact h
  | pointing _ _ ih => exact ih

theorem follow_of_none (h : p.cells[i]? = none) (steps : Nat) : p.follow steps i = i := by
  cases steps with
  | zero => rfl
  | succ steps => simp only [follow, h]

/-- An index that leads to another is followed to it. -/
theorem Leads.exists_follow (h : p.Leads i j) : ∃ steps, p.follow steps i = j := by
  induction h with
  | holding => exact ⟨0, rfl⟩
  | pointing h _ ih =>
    obtain ⟨steps, hsteps⟩ := ih
    exact ⟨steps + 1, by simpa only [follow, h] using hsteps⟩

/-- The first step at which pointers end is no later than the pool is long: they visit no cell twice before. -/
theorem le_length_of_first {steps : Nat} (hend : p.holds (p.follow steps i) = true)
    (hfirst : ∀ m, m < steps → ¬ p.holds (p.follow m i) = true) : steps ≤ p.cells.length := by
  have hlt : ∀ m, m < steps → p.follow m i < p.cells.length := by
    intro m hm
    by_contra hout
    have hstuck : p.follow steps i = p.follow m i := by
      rw [← Nat.add_sub_cancel' (Nat.le_of_lt hm), follow_add]
      exact follow_of_none (List.getElem?_eq_none (Nat.le_of_not_lt hout)) _
    exact hfirst m hm (hstuck ▸ hend)
  have hne : ∀ a b, a < b → b < steps → p.follow a i ≠ p.follow b i := by
    intro a b hab hb heq
    have hshort : p.follow (a + (steps - b)) i = p.follow steps i := by
      rw [follow_add, heq, ← follow_add, Nat.add_sub_cancel' (Nat.le_of_lt hb)]
    exact hfirst (a + (steps - b)) (by omega) (hshort ▸ hend)
  have hinjective : Function.Injective fun m : Fin steps => (⟨p.follow m i, hlt m m.isLt⟩ : Fin p.cells.length) := by
    intro a b heq
    have heq' : p.follow a i = p.follow b i := congrArg Fin.val heq
    rcases Nat.lt_trichotomy a b with hab | hab | hab
    · exact absurd heq' (hne a b hab b.isLt)
    · exact Fin.ext hab
    · exact absurd heq'.symm (hne b a hab a.isLt)
  simpa using Fintype.card_le_of_injective _ hinjective

/-- An index resolves to the one it leads to. -/
theorem Leads.resolve_eq (h : p.Leads i j) : p.resolve i = j := by
  classical
  obtain ⟨steps, hsteps⟩ := h.exists_follow
  have hexists : ∃ steps, p.holds (p.follow steps i) = true := ⟨steps, hsteps ▸ h.holds⟩
  have hfound := Nat.find_spec hexists
  have hlast : ∀ more, Nat.find hexists ≤ more → p.follow more i = p.follow (Nat.find hexists) i := by
    intro more hle
    rw [← Nat.add_sub_cancel' hle, follow_add, follow_of_holds hfound]
  have hbound := le_length_of_first hfound fun m hm => Nat.find_min hexists hm
  rw [Pool.resolve, hlast _ hbound, ← hlast steps (Nat.find_min' hexists (hsteps ▸ h.holds)), hsteps]

/-- An index has the text of the one it leads to. -/
theorem Leads.text_eq (h : p.Leads i j) : p.text i = p.text j := by
  rw [text, text, h.resolve_eq, resolve_of_holds h.holds]

/-- In a consistent pool every index leads to what it resolves to. -/
theorem Consistent.leads_resolve (h : p.Consistent) (hi : i < p.cells.length) : p.Leads i (p.resolve i) := by
  obtain ⟨j, hj⟩ := h.ends i hi
  rwa [hj.resolve_eq]

/-- A cell is changed: where pointers led to it they lead on, and where they led elsewhere they still do. A cell that was a pointer
itself may have been passed on the way. -/
theorem Leads.change (h : p.Leads x j) (hsame : ∀ x, x ≠ i → q.cells[x]? = p.cells[x]?) (hi : q.Leads i k) :
    q.Leads x (if j = i then k else j) ∨ (p.holds i = false ∧ q.Leads x k) := by
  induction h with
  | @holding x hx =>
    by_cases hxi : x = i
    · exact .inl (by rwa [if_pos hxi, hxi])
    · rw [if_neg hxi]
      exact .inl (.holding (by rwa [Pool.holds, hsame x hxi]))
  | @pointing x y j hx hy ih =>
    by_cases hxi : x = i
    · subst hxi
      exact .inr ⟨by simp [Pool.holds, hx], hi⟩
    · have hx' : q.cells[x]? = some (.pointing y) := (hsame x hxi).trans hx
      exact ih.imp (.pointing hx') fun ⟨hpointer, hk⟩ => ⟨hpointer, .pointing hx' hk⟩

/-- When the changed index leads somewhere, all indices do. -/
theorem Consistent.exists_leads_change (h : p.Consistent) (hlength : q.cells.length = p.cells.length)
    (hsame : ∀ x, x ≠ i → q.cells[x]? = p.cells[x]?) (hi : q.Leads i k) : ∀ x, x < q.cells.length → ∃ j, q.Leads x j := by
  intro x hx
  obtain ⟨j, hj⟩ := h.ends x (hlength ▸ hx)
  rcases hj.change hsame hi with hleads | ⟨-, hleads⟩
  · exact ⟨_, hleads⟩
  · exact ⟨_, hleads⟩

/-- The pool without cells is consistent. -/
theorem empty_consistent : Pool.empty.Consistent where
  found := empty_sound.found
  listed := empty_sound.listed
  ends i hi := by
    obtain rfl : i = 0 := by simpa [Pool.empty] using hi
    exact ⟨0, .holding rfl⟩

/-- Before an index is rewritten, the table forgets it and nothing else. -/
theorem Consistent.lookup_tableWithout (h : p.Consistent) (i : Nat) (u : Text) :
    (p.tableWithout i).lookup u = some x ↔ p.find? u = some x ∧ x ≠ i := by
  have hown : ∀ {v : Text}, p.find? v = some i → p.cells[i]? = some (.holding v) := fun hv => h.found _ i hv
  unfold tableWithout
  split
  · rename_i old hold
    split
    · rename_i hlisted
      rw [lookup_filter_ne]
      by_cases hu : u = old
      · subst hu
        simp only [if_pos, reduceCtorEq, false_iff, not_and, not_not, hlisted]
        exact fun hx => (Option.some.inj hx).symm
      · rw [if_neg hu]
        refine ⟨fun hx => ⟨hx, ?_⟩, And.left⟩
        rintro rfl
        have hcell := hown hx
        rw [hold, Option.some.injEq, Cell.holding.injEq] at hcell
        exact hu hcell.symm
    · rename_i hlisted
      refine ⟨fun hx => ⟨hx, ?_⟩, And.left⟩
      rintro rfl
      have hcell := hown hx
      rw [hold, Option.some.injEq, Cell.holding.injEq] at hcell
      exact hlisted (hcell ▸ hx)
  · rename_i hpointer
    refine ⟨fun hx => ⟨hx, ?_⟩, And.left⟩
    rintro rfl
    exact hpointer u (hown hx)

/-- After rewriting an index points to another one that held the text, or holds the text itself and is listed under it. -/
theorem Consistent.setText_cases (h : p.Consistent) (i : Nat) (t : Text) :
    (∃ j, j ≠ i ∧ p.find? t = some j ∧ p.setText i t = ⟨p.cells.set i (.pointing j), p.tableWithout i⟩) ∨
      ((∀ x, (p.tableWithout i).lookup t ≠ some x) ∧ p.setText i t = ⟨p.cells.set i (.holding t), (t, i) :: p.tableWithout i⟩) := by
  unfold setText
  split
  · rename_i j hj
    obtain ⟨hfind, hji⟩ := (h.lookup_tableWithout i t).1 hj
    exact .inl ⟨j, hji, hfind, if_neg hji⟩
  · rename_i hnone
    exact .inr ⟨by simp [hnone], rfl⟩

/-- The table after an index has got a new text of its own lists that text, and the others if it listed them without the index. -/
theorem lookup_of_set_holding {table : List (Text × Nat)} (hi : i < p.cells.length) (hnew : ∀ x, table.lookup t ≠ some x)
    (hu : (p.cells.set i (.holding t))[x]? = some (.holding u)) (hlisted : x ≠ i → p.cells[x]? = some (.holding u) → table.lookup u = some x) :
    ((t, i) :: table).lookup u = some x := by
  rw [lookup_cons_ite]
  by_cases hxi : x = i
  · rw [hxi, List.getElem?_set_self hi, Option.some.injEq, Cell.holding.injEq] at hu
    rw [if_pos hu.symm, hxi]
  · rw [List.getElem?_set_ne (Ne.symm hxi)] at hu
    have hlookup := hlisted hxi hu
    have hut : u ≠ t := by
      rintro rfl
      exact hnew x hlookup
    rwa [if_neg hut]

/-- The pool after rewriting one index: that index leads to the new text. -/
theorem Consistent.setText (h : p.Consistent) (hi : i < p.cells.length) (t : Text) :
    (p.setText i t).Consistent ∧ ∃ j, (p.setText i t).Leads i j ∧ (p.setText i t).cells[j]? = some (.holding t) := by
  have hsame : ∀ cell x, x ≠ i → (p.cells.set i cell)[x]? = p.cells[x]? := fun cell x hx => List.getElem?_set_ne (Ne.symm hx)
  have hself : ∀ cell, (p.cells.set i cell)[i]? = some cell := fun cell => List.getElem?_set_self hi
  rcases h.setText_cases i t with ⟨j, hji, hfind, heq⟩ | ⟨hnew, heq⟩
  · have hj : (p.cells.set i (.pointing j))[j]? = some (.holding t) := (hsame _ j hji).trans (h.found t j hfind)
    have hleads : (Pool.mk (p.cells.set i (.pointing j)) (p.tableWithout i)).Leads i j :=
      .pointing (hself _) (.holding (holds_iff.2 ⟨t, hj⟩))
    rw [heq]
    refine ⟨⟨fun u x hu => ?_, fun x u hu hne => ?_, h.exists_leads_change List.length_set (hsame _) hleads⟩, j, hleads, hj⟩
    · obtain ⟨hu, hxi⟩ := (h.lookup_tableWithout i u).1 hu
      exact (hsame _ x hxi).trans (h.found u x hu)
    · have hxi : x ≠ i := by
        rintro rfl
        rw [hself] at hu
        simp at hu
      exact (h.lookup_tableWithout i u).2 ⟨h.listed x u ((hsame _ x hxi).symm.trans hu) hne, hxi⟩
  · have hleads : (Pool.mk (p.cells.set i (.holding t)) ((t, i) :: p.tableWithout i)).Leads i i :=
      .holding (holds_iff.2 ⟨t, hself _⟩)
    rw [heq]
    refine ⟨⟨fun u x hu => ?_, fun x u hu hne => ?_, h.exists_leads_change List.length_set (hsame _) hleads⟩, i, hleads, hself _⟩
    · rw [find?, lookup_cons_ite] at hu
      split at hu
      · rename_i hut
        rw [← Option.some.inj hu, hut]
        exact hself _
      · obtain ⟨hu, hxi⟩ := (h.lookup_tableWithout i u).1 hu
        exact (hsame _ x hxi).trans (h.found u x hu)
    · refine lookup_of_set_holding hi hnew hu ?_
      intro hxi hold
      exact (h.lookup_tableWithout i u).2 ⟨h.listed x u hold hne, hxi⟩

/-- Setting a text changes no other cell. -/
theorem getElem?_setText_of_ne (p : Pool) (t : Text) (hx : x ≠ i) : (p.setText i t).cells[x]? = p.cells[x]? := by
  unfold Pool.setText
  split
  · split <;> exact List.getElem?_set_ne (Ne.symm hx)
  · exact List.getElem?_set_ne (Ne.symm hx)

/-- An added cell does not change where an index leads. -/
theorem Leads.add (h : p.Leads i j) : (p.add t).Leads i j := by
  induction h with
  | holding h => exact .holding (holds_add.2 (.inl h))
  | pointing h _ ih => exact .pointing ((getElem?_add_of_lt (List.getElem?_eq_some_iff.1 h).1).trans h) ih

/-- A consistent pool stays so when a new text is added. -/
theorem Consistent.add (h : p.Consistent) (hnew : p.find? t = none) : (p.add t).Consistent where
  found _ _ hu := holding_of_find?_add h.found hu
  listed x u hu hne := find?_add_of_holding hnew hu fun hold => h.listed x u hold hne
  ends x hx := by
    rw [length_cells_add] at hx
    rcases Nat.lt_or_eq_of_le (Nat.le_of_lt_succ hx) with hx | rfl
    · exact (h.ends x hx).imp fun j hj => hj.add
    · exact ⟨_, .holding (holds_add.2 (.inr rfl))⟩

/-- Interning keeps a pool consistent. -/
theorem Consistent.intern (h : p.Consistent) (t : Text) : (p.intern t).pool.Consistent := by
  rcases p.intern_cases t with ⟨i, -, heq⟩ | ⟨hnew, heq⟩
  · rwa [heq]
  · rw [heq]
    exact h.add hnew

/-- Every reached pool is consistent. -/
theorem Reached.consistent (h : p.Reached) : p.Consistent := by
  induction h with
  | empty => exact empty_consistent
  | intern _ t ih => exact ih.intern t
  | setText _ hi t ih => exact (ih.setText hi t).1

/-! ### Texts -/

/-- An index has a text that is not empty exactly when it leads where the table says. -/
theorem Consistent.text_eq_iff (h : p.Consistent) (hx : x < p.cells.length) (ht : t ≠ []) :
    p.text x = t ↔ p.find? t = some (p.resolve x) := by
  have hleads := h.leads_resolve hx
  rw [hleads.text_eq]
  constructor
  · intro htext
    exact h.listed _ _ (htext ▸ holding_text hleads.holds) ht
  · exact fun hfind => text_of_holding (h.found _ _ hfind)

/-- Rewriting a cell with a text of its own changes the texts of the indices that lead to it. -/
theorem Consistent.text_setText (h : p.Consistent) (hi : p.holds i = true) (hx : x < p.cells.length) :
    (p.setText i t).text x = if p.resolve x = i then t else p.text x := by
  obtain ⟨j, hj, hcell⟩ := (h.setText (lt_of_holds hi) t).2
  have hleads := h.leads_resolve hx
  rcases hleads.change (fun x hx => getElem?_setText_of_ne p t hx) hj with hq | ⟨hpointer, -⟩
  · rw [hq.text_eq]
    by_cases hne : p.resolve x = i
    · rw [if_pos hne, if_pos hne]
      exact text_of_holding hcell
    · rw [if_neg hne, if_neg hne, hleads.text_eq]
      refine text_of_holding ?_
      rw [getElem?_setText_of_ne p t hne, holding_text hleads.holds]
  · rw [hi] at hpointer
    simp at hpointer

/-- What holds a text behind setting one held one before. -/
theorem holds_of_holds_setText (hi : p.holds i = true) (hx : (p.setText i t).holds x = true) : p.holds x = true := by
  by_cases hxi : x = i
  · rwa [hxi]
  · rwa [Pool.holds, getElem?_setText_of_ne p t hxi] at hx

theorem Consistent.text_add (h : p.Consistent) (hx : x < p.cells.length) : (p.add t).text x = p.text x := by
  have hleads := h.leads_resolve hx
  rw [hleads.add.text_eq, hleads.text_eq]
  refine text_of_holding ?_
  rw [getElem?_add_of_lt (lt_of_holds hleads.holds), holding_text hleads.holds]

end

end FormulaDag.Pool
