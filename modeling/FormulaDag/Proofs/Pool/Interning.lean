import FormulaDag.Proofs.Pool.Settling

/-!
# The table of a pool

However texts are put into a pool and replaced in it, and whenever the pool is made canonical in between, its table is the inverse of its
cells: a text is listed exactly under the index that holds it. The root is the only exception. It holds the empty text from the beginning
without being listed, until its text is replaced for the first time.
-/

namespace FormulaDag.Pool

/-- Pools that come from the empty one by putting texts in, by replacing the texts of indices and by making the pool canonical. It is kept
whether the text of the root has been replaced. -/
inductive Developed : Bool → Pool → Prop
  | empty : Developed false Pool.empty
  | intern {written : Bool} {p : Pool} (h : Developed written p) (t : Text) : Developed written (p.intern t).pool
  | setText {written : Bool} {p : Pool} (h : Developed written p) {i : Nat} (hi : i < p.cells.length) (t : Text) :
      Developed (written || i == Index.root) (p.setText i t)
  | canonical {written : Bool} {p : Pool} (h : Developed written p) : Developed written p.canonical

/-- The table lists every text under the index that holds it, and nothing else. As long as the root has not been written, it holds the
empty text and is not listed. -/
structure Exact (written : Bool) (p : Pool) : Prop where
  consistent : p.Consistent
  listed : ∀ i t, p.cells[i]? = some (.holding t) → written = true ∨ i ≠ Index.root → p.find? t = some i
  unwritten : written = false → p.cells[Index.root]? = some (.holding []) ∧ ∀ t, p.find? t ≠ some Index.root

section
variable {written : Bool} {p : Pool} {i j : Nat} {u : Text}

theorem empty_exact : Exact false Pool.empty where
  consistent := empty_consistent
  listed i t h hi := by
    obtain ⟨hlt, -⟩ := List.getElem?_eq_some_iff.1 h
    have hroot : i = Index.root := by simpa [Pool.empty, Index.root] using hlt
    simp [hroot] at hi
  unwritten _ := ⟨rfl, by simp [find?, Pool.empty]⟩

theorem Exact.intern (h : Exact written p) (t : Text) : Exact written (p.intern t).pool := by
  rcases p.intern_cases t with ⟨i, -, heq⟩ | ⟨hnew, heq⟩
  · rwa [heq]
  · rw [heq]
    refine ⟨h.consistent.add hnew, ?_, ?_⟩
    · intro i u hu hi
      exact find?_add_of_holding hnew hu fun hold => h.listed i u hold hi
    · intro hw
      obtain ⟨hcell, hfree⟩ := h.unwritten hw
      have hlt := (List.getElem?_eq_some_iff.1 hcell).1
      refine ⟨(getElem?_add_of_lt hlt).trans hcell, ?_⟩
      intro u
      rw [find?_add]
      split
      · intro hlast
        exact absurd (Option.some.inj hlast) (Nat.ne_of_gt hlt)
      · exact hfree u

/-- Before an index is rewritten, the table lists the others. -/
theorem Exact.listed_without (h : Exact written p) (hji : j ≠ i) (hj : p.cells[j]? = some (.holding u))
    (hwritten : (written || i == Index.root) = true ∨ j ≠ Index.root) : (p.tableWithout i).lookup u = some j := by
  refine (h.consistent.lookup_tableWithout i u).2 ⟨h.listed j u hj ?_, hji⟩
  rcases hwritten with hw | hne
  · rw [Bool.or_eq_true, beq_iff_eq] at hw
    refine hw.imp_right ?_
    rintro rfl hroot
    exact hji hroot
  · exact .inr hne

/-- If the root has not been written after an index has been, it was another index, and the root is as it was. -/
theorem Exact.unwritten_without (h : Exact written p) (hw : (written || i == Index.root) = false) :
    i ≠ Index.root ∧ p.cells[Index.root]? = some (.holding []) ∧ ∀ u, (p.tableWithout i).lookup u ≠ some Index.root := by
  rw [Bool.or_eq_false_iff, beq_eq_false_iff_ne] at hw
  obtain ⟨hcell, hfree⟩ := h.unwritten hw.1
  refine ⟨hw.2, hcell, ?_⟩
  intro u hu
  exact hfree u ((h.consistent.lookup_tableWithout i u).1 hu).1

/-- Rewriting an index keeps the table exact, whether the index becomes a pointer, holds a text of its own again or keeps its text. -/
theorem Exact.setText (h : Exact written p) (hi : i < p.cells.length) (t : Text) :
    Exact (written || i == Index.root) (p.setText i t) := by
  have hsame : ∀ {x}, x ≠ i → (p.setText i t).cells[x]? = p.cells[x]? := fun hx => getElem?_setText_of_ne p t hx
  have hconsistent := (h.consistent.setText hi t).1
  rcases h.consistent.setText_cases i t with ⟨j, -, -, heq⟩ | ⟨hnew, heq⟩
  · rw [heq] at hconsistent hsame ⊢
    refine ⟨hconsistent, ?_, ?_⟩
    · intro x u hu hx
      have hxi : x ≠ i := by
        rintro rfl
        rw [List.getElem?_set_self hi] at hu
        cases hu
      exact h.listed_without hxi ((hsame hxi).symm.trans hu) hx
    · intro hw
      obtain ⟨hne, hcell, hfree⟩ := h.unwritten_without hw
      exact ⟨(hsame (Ne.symm hne)).trans hcell, hfree⟩
  · rw [heq] at hconsistent hsame ⊢
    refine ⟨hconsistent, ?_, ?_⟩
    · intro x u hu hx
      refine lookup_of_set_holding hi hnew hu ?_
      intro hxi hold
      exact h.listed_without hxi hold hx
    · intro hw
      obtain ⟨hne, hcell, hfree⟩ := h.unwritten_without hw
      refine ⟨(hsame (Ne.symm hne)).trans hcell, ?_⟩
      intro u
      rw [find?, lookup_cons_ite]
      split
      · intro hroot
        exact hne (Option.some.inj hroot)
      · exact hfree u

/-- A root that has not been written has no references that could be replaced. -/
theorem Exact.tidy (h : Exact written p) (i : Nat) : Exact written (p.tidy i) := by
  rcases p.tidy_cases i with ⟨hi, hne, heq⟩ | ⟨-, heq⟩
  · rw [heq]
    have hset := h.setText (lt_of_holds hi) (p.resolved i)
    have hwritten : (written || i == Index.root) = written := by
      cases written with
      | true => rfl
      | false =>
        rw [Bool.false_or, beq_eq_false_iff_ne]
        rintro rfl
        have htext := text_of_holding (h.unwritten rfl).1
        exact hne (by rw [resolved, htext, Token.mapIndices_nil])
    rwa [hwritten] at hset
  · rwa [heq]

theorem Developed.exact (h : Developed written p) : Exact written p := by
  induction h with
  | empty => exact empty_exact
  | intern _ t ih => exact ih.intern t
  | setText _ hi t ih => exact ih.setText hi t
  | canonical _ ih => exact canonical_of_tidy (fun _ i h => h.tidy i) ih

end

/-- In every pool that can be developed, in four parts.
1. Every text in the table is listed under an index that holds it.
2. Every index that holds a text is listed under it, but for a root that has not been written: this one holds the empty text and is not
   listed at all.
3. No two indices hold the same text, except that another one may hold the empty text of a root that has not been written.
4. The pointers from every index come to an end at one that holds a text, from which they lead no further. -/
theorem Developed.table_inverse {written : Bool} {p : Pool} (h : Developed written p) :
    (∀ t i, p.find? t = some i → p.cells[i]? = some (.holding t)) ∧
    (∀ i t, p.cells[i]? = some (.holding t) →
      p.find? t = some i ∨ (written = false ∧ i = Index.root ∧ t = [] ∧ ∀ u, p.find? u ≠ some Index.root)) ∧
    (∀ i j t, p.cells[i]? = some (.holding t) → p.cells[j]? = some (.holding t) →
      i = j ∨ (written = false ∧ (i = Index.root ∨ j = Index.root))) ∧
    ∀ i, i < p.cells.length → p.Leads i (p.resolve i) ∧ p.holds (p.resolve i) = true ∧ p.resolve (p.resolve i) = p.resolve i := by
  have hexact := h.exact
  have hlisted : ∀ i t, p.cells[i]? = some (.holding t) → p.find? t = some i ∨ (written = false ∧ i = Index.root) := by
    intro i t hi
    by_cases hcase : written = true ∨ i ≠ Index.root
    · exact .inl (hexact.listed i t hi hcase)
    · rw [not_or, Bool.not_eq_true, not_not] at hcase
      exact .inr hcase
  refine ⟨hexact.consistent.found, ?_, ?_, ?_⟩
  · intro i t hi
    refine (hlisted i t hi).imp_right ?_
    rintro ⟨hw, rfl⟩
    obtain ⟨hcell, hfree⟩ := hexact.unwritten hw
    rw [hcell, Option.some.injEq, Cell.holding.injEq] at hi
    exact ⟨hw, rfl, hi.symm, hfree⟩
  · intro i j t hi hj
    rcases hlisted i t hi with hfi | ⟨hw, hroot⟩
    · rcases hlisted j t hj with hfj | ⟨hw, hroot⟩
      · rw [hfi, Option.some.injEq] at hfj
        exact .inl hfj
      · exact .inr ⟨hw, .inr hroot⟩
    · exact .inr ⟨hw, .inl hroot⟩
  · intro i hi
    have hleads := hexact.consistent.leads_resolve hi
    exact ⟨hleads, hleads.holds, resolve_of_holds hleads.holds⟩

/-- Two sines are merged, and the index that became a pointer gets a text of its own again. -/
theorem Developed.table_inverse_revived :
    ∃ p : Pool, Developed false p ∧ p.cells = [.holding [], .holding "\\sin@/3/@".toList, .holding ['x']] ∧
      p.find? ['x'] = some 2 ∧ p.find? "\\sin@/4/@".toList = none := by
  have hmerged : Developed false (((Pool.empty.intern "\\sin@/3/@".toList).pool.intern "\\sin@/4/@".toList).pool.setText 2
      "\\sin@/3/@".toList) :=
    Developed.setText (i := 2) (.intern (.intern .empty _) _) (by decide) _
  have hrevived := hmerged.setText (i := 2) (by decide) ['x']
  obtain ⟨hfound, hlisted, -, -⟩ := Developed.table_inverse hrevived
  generalize hp : Pool.setText _ 2 ['x'] = p at hrevived hfound hlisted
  have hcells : p.cells = [.holding [], .holding "\\sin@/3/@".toList, .holding ['x']] := by
    rw [← hp]
    decide +kernel
  refine ⟨p, hrevived, hcells, ?_, ?_⟩
  · exact (hlisted 2 ['x'] (by rw [hcells]; rfl)).resolve_right fun hroot => absurd hroot.2.1 (by decide)
  · rw [Option.eq_none_iff_forall_ne_some]
    intro i hi
    have hcell := List.mem_of_getElem? (hfound _ i hi)
    rw [hcells] at hcell
    exact absurd hcell (by decide)

end FormulaDag.Pool
