import FormulaDag.Pool.Canonical
import FormulaDag.Proofs.Pool.Reached
import FormulaDag.Proofs.Relabelling

/-!
# Settling

Making a pool canonical rewrites indices one after the other, each to its own text with the references replaced by what they point to. That
may merge indices, so that what was rewritten before refers to pointers again. Yet every merge leaves fewer indices with texts, and a sweep
without a merge leaves every text settled. In the end all texts are those of the beginning, with the references replaced by what they point
to in the end.
-/

namespace FormulaDag.Pool

/-- The text of a cell refers to cells with texts only. -/
def Tidied (p : Pool) (x : Nat) : Prop := p.holds x = true → p.resolved x = p.text x

/-- A pool in which some references have been replaced by what they point to. The texts are the same up to that, as long as all indices are
small enough to be read in a token. -/
structure Settles (p q : Pool) : Prop where
  consistent : q.Consistent
  length : q.cells.length = p.cells.length
  held : ∀ x, q.holds x = true → p.holds x = true
  resolve : ∀ k, q.resolve (p.resolve k) = q.resolve k
  text : p.cells.length ≤ Index.bound → ∀ i, Token.mapIndices q.resolve (q.text i) = Token.mapIndices q.resolve (p.text i)

section
variable {p q r : Pool} {i k x : Nat} {t : Text} {g : Nat → Nat}

theorem Sound.consistent (h : p.Sound) : p.Consistent where
  found := h.found
  listed := h.listed
  ends i hi := by
    have hleads : ∀ steps i, p.holds (p.follow steps i) = true → p.Leads i (p.follow steps i) := by
      intro steps
      induction steps with
      | zero => exact fun i hi => .holding hi
      | succ steps ih =>
        intro i hi
        rw [follow] at hi ⊢
        split at hi
        · rename_i into hcell
          exact .pointing hcell (ih into hi)
        · exact .holding hi
    exact ⟨_, hleads _ i (h.ends i hi)⟩

/-! ### What indices lead to -/

/-- An index outside of the pool leads nowhere. -/
theorem resolve_of_le (hk : p.cells.length ≤ k) : p.resolve k = k := follow_of_none (List.getElem?_eq_none hk) _

theorem text_of_le (hk : p.cells.length ≤ k) : p.text k = [] := by
  unfold text
  rw [resolve_of_le hk, List.getElem?_eq_none hk]

theorem Consistent.holds_resolve (h : p.Consistent) (hk : k < p.cells.length) : p.holds (p.resolve k) = true :=
  (h.leads_resolve hk).holds

theorem Consistent.resolve_resolve (h : p.Consistent) (k : Nat) : p.resolve (p.resolve k) = p.resolve k := by
  by_cases hk : k < p.cells.length
  · exact resolve_of_holds (h.holds_resolve hk)
  · rw [resolve_of_le (Nat.le_of_not_lt hk), resolve_of_le (Nat.le_of_not_lt hk)]

/-- An index that can be read leads to one that can. -/
theorem Consistent.resolve_lt_bound (h : p.Consistent) (hbound : p.cells.length ≤ Index.bound) (hk : k < Index.bound) :
    p.resolve k < Index.bound := by
  by_cases hlt : k < p.cells.length
  · exact Nat.lt_of_lt_of_le (lt_of_holds (h.holds_resolve hlt)) hbound
  · rwa [resolve_of_le (Nat.le_of_not_lt hlt)]

/-- Replacing references by what they point to goes unnoticed by a replacement that does not tell the two apart. -/
theorem Consistent.mapIndices_mapIndices_resolve (h : p.Consistent) (hbound : p.cells.length ≤ Index.bound)
    (hg : ∀ k, g (p.resolve k) = g k) (t : Text) : Token.mapIndices g (Token.mapIndices p.resolve t) = Token.mapIndices g t := by
  rw [Token.mapIndices_mapIndices]
  apply Token.mapIndices_congr
  intro digits _ k hread
  rw [if_pos (h.resolve_lt_bound hbound (Index.lt_of_read? hread)), hg]

/-- There is nothing left to replace in a text whose references have been replaced. -/
theorem Consistent.mapIndices_resolve_twice (h : p.Consistent) (t : Text) :
    Token.mapIndices p.resolve (Token.mapIndices p.resolve t) = Token.mapIndices p.resolve t := by
  rw [Token.mapIndices_mapIndices]
  apply Token.mapIndices_congr
  intro digits _ k _
  rw [h.resolve_resolve, ite_self]

/-! ### Rewriting one index -/

/-- An index is rewritten, unless its text refers to texts only. -/
theorem tidy_cases (p : Pool) (i : Nat) :
    (p.holds i = true ∧ p.resolved i ≠ p.text i ∧ p.tidy i = p.setText i (p.resolved i)) ∨ (Tidied p i ∧ p.tidy i = p) := by
  unfold tidy
  split
  · rename_i hcond
    rw [Bool.and_eq_true, bne_iff_ne] at hcond
    exact .inl ⟨hcond.1, hcond.2, rfl⟩
  · rename_i hcond
    refine .inr ⟨?_, rfl⟩
    intro hi
    by_contra hne
    exact hcond (by simp [hi, hne])

theorem length_cells_tidy (p : Pool) (i : Nat) : (p.tidy i).cells.length = p.cells.length := by
  unfold tidy
  split
  · exact length_cells_setText p i _
  · rfl

/-- An index that keeps a text of its own when it is rewritten leaves all pointers where they were. -/
theorem Consistent.resolve_setText_of_holds (h : p.Consistent) (hi : p.holds i = true) (hq : (p.setText i t).holds i = true) :
    (p.setText i t).resolve = p.resolve := by
  obtain ⟨old, hold⟩ := holds_iff.1 hi
  rcases h.setText_cases i t with ⟨j, -, -, heq⟩ | ⟨-, heq⟩
  · rw [heq, Pool.holds, List.getElem?_set_self (lt_of_holds hi)] at hq
    cases hq
  · funext x
    rw [heq, Pool.resolve, List.length_set, follow_set_holding hold, ← Pool.resolve]

/-- An index that is rewritten leads where the others lead that led to it. -/
theorem Consistent.resolve_setText (h : p.Consistent) (hi : p.holds i = true) (k : Nat) :
    (p.setText i t).resolve (p.resolve k) = (p.setText i t).resolve k := by
  by_cases hk : k < p.cells.length
  · obtain ⟨j, hj, -⟩ := (h.setText (lt_of_holds hi) t).2
    have hchange : ∀ {x}, p.Leads x (p.resolve k) → (p.setText i t).resolve x = if p.resolve k = i then j else p.resolve k := by
      intro x hx
      rcases hx.change (fun y hy => getElem?_setText_of_ne p t hy) hj with hleads | ⟨hpointer, -⟩
      · exact hleads.resolve_eq
      · rw [hi] at hpointer
        cases hpointer
    rw [hchange (h.leads_resolve hk), hchange (.holding (h.holds_resolve hk))]
  · rw [resolve_of_le (Nat.le_of_not_lt hk)]

theorem Settles.refl (h : p.Consistent) : Settles p p := ⟨h, rfl, fun _ hx => hx, h.resolve_resolve, fun _ _ => rfl⟩

theorem Settles.trans (h : Settles p q) (h' : Settles q r) : Settles p r where
  consistent := h'.consistent
  length := h'.length.trans h.length
  held x hx := h.held x (h'.held x hx)
  resolve k := by rw [← h'.resolve (p.resolve k), h.resolve, h'.resolve]
  text hbound i := by
    have hbound' : q.cells.length ≤ Index.bound := h.length ▸ hbound
    -- the replacement in the end does not tell apart what is replaced in between
    have hlast := h.consistent.mapIndices_mapIndices_resolve hbound' h'.resolve
    rw [h'.text hbound' i, ← hlast, h.text hbound i, hlast]

theorem Consistent.settles_tidy (h : p.Consistent) (i : Nat) : Settles p (p.tidy i) := by
  rcases p.tidy_cases i with ⟨hi, -, heq⟩ | ⟨-, heq⟩
  · rw [heq]
    refine ⟨(h.setText (lt_of_holds hi) _).1, length_cells_setText p i _, ?_, h.resolve_setText hi, ?_⟩
    · intro x hx
      exact holds_of_holds_setText hi hx
    intro hbound x
    by_cases hx : x < p.cells.length
    · rw [h.text_setText hi hx]
      split
      · rename_i hxi
        rw [resolved, h.mapIndices_mapIndices_resolve hbound (h.resolve_setText hi), (h.leads_resolve hx).text_eq, hxi]
      · rfl
    · have hle := Nat.le_of_not_lt hx
      rw [text_of_le hle, text_of_le ((length_cells_setText p i _).trans_le hle)]
  · rw [heq]
    exact .refl h

/-- Rewriting never adds an index with a text, and if it takes none away, the index is settled and the settled ones are still. -/
theorem Consistent.tidied_tidy (h : p.Consistent) (i : Nat) :
    (p.tidy i).holders.length ≤ p.holders.length ∧
      ((p.tidy i).holders.length = p.holders.length → Tidied (p.tidy i) i ∧ ∀ x, Tidied p x → Tidied (p.tidy i) x) := by
  have hsettles := h.settles_tidy i
  have hsub : (p.tidy i).holders.Sublist p.holders := by
    unfold holders
    rw [hsettles.length]
    exact List.monotone_filter_right _ hsettles.held
  refine ⟨hsub.length_le, ?_⟩
  intro hlength
  have hheld : ∀ x, (p.tidy i).holds x = p.holds x := by
    intro x
    rw [Bool.eq_iff_iff, ← mem_holders, ← mem_holders, hsub.eq_of_length hlength]
  rcases p.tidy_cases i with ⟨hi, -, heq⟩ | ⟨htidied, heq⟩
  · rw [heq] at hheld ⊢
    have hresolve := h.resolve_setText_of_holds hi ((hheld i).trans hi)
    have htext : ∀ x, p.holds x = true → (p.setText i (p.resolved i)).text x = if x = i then p.resolved i else p.text x := by
      intro x hx
      rw [h.text_setText hi (lt_of_holds hx), resolve_of_holds hx]
    have hagain : Token.mapIndices p.resolve (p.resolved i) = p.resolved i := h.mapIndices_resolve_twice _
    constructor
    · intro _
      rw [resolved, hresolve, htext i hi, if_pos rfl, hagain]
    · intro x hx hxq
      have hxp := (hheld x).symm.trans hxq
      rw [resolved, hresolve, htext x hxp]
      split
      · exact hagain
      · exact hx hxp
  · rw [heq]
    exact ⟨htidied, fun _ hx => hx⟩

/-! ### Sweeps -/

/-- What rewriting one index keeps is kept by a sweep. -/
theorem sweep_of_tidy {P : Pool → Prop} (hstep : ∀ p i, P p → P (p.tidy i)) (h : P p) : P p.sweep := by
  have hfold : ∀ (l : List Nat) (p : Pool), P p → P (l.foldl Pool.tidy p) := by
    intro l
    induction l with
    | nil => exact fun _ h => h
    | cons i l ih => exact fun p h => ih _ (hstep p i h)
  exact hfold p.holders p h

/-- What rewriting one index keeps is kept when a pool is made canonical. -/
theorem canonical_of_tidy {P : Pool → Prop} (hstep : ∀ p i, P p → P (p.tidy i)) (h : P p) : P p.canonical := by
  induction p using canonical.induct with
  | case1 p hless ih =>
    rw [canonical, if_pos hless]
    exact ih (sweep_of_tidy hstep h)
  | case2 p hless =>
    rw [canonical, if_neg hless]
    exact sweep_of_tidy hstep h

theorem length_cells_sweep (p : Pool) : p.sweep.cells.length = p.cells.length :=
  sweep_of_tidy (P := fun q => q.cells.length = p.cells.length) (fun q i h => (length_cells_tidy q i).trans h) rfl

theorem length_cells_canonical (p : Pool) : p.canonical.cells.length = p.cells.length :=
  canonical_of_tidy (P := fun q => q.cells.length = p.cells.length) (fun q i h => (length_cells_tidy q i).trans h) rfl

/-- What rewriting several indices in turn does: if it merges none of them, all are settled. -/
theorem Consistent.foldl_tidy (l : List Nat) {p : Pool} (h : p.Consistent) :
    Settles p (l.foldl Pool.tidy p) ∧ (l.foldl Pool.tidy p).holders.length ≤ p.holders.length ∧
      ((l.foldl Pool.tidy p).holders.length = p.holders.length → ∀ x, x ∈ l ∨ Tidied p x → Tidied (l.foldl Pool.tidy p) x) := by
  induction l generalizing p with
  | nil =>
    refine ⟨.refl h, Nat.le_refl _, ?_⟩
    intro _ x hx
    exact hx.resolve_left List.not_mem_nil
  | cons i l ih =>
    have hsettles := h.settles_tidy i
    obtain ⟨hle, htidied⟩ := h.tidied_tidy i
    obtain ⟨hsettles', hle', htidied'⟩ := ih hsettles.consistent
    refine ⟨hsettles.trans hsettles', Nat.le_trans hle' hle, ?_⟩
    intro heq x hx
    -- neither the first index nor the others can have been merged
    rw [List.foldl_cons] at heq
    obtain ⟨hi, hkept⟩ := htidied (by omega)
    apply htidied' (by omega) x
    rcases hx with hx | hx
    · rcases List.mem_cons.1 hx with rfl | hx
      · exact .inr hi
      · exact .inl hx
    · exact .inr (hkept x hx)

/-- A sweep that merges nothing settles all texts. -/
theorem Consistent.sweep (h : p.Consistent) :
    Settles p p.sweep ∧ (¬ p.sweep.holders.length < p.holders.length → ∀ x, Tidied p.sweep x) := by
  obtain ⟨hsettles, hle, htidied⟩ := h.foldl_tidy p.holders
  refine ⟨hsettles, ?_⟩
  intro hless x hx
  exact htidied (Nat.le_antisymm hle (Nat.le_of_not_lt hless)) x (.inl (mem_holders.2 (hsettles.held x hx))) hx

/-- A sweep changes nothing in a pool with settled texts. -/
theorem sweep_of_tidied (h : ∀ x, Tidied p x) : p.sweep = p := by
  have hfixed : ∀ i, p.tidy i = p := by
    intro i
    rcases p.tidy_cases i with ⟨hi, hne, -⟩ | ⟨-, heq⟩
    · exact absurd (h i hi) hne
    · exact heq
  exact List.foldl_fixed' hfixed p.holders

theorem Consistent.canonical {p : Pool} (h : p.Consistent) : Settles p p.canonical ∧ ∀ x, Tidied p.canonical x := by
  induction p using canonical.induct with
  | case1 p hless ih =>
    obtain ⟨hsettles, htidied⟩ := ih h.sweep.1.consistent
    rw [Pool.canonical, if_pos hless]
    exact ⟨h.sweep.1.trans hsettles, htidied⟩
  | case2 p hless =>
    rw [Pool.canonical, if_neg hless]
    exact ⟨h.sweep.1, h.sweep.2 hless⟩

/-- After more sweeps than there are texts the pool is canonical: all but the last one that changes something merge indices. -/
theorem Consistent.iterate_sweep {p : Pool} (h : p.Consistent) {sweeps : Nat} (hsweeps : p.holders.length < sweeps) :
    Pool.sweep^[sweeps] p = p.canonical := by
  induction p using canonical.induct generalizing sweeps with
  | case1 p hless ih =>
    obtain ⟨sweeps, rfl⟩ := Nat.exists_eq_add_one_of_ne_zero (Nat.ne_zero_of_lt hsweeps)
    rw [Function.iterate_succ_apply, Pool.canonical, if_pos hless]
    exact ih h.sweep.1.consistent (by omega)
  | case2 p hless =>
    obtain ⟨sweeps, rfl⟩ := Nat.exists_eq_add_one_of_ne_zero (Nat.ne_zero_of_lt hsweeps)
    rw [Function.iterate_succ_apply, Pool.canonical, if_neg hless]
    exact Function.iterate_fixed (sweep_of_tidied (h.sweep.2 hless)) sweeps

/-! ### Settled texts -/

/-- An index of the pool that a settled text refers to holds a text. -/
theorem Consistent.holds_of_tidied (h : p.Consistent) (htidied : Tidied p x) (hx : p.holds x = true) {digits : Text}
    (hdigits : digits ∈ Token.numerals (p.text x)) (hread : Index.read? digits = some k) (hk : k < p.cells.length) :
    p.holds k = true := by
  rw [← htidied hx, resolved, Token.numerals_mapIndices] at hdigits
  obtain ⟨before, -, rfl⟩ := List.mem_map.1 hdigits
  cases hbefore : Index.read? before with
  | none =>
    rw [Index.relabel_of_read?_eq_none hbefore, hbefore] at hread
    cases hread
  | some j =>
    rw [Index.relabel_of_read? hbefore, Index.read?_ofNat_eq] at hread
    split at hread
    · obtain rfl := Option.some.inj hread
      by_cases hj : j < p.cells.length
      · exact h.holds_resolve hj
      · rw [resolve_of_le (Nat.le_of_not_lt hj)] at hk
        exact absurd hk hj
    · cases hread

/-- In a canonical pool every index has the text that it had before, with the references replaced by what they point to now. -/
theorem Consistent.text_canonical (h : p.Consistent) (hbound : p.cells.length ≤ Index.bound) (i : Nat) :
    p.canonical.text i = Token.mapIndices p.canonical.resolve (p.text i) := by
  obtain ⟨hsettles, htidied⟩ := h.canonical
  rw [← hsettles.text hbound i]
  by_cases hi : i < p.canonical.cells.length
  · have hheld := hsettles.consistent.holds_resolve hi
    rw [(hsettles.consistent.leads_resolve hi).text_eq]
    exact (htidied _ hheld).symm
  · rw [text_of_le (Nat.le_of_not_lt hi), Token.mapIndices_nil]

end

end FormulaDag.Pool
