import FormulaDag.Proofs.Contexts.Numbering
import FormulaDag.Proofs.Pool.Interning
import FormulaDag.Proofs.Pool.Numbering

/-!
# Freezing

A pool is frozen by making it canonical and numbering the indices that hold texts from zero on. The references in the texts are replaced by
the new numbers. These can be led back to the indices that they come from, so the contexts of different indices are different because their
texts in the canonical pool are.
-/

namespace FormulaDag.Pool

/-- Every number in a text is an index of the pool. -/
def Covers (p : Pool) (t : Text) : Prop := ∀ digits ∈ Token.numerals t, ∃ k, Index.read? digits = some k ∧ k < p.cells.length

/-- Contexts that are the texts of a pool with new numbers: there is one key for each index with a text, from zero on, and the context of
the key is the text of the index. The root leads to the first one, and the others are numbered in their order. All references in contexts
are keys, and no two contexts are the same. -/
structure Numbered (p : Pool) (c : Contexts) : Prop where
  indices : c.indices = List.range p.holders.length
  contexts : ∀ i t, c.get? i = some t ↔ ∃ x, p.holds x = true ∧ p.label x = i ∧ Token.mapIndices p.label (p.text x) = t
  root : c.root? = some (Token.mapIndices p.label (p.text (p.resolve Index.root)))
  ordered : ∀ x y, p.holds x = true → p.holds y = true → x ≠ p.resolve Index.root → y ≠ p.resolve Index.root → x < y →
    p.label x < p.label y
  closed : ∀ i t, c.get? i = some t → ∀ digits ∈ Token.numerals t, ∃ k ∈ c.indices, Index.read? digits = some k
  distinct : c.texts.Nodup

section
variable {p : Pool} {i k x : Nat} {t digits : Text}

theorem covers_iff : p.Covers t ↔ ((Token.numerals t).all fun digits => (Index.read? digits).any fun k => decide (k < p.cells.length)) := by
  simp only [Covers, List.all_eq_true, Option.any_eq_true, decide_eq_true_eq]

instance : Decidable (p.Covers t) := decidable_of_iff _ covers_iff.symm

/-- Replacing the indices of the pool by smaller numbers than `n` leaves no other ones in a text. -/
theorem Covers.exists_numeral {f : Nat → Nat} {n : Nat} (ht : p.Covers t) (hf : ∀ k, k < p.cells.length → f k < n)
    (hn : n ≤ Index.bound) (hdigits : digits ∈ Token.numerals (Token.mapIndices f t)) : ∃ k, Index.read? digits = some k ∧ k < n := by
  rw [Token.numerals_mapIndices] at hdigits
  obtain ⟨before, hbefore, rfl⟩ := List.mem_map.1 hdigits
  obtain ⟨k, hread, hk⟩ := ht before hbefore
  refine ⟨f k, ?_, hf k hk⟩
  rw [Index.relabel_of_read? hread, Index.read?_ofNat (Nat.lt_of_lt_of_le (hf k hk) hn)]

/-- The references of canonical texts are those from before, led to the end of their pointers. -/
theorem Consistent.covers_canonical (h : p.Consistent) (hbound : p.cells.length ≤ Index.bound) (ht : p.Covers (p.text x)) :
    p.canonical.Covers (p.canonical.text x) := by
  obtain ⟨hsettles, -⟩ := h.canonical
  intro digits hdigits
  rw [h.text_canonical hbound] at hdigits
  refine ht.exists_numeral ?_ (hsettles.length.trans_le hbound) hdigits
  intro k hk
  exact lt_of_holds (hsettles.consistent.holds_resolve (hsettles.length.symm ▸ hk))

theorem Consistent.label_lt (h : p.Consistent) (hroot : Index.root < p.cells.length) (hk : k < p.cells.length) :
    p.label k < p.holders.length := by
  rw [← length_numbering (h.holds_resolve hroot)]
  exact (List.getElem?_eq_some_iff.1 (getElem?_numbering_label (h.holds_resolve hroot) (h.holds_resolve hk))).1

/-- The new numbers in a text tell where the references in it lead. -/
theorem Consistent.mapIndices_numbering (h : p.Consistent) (hroot : Index.root < p.cells.length) (hbound : p.cells.length ≤ Index.bound)
    (ht : p.Covers t) :
    Token.mapIndices (fun i => p.numbering.getD i 0) (Token.mapIndices p.label t) = Token.mapIndices p.resolve t := by
  rw [Token.mapIndices_mapIndices]
  apply Token.mapIndices_congr
  intro digits hdigits k hread
  obtain ⟨k', hread', hk⟩ := ht digits hdigits
  obtain rfl := Option.some.inj (hread.symm.trans hread')
  have hlt := Nat.lt_of_lt_of_le (h.label_lt hroot hk) (p.length_holders_le.trans hbound)
  have hcell := getElem?_numbering_label (h.holds_resolve hroot) (h.holds_resolve hk)
  rw [if_pos hlt, List.getD_eq_getElem?_getD, hcell, Option.getD_some]

/-- The contexts of a pool are the texts of its indices with the new numbers. -/
theorem Consistent.get?_toContexts (h : p.Consistent) (hroot : Index.root < p.cells.length) :
    p.toContexts.get? i = some t ↔ ∃ x, p.holds x = true ∧ p.label x = i ∧ Token.mapIndices p.label (p.text x) = t := by
  unfold toContexts
  rw [Contexts.get?_ofTexts, List.getElem?_map, Option.map_eq_some_iff]
  apply exists_congr
  intro x
  rw [getElem?_numbering_iff (h.holds_resolve hroot), and_assoc]
  rfl

theorem Consistent.indices_toContexts (h : p.Consistent) (hroot : Index.root < p.cells.length) :
    p.toContexts.indices = List.range p.holders.length := by
  unfold toContexts
  rw [Contexts.indices_ofTexts, List.length_map, length_numbering (h.holds_resolve hroot)]

/-- Different indices have different contexts. -/
theorem Exact.nodup_texts_toContexts (h : Exact true p) (hroot : Index.root < p.cells.length) (hbound : p.cells.length ≤ Index.bound)
    (htidied : ∀ x, Tidied p x) (hcovers : ∀ x, p.holds x = true → p.Covers (p.text x)) : p.toContexts.texts.Nodup := by
  unfold toContexts
  rw [Contexts.texts_ofTexts]
  apply p.nodup_numbering.map_on
  intro x hx y hy heq
  rw [mem_numbering_iff (h.consistent.holds_resolve hroot)] at hx hy
  have hback : ∀ z, p.holds z = true →
      Token.mapIndices (fun i => p.numbering.getD i 0) (Token.mapIndices p.label (p.text z)) = p.text z := by
    intro z hz
    rw [h.consistent.mapIndices_numbering hroot hbound (hcovers z hz)]
    exact htidied z hz
  have htext : p.text x = p.text y := by
    rw [← hback x hx, ← hback y hy]
    exact congrArg _ heq
  have hfx := h.listed x _ (holding_text hx) (.inl rfl)
  rw [htext, h.listed y _ (holding_text hy) (.inl rfl), Option.some.injEq] at hfx
  exact hfx.symm

/-- In a settled pool with an exact table all texts get their numbers. -/
theorem Exact.numbered (h : Exact true p) (hroot : Index.root < p.cells.length) (hbound : p.cells.length ≤ Index.bound)
    (htidied : ∀ x, Tidied p x) (hcovers : ∀ x, p.holds x = true → p.Covers (p.text x)) : Numbered p p.toContexts where
  indices := h.consistent.indices_toContexts hroot
  contexts _ _ := h.consistent.get?_toContexts hroot
  root := by
    have hheld := h.consistent.holds_resolve hroot
    exact (h.consistent.get?_toContexts hroot).2 ⟨_, hheld, label_resolve_root hheld, rfl⟩
  ordered _ _ := label_lt_label
  closed i t ht digits hdigits := by
    obtain ⟨x, hx, -, rfl⟩ := (h.consistent.get?_toContexts hroot).1 ht
    obtain ⟨k, hread, hk⟩ := (hcovers x hx).exists_numeral (fun _ => h.consistent.label_lt hroot) (p.length_holders_le.trans hbound) hdigits
    refine ⟨k, ?_, hread⟩
    rwa [h.consistent.indices_toContexts hroot, List.mem_range]
  distinct := h.nodup_texts_toContexts hroot hbound htidied hcovers

theorem Developed.rooted {written : Bool} (h : Developed written p) : Index.root < p.cells.length := by
  induction h with
  | empty => exact Nat.zero_lt_one
  | intern _ t ih => exact Nat.lt_of_lt_of_le ih (length_cells_le_intern _ t)
  | setText _ _ t ih => rwa [length_cells_setText]
  | canonical _ ih => rwa [length_cells_canonical]

end

/-- Making a developed pool canonical and freezing it, in five parts.
1. Repeated sweeps come to an end: after more of them than there are texts, the pool is canonical.
2. In the canonical pool no text has a reference to replace.
3. If a canonical text refers to an index of the pool, that index holds a text.
4. Every index has the text that it had before, with the references replaced by what they point to in the end.
5. If the root has been written and all references are indices of the pool, the frozen contexts are the texts of the canonical pool with
   new numbers.

The last two parts are about pools whose indices can be read in tokens, that is, fit 32 bits. -/
theorem Developed.canonical_freeze {written : Bool} {p : Pool} (h : Developed written p) :
    (∀ sweeps, p.holders.length < sweeps → Pool.sweep^[sweeps] p = p.canonical) ∧
    (∀ x, p.canonical.holds x = true → p.canonical.resolved x = p.canonical.text x) ∧
    (∀ x, p.canonical.holds x = true → ∀ digits ∈ Token.numerals (p.canonical.text x), ∀ k, Index.read? digits = some k →
      k < p.canonical.cells.length → p.canonical.holds k = true) ∧
    (p.cells.length ≤ Index.bound → ∀ i, p.canonical.text i = Token.mapIndices p.canonical.resolve (p.text i)) ∧
    (p.cells.length ≤ Index.bound → written = true → (∀ x, p.holds x = true → p.Covers (p.text x)) →
      Numbered p.canonical p.freeze) := by
  have hconsistent := h.exact.consistent
  obtain ⟨hsettles, htidied⟩ := hconsistent.canonical
  refine ⟨?_, htidied, ?_, hconsistent.text_canonical, ?_⟩
  · intro sweeps hsweeps
    exact hconsistent.iterate_sweep hsweeps
  · intro x hx digits hdigits k hread hk
    exact hsettles.consistent.holds_of_tidied (htidied x) hx hdigits hread hk
  · rintro hbound rfl hcovers
    refine h.canonical.exact.numbered h.canonical.rooted (hsettles.length.trans_le hbound) htidied ?_
    intro x hx
    exact hconsistent.covers_canonical hbound (hcovers x (hsettles.held x hx))

/-- The root adds two sines, whose arguments have been merged afterwards. -/
def sines : Pool :=
  ((((((Pool.empty.intern ['x']).pool.intern ['y']).pool.intern "\\sin@/1/@".toList).pool.intern "\\sin@/2/@".toList).pool.setText 0
    "@/3/@+@/4/@".toList).setText 2 ['x'])

/-- The sines are merged in turn, after the first sweep has passed the root. -/
theorem Developed.canonical_freeze_sines :
    sines.canonical.cells =
      [.holding "@/3/@+@/3/@".toList, .holding ['x'], .pointing 1, .holding "\\sin@/1/@".toList, .pointing 3] ∧
    sines.freeze.indices = [0, 1, 2] ∧ sines.freeze.get? 0 = some "@/2/@+@/2/@".toList ∧
    sines.freeze.get? 2 = some "\\sin@/1/@".toList ∧ sines.freeze.texts.Nodup := by
  have hadded : Developed true _ := Developed.setText (i := 0)
    (.intern (.intern (.intern (.intern .empty ['x']) ['y']) "\\sin@/1/@".toList) "\\sin@/2/@".toList) (by decide) "@/3/@+@/4/@".toList
  have hdeveloped : Developed true sines := hadded.setText (i := 2) (by decide +kernel) ['x']
  obtain ⟨hsweeps, -, -, -, hfreeze⟩ := Developed.canonical_freeze hdeveloped
  have hcanonical : sines.canonical = Pool.sweep^[5] sines := (hsweeps 5 (by decide +kernel)).symm
  have hcovers : ∀ x, sines.holds x = true → sines.Covers (sines.text x) := by
    have hall : ∀ x, x < sines.cells.length → sines.holds x = true → sines.Covers (sines.text x) := by decide +kernel
    intro x hx
    exact hall x (lt_of_holds hx) hx
  have hnumbered := hfreeze (by decide +kernel) rfl hcovers
  rw [hcanonical] at hnumbered ⊢
  refine ⟨by decide +kernel, ?_, ?_, ?_, hnumbered.distinct⟩
  · rw [hnumbered.indices]
    decide +kernel
  · exact (hnumbered.contexts 0 _).2 ⟨0, by decide +kernel, by decide +kernel, by decide +kernel⟩
  · exact (hnumbered.contexts 2 _).2 ⟨3, by decide +kernel, by decide +kernel, by decide +kernel⟩

end FormulaDag.Pool
