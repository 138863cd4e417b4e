import FormulaDag.Pool.Reduction
import FormulaDag.Proofs.Pool.Unfolding

/-!
# Slack

The characters of a text outside of its tokens, less one, are its slack. Cutting a part out of a text and giving it a cell of its own makes
one cell and uses up at least one unit of slack, so the slack of a pool bounds how many cells there will be and how often its texts can
still be cut.
-/

namespace FormulaDag

namespace Token

/-- The number of characters of a text outside of its tokens. -/
def plainCount (t : Text) : Nat :=
  (pieces t).countP fun
    | .plain _ => true
    | .token _ => false

/-- A text has no more plain characters than characters. -/
theorem plainCount_le_length (t : Text) : plainCount t ≤ t.length := by
  fun_induction pieces t with
  | case1 t digits rest hsplit ih =>
    rw [plainCount, pieces_of_split? hsplit, List.countP_cons_of_neg (by simp)]
    have := length_of_split? hsplit
    rw [plainCount] at ih
    omega
  | case2 => simp [plainCount]
  | case3 c rest hsplit ih =>
    rw [plainCount, pieces_of_split?_eq_none hsplit, List.countP_cons_of_pos (by simp), List.length_cons]
    rw [plainCount] at ih
    omega

end Token

namespace Line

/-- The number of characters in a line. -/
def charCount (s : Line) : Nat :=
  s.countP fun
    | .char _ => true
    | .ref _ => false

/-- No marks have no plain characters. -/
@[simp] theorem charCount_nil : charCount [] = 0 := rfl

/-- The plain characters of two lines in a row are those of both. -/
@[simp] theorem charCount_append (s s' : Line) : charCount (s ++ s') = charCount s + charCount s' := List.countP_append

@[simp] theorem charCount_char (c : Char) (s : Line) : charCount (.char c :: s) = charCount s + 1 := by simp [charCount]

@[simp] theorem charCount_ref (k : Nat) (s : Line) : charCount (.ref k :: s) = charCount s := by simp [charCount]

@[simp] theorem charCount_ofText (t : Text) : charCount (ofText t) = t.length := by
  rw [charCount, ofText, List.countP_map, List.countP_eq_length.2]
  simp

/-- Relabelled references leave the plain characters as they are. -/
theorem charCount_map_relabel (f : Nat → Nat) (s : Line) : charCount (s.map (Mark.relabel f)) = charCount s := by
  rw [charCount, List.countP_map]
  refine List.countP_congr fun m _ => ?_
  cases m <;> rfl

/-- The plain characters of a written line are its characters. -/
theorem Within.plainCount_eq {n : Nat} {s : Line} (h : s.Within n) : Token.plainCount s.text = charCount s := by
  rw [Token.plainCount, h.pieces_eq, List.countP_map, charCount]
  refine List.countP_congr fun m _ => ?_
  cases m <;> rfl

end Line

namespace Pool

/-- The sum of a measure over the texts of a pool. -/
def total (f : Text → Nat) (p : Pool) : Nat := (p.holders.map fun x => f (p.text x)).sum

/-- The slack of a pool. -/
def slack (p : Pool) : Nat := p.total fun t => Token.plainCount t - 1

section
variable {p q : Pool} {i j : Nat} {t : Text}

/-- A total over the holders is a sum over their set. -/
theorem total_eq (f : Text → Nat) (p : Pool) : p.total f = ∑ x ∈ p.holders.toFinset, f (p.text x) :=
  (List.sum_toFinset _ p.nodup_holders).symm

/-- Replacing a text exchanges its share in a total, or takes it away when the cell becomes a pointer. -/
theorem Rewritten.total_le (h : Rewritten p q i j t) (f : Text → Nat) : q.total f + f (p.text i) ≤ p.total f + f t := by
  have hi : i ∈ p.holders.toFinset := List.mem_toFinset.2 (mem_holders.2 h.held)
  have hothers : q.holders.toFinset.erase i = p.holders.toFinset.erase i := by
    ext x
    simp only [Finset.mem_erase, List.mem_toFinset, mem_holders, and_congr_right_iff]
    intro hxi
    refine ⟨h.held_before, fun hx => h.holds_iff_of.2 (.inr ⟨hxi, hx⟩)⟩
  have hsum : ∑ x ∈ q.holders.toFinset.erase i, f (q.text x) = ∑ x ∈ p.holders.toFinset.erase i, f (p.text x) := by
    rw [hothers]
    refine Finset.sum_congr rfl fun x hx => ?_
    simp only [Finset.mem_erase, List.mem_toFinset, mem_holders] at hx
    rw [h.text_of_ne hx.1 hx.2]
  have hshare : q.total f ≤ f t + ∑ x ∈ q.holders.toFinset.erase i, f (q.text x) := by
    rw [total_eq]
    by_cases hqi : i ∈ q.holders.toFinset
    · rw [← Finset.add_sum_erase _ _ hqi]
      have hheld := mem_holders.1 (List.mem_toFinset.1 hqi)
      rcases h.text_cases hheld with htext | ⟨hne, -, -⟩
      · rw [htext]
      · exact absurd rfl hne
    · rw [Finset.erase_eq_of_notMem hqi]
      exact Nat.le_add_left _ _
  rw [total_eq f p, ← Finset.add_sum_erase _ _ hi]
  omega

/-- An added text adds its own share to a total. -/
theorem total_add (f : Text → Nat) (hsound : p.Sound) (t : Text) : (p.add t).total f = p.total f + f t := by
  have hholders : (p.add t).holders = p.holders ++ [p.cells.length] := by
    have hlast : (p.add t).holds p.cells.length = true := holds_add.2 (.inr rfl)
    rw [holders, length_cells_add, List.range_succ, List.filter_append, List.filter_cons_of_pos hlast, List.filter_nil, holders]
    congr 1
    refine List.filter_congr fun x hx => ?_
    rw [Bool.eq_iff_iff, holds_add, or_iff_left (Nat.ne_of_lt (List.mem_range.1 hx))]
  rw [total, total, hholders, List.map_append, List.sum_append, List.map_singleton, List.sum_singleton]
  congr 2
  · refine List.map_congr_left fun x hx => ?_
    rw [hsound.text_add (lt_of_holds (mem_holders.1 hx))]
  · rw [text_of_holding getElem?_add_length]

/-- The share of a holder is no more than the total. -/
theorem le_total (f : Text → Nat) (hi : p.holds i = true) : f (p.text i) ≤ p.total f := by
  rw [total_eq]
  exact Finset.single_le_sum_of_canonicallyOrdered (f := fun x => f (p.text x)) (List.mem_toFinset.2 (mem_holders.2 hi))

/-- The cells that a pool has together with those that it may still need. -/
def extent (p : Pool) : Nat := p.cells.length + p.slack

/-- The empty pool has the extent one. -/
theorem extent_empty : empty.extent = 1 := by
  have hholders : empty.holders = [Index.root] := by decide
  have htext : empty.text Index.root = [] := rfl
  rw [extent, slack, total, hholders, List.map_singleton, htext, Token.plainCount, Token.pieces_nil]
  rfl

/-- Putting a line into a pool extends it by no more than the characters of the line. -/
theorem extent_intern_le (hsound : p.Sound) {n : Nat} {s : Line} (hs : s.Within n) (hpos : 0 < s.charCount) :
    (p.intern s.text).pool.extent ≤ p.extent + s.charCount := by
  rcases intern_cases p s.text with ⟨k, -, heq⟩ | ⟨-, heq⟩
  · rw [heq]
    exact Nat.le_add_right _ _
  · rw [heq, extent, extent, slack, slack, total_add _ hsound, length_cells_add, hs.plainCount_eq]
    omega

/-- Replacing a text exchanges its share in the extent. -/
theorem extent_setText_le (hsound : p.Sound) (hi : p.holds i = true) (ht : t ≠ []) :
    (p.setText i t).extent + (Token.plainCount (p.text i) - 1) ≤ p.extent + (Token.plainCount t - 1) := by
  obtain ⟨j, h⟩ := hsound.exists_rewritten hi ht
  have htotal := h.total_le fun t => Token.plainCount t - 1
  rw [extent, extent, slack, slack, h.length]
  omega

end

end Pool

end FormulaDag
