import FormulaDag.Proofs.Renaming

/-!
# Replacing indices

Replacing the indices in a text leaves its pieces where they are. That holds for every text: the characters between two tokens are copied,
and although they may look like the beginning of a token, they do not become one, since what would complete them is copied as well.
Therefore replacing indices twice is replacing them once, and the numbers in the new text are the replaced ones.
-/

namespace FormulaDag

/-- A number in a token after its index, if it is one, has been replaced. -/
def Index.relabel (f : Nat → Nat) (digits : Text) : Text :=
  match read? digits with
  | some i => Text.ofNat (f i)
  | none => digits

/-- A piece after its index, if it has one, has been replaced. -/
def Piece.relabel (f : Nat → Nat) : Piece → Piece
  | .token digits => .token (Index.relabel f digits)
  | .plain c => .plain c

namespace Index

/-- Digits that read as an index are replaced by the label of it. -/
theorem relabel_of_read? {f : Nat → Nat} {digits : Text} {i : Nat} (h : read? digits = some i) : relabel f digits = Text.ofNat (f i) := by
  rw [relabel, h]

/-- Digits that do not read as an index stay. -/
theorem relabel_of_read?_eq_none {f : Nat → Nat} {digits : Text} (h : read? digits = none) : relabel f digits = digits := by
  rw [relabel, h]

/-- Replacing an index twice replaces it once, unless it is too large to be read after the first time. -/
theorem relabel_relabel (f g : Nat → Nat) (digits : Text) :
    relabel g (relabel f digits) = relabel (fun i => if f i < bound then g (f i) else f i) digits := by
  cases hread : read? digits with
  | none => rw [relabel_of_read?_eq_none hread, relabel_of_read?_eq_none hread, relabel_of_read?_eq_none hread]
  | some i =>
    rw [relabel_of_read? hread, relabel_of_read? hread, relabel, read?_ofNat_eq]
    by_cases hi : f i < bound
    · simp only [if_pos hi]
    · simp only [if_neg hi]

end Index

namespace Token

section
variable {f g : Nat → Nat} {c : Char} {t u v digits : Text}

/-- A piece is mapped to its relabelled text. -/
theorem mapPiece_eq (f : Nat → Nat) (piece : Piece) : mapPiece f piece = (piece.relabel f).text := by
  cases piece with
  | plain c => rfl
  | token digits =>
    cases hread : Index.read? digits with
    | none => simp only [mapPiece, hread, Piece.relabel, Index.relabel_of_read?_eq_none hread, Piece.text]
    | some i => simp only [mapPiece, hread, Piece.relabel, Index.relabel_of_read? hread, Piece.text, Index.token]

/-- Mapping the indices of a text relabels its pieces. -/
theorem mapIndices_eq (f : Nat → Nat) (t : Text) : mapIndices f t = ((pieces t).map (Piece.relabel f)).flatMap Piece.text := by
  rw [mapIndices, List.flatMap_map]
  exact List.flatMap_congr fun piece _ => mapPiece_eq f piece

theorem mapIndices_nil (f : Nat → Nat) : mapIndices f [] = [] := by
  unfold mapIndices
  rw [pieces_nil]
  rfl

/-- The token at the front is replaced by one with the label. -/
theorem mapIndices_of_split? (f : Nat → Nat) (h : split? t = some (digits, u)) :
    mapIndices f t = '@' :: '/' :: (Index.relabel f digits ++ '/' :: '@' :: mapIndices f u) := by
  rw [mapIndices, pieces_of_split? h, List.flatMap_cons, mapPiece_eq]
  simp [Piece.relabel, Piece.text, mapIndices]

/-- A character that begins no token stays. -/
theorem mapIndices_of_split?_eq_none (f : Nat → Nat) (h : split? (c :: u) = none) :
    mapIndices f (c :: u) = c :: mapIndices f u := by
  unfold mapIndices
  rw [pieces_of_split?_eq_none h]
  rfl

/-- A character behind which no token can begin is where it was. -/
theorem exists_cons_of_mapIndices (hc : c ≠ '@') (h : mapIndices f t = c :: v) : ∃ u, t = c :: u ∧ v = mapIndices f u := by
  induction t using pieces.induct with
  | case1 t digits u hs ih =>
    rw [mapIndices_of_split? f hs] at h
    exact absurd (List.cons.inj h).1.symm hc
  | case2 => simp [mapIndices_nil] at h
  | case3 c' u hs ih =>
    rw [mapIndices_of_split?_eq_none f hs] at h
    obtain ⟨rfl, rfl⟩ := List.cons.inj h
    exact ⟨u, rfl, rfl⟩

/-- What a mapped text begins with, without the mark of tokens, the text begins with. -/
theorem exists_append_of_mapIndices (hu : '@' ∉ u) (h : mapIndices f t = u ++ v) : ∃ w, t = u ++ w ∧ v = mapIndices f w := by
  induction u generalizing t with
  | nil => exact ⟨t, rfl, h.symm⟩
  | cons c u ih =>
    obtain ⟨hc, hu⟩ := not_or.1 (mt List.mem_cons.2 hu)
    obtain ⟨t, rfl, ht⟩ := exists_cons_of_mapIndices (Ne.symm hc) h
    obtain ⟨w, rfl, hw⟩ := ih hu ht.symm
    exact ⟨w, rfl, hw⟩

/-- Mapping the indices keeps the first character. -/
theorem head?_mapIndices (f : Nat → Nat) (t : Text) : (mapIndices f t).head? = t.head? := by
  induction t using pieces.induct with
  | case1 t digits u hs ih =>
    rw [mapIndices_of_split? f hs]
    obtain ⟨w, rfl⟩ := exists_cons_of_split? hs
    rfl
  | case2 => rw [mapIndices_nil]
  | case3 c u hs ih =>
    rw [mapIndices_of_split?_eq_none f hs]
    rfl

/-- What begins no token begins none after indices have been replaced: a token would consist of characters that are copied, up to the
last one, which may be the first one of a token. -/
theorem split?_mapIndices_eq_none (f : Nat → Nat) (h : split? (c :: u) = none) : split? (c :: mapIndices f u) = none := by
  by_cases hc : c = '@'
  · subst hc
    cases hs : split? ('@' :: mapIndices f u) with
    | none => rfl
    | some split =>
      obtain ⟨digits, v⟩ := split
      obtain ⟨hne, hd⟩ := digits_of_split? hs
      have hprefix : mapIndices f u = ('/' :: (digits ++ ['/'])) ++ '@' :: v := by
        have := split?_eq_some hs
        simp only [List.cons_append, List.cons.injEq, true_and] at this
        simp [this]
      obtain ⟨w, rfl, hw⟩ := exists_append_of_mapIndices (by simp [at_not_mem_digits hs]) hprefix
      have hhead : w.head? = some '@' := by rw [← head?_mapIndices f, ← hw, List.head?_cons]
      obtain ⟨w, rfl⟩ := List.head?_eq_some_iff.1 hhead
      have hsplit : split? ('@' :: ('/' :: (digits ++ ['/']) ++ '@' :: w)) = some (digits, w) := by
        simpa using split?_digits hne hd w
      rw [h] at hsplit
      cases hsplit
  · exact split?_of_ne hc _

/-- Relabelled digits are digits again, and at least one. -/
theorem relabel_digits (f : Nat → Nat) (h : split? t = some (digits, u)) :
    Index.relabel f digits ≠ [] ∧ ∀ c ∈ Index.relabel f digits, Text.isDecimalDigit c = true := by
  unfold Index.relabel
  split
  · exact ⟨Index.ofNat_ne_nil _, fun c hc => Text.isDecimalDigit_of_isDigit c (Index.isDigit_of_mem_ofNat hc)⟩
  · exact digits_of_split? h

/-- Replacing indices replaces them in the pieces. -/
theorem pieces_mapIndices (f : Nat → Nat) (t : Text) : pieces (mapIndices f t) = (pieces t).map (Piece.relabel f) := by
  induction t using pieces.induct with
  | case1 t digits u hs ih =>
    obtain ⟨hne, hd⟩ := relabel_digits f hs
    rw [mapIndices_of_split? f hs, pieces_of_split? (split?_digits hne hd _), pieces_of_split? hs, ih]
    rfl
  | case2 => rw [mapIndices_nil, pieces_nil, List.map_nil]
  | case3 c u hs ih =>
    rw [mapIndices_of_split?_eq_none f hs, pieces_of_split?_eq_none (split?_mapIndices_eq_none f hs), pieces_of_split?_eq_none hs, ih]
    rfl

/-- The numerals of a mapped text are those of the text, relabelled. -/
theorem numerals_mapIndices (f : Nat → Nat) (t : Text) : numerals (mapIndices f t) = (numerals t).map (Index.relabel f) := by
  rw [numerals, pieces_mapIndices, numerals, List.filterMap_map, List.map_filterMap]
  congr 1
  funext piece
  cases piece <;> rfl

/-- Replacing indices twice replaces them once; those that are too large to be read are not replaced any more. -/
theorem mapIndices_mapIndices (f g : Nat → Nat) (t : Text) :
    mapIndices g (mapIndices f t) = mapIndices (fun i => if f i < Index.bound then g (f i) else f i) t := by
  rw [mapIndices_eq g, pieces_mapIndices, List.map_map, mapIndices_eq]
  congr 1
  apply List.map_congr_left
  intro piece _
  cases piece with
  | plain c => rfl
  | token digits => exact congrArg Piece.token (Index.relabel_relabel f g digits)

/-- What a text becomes depends on what becomes of its own indices. -/
theorem mapIndices_congr (h : ∀ digits ∈ numerals t, ∀ i, Index.read? digits = some i → f i = g i) : mapIndices f t = mapIndices g t := by
  rw [mapIndices_eq, mapIndices_eq]
  congr 1
  apply List.map_congr_left
  intro piece hpiece
  cases piece with
  | plain c => rfl
  | token digits =>
    have hmem : digits ∈ numerals t := List.mem_filterMap.2 ⟨_, hpiece, rfl⟩
    cases hread : Index.read? digits with
    | none => rw [Piece.relabel, Piece.relabel, Index.relabel_of_read?_eq_none hread, Index.relabel_of_read?_eq_none hread]
    | some i => rw [Piece.relabel, Piece.relabel, Index.relabel_of_read? hread, Index.relabel_of_read? hread, h digits hmem i hread]

end

end Token

end FormulaDag
