import FormulaDag.Proofs.Pieces

/-!
# Lines

A line is a text that is written mark by mark, each mark a character or the token of an index. The texts of a pool are lines, and
lines keep what scanning a text only recovers: which indices it refers to and where a token stands. Marks are read back from the
text as long as no character is the first one of a token.
-/

namespace FormulaDag

/-- A character of a text or the token of an index. -/
inductive Mark where
  | char (c : Char)
  | ref (i : Nat)
deriving DecidableEq

namespace Mark

/-- A mark as it is written. -/
def text : Mark → Text
  | char c => [c]
  | ref i => Index.token i

/-- The piece that a mark is read as. -/
def piece : Mark → Piece
  | char c => .plain c
  | ref i => .token (Text.ofNat i)

/-- A mark with its index, if it has one, replaced. -/
def relabel (f : Nat → Nat) : Mark → Mark
  | char c => char c
  | ref i => ref (f i)

/-- What a mark stands for when a character and an index stand for texts. -/
def expand (write : Char → Text) (meaning : Nat → Text) : Mark → Text
  | char c => write c
  | ref i => meaning i

/-- A mark is told by its piece. -/
theorem piece_injective {m m' : Mark} (h : m.piece = m'.piece) : m = m' := by
  cases m <;> cases m' <;> simp only [piece, Piece.plain.injEq, Piece.token.injEq, reduceCtorEq] at h
  · rw [h]
  · rw [Index.ofNat_injective h]

/-- A mark is written as its piece. -/
theorem text_piece (m : Mark) : m.piece.text = m.text := by
  cases m with
  | char c => rfl
  | ref i => rfl

end Mark

/-- A text written mark by mark. -/
abbrev Line := List Mark

namespace Line

/-- A line as it is written. -/
def text (s : Line) : Text := s.flatMap Mark.text

/-- The line of a text without tokens. -/
def ofText (t : Text) : Line := t.map .char

/-- What a line stands for when characters and indices stand for texts. -/
def expand (write : Char → Text) (meaning : Nat → Text) (s : Line) : Text := s.flatMap (Mark.expand write meaning)

/-- A line whose indices are below a bound and whose characters cannot be mistaken for the beginning of a token. -/
structure Within (n : Nat) (s : Line) : Prop where
  plain : .char '@' ∉ s
  refs : ∀ k, .ref k ∈ s → k < n

@[simp] theorem text_nil : text [] = [] := rfl

@[simp] theorem text_cons (m : Mark) (s : Line) : text (m :: s) = m.text ++ text s := rfl

@[simp] theorem text_append (s s' : Line) : text (s ++ s') = text s ++ text s' := List.flatMap_append

@[simp] theorem text_ofText (t : Text) : text (ofText t) = t := by
  induction t with
  | nil => rfl
  | cons c t ih =>
    rw [ofText, List.map_cons, text_cons]
    exact congrArg (c :: ·) ih

@[simp] theorem expand_nil (write : Char → Text) (meaning : Nat → Text) : expand write meaning [] = [] := rfl

@[simp] theorem expand_cons (write : Char → Text) (meaning : Nat → Text) (m : Mark) (s : Line) :
    expand write meaning (m :: s) = m.expand write meaning ++ expand write meaning s := rfl

/-- The expansion of two lines in a row is that of both. -/
@[simp] theorem expand_append (write : Char → Text) (meaning : Nat → Text) (s s' : Line) :
    expand write meaning (s ++ s') = expand write meaning s ++ expand write meaning s' := List.flatMap_append

/-- Only the indices of a line matter for what it stands for. -/
theorem expand_congr {write : Char → Text} {f g : Nat → Text} {s : Line} (h : ∀ k, .ref k ∈ s → f k = g k) :
    expand write f s = expand write g s := by
  induction s with
  | nil => rfl
  | cons m s ih =>
    rw [expand_cons, expand_cons, ih fun k hk => h k (List.mem_cons_of_mem _ hk)]
    cases m with
    | char c => rfl
    | ref k => rw [Mark.expand, Mark.expand, h k (by simp)]

/-- The references of a relabelled line are those of the line, relabelled. -/
theorem ref_mem_map {f : Nat → Nat} {s : Line} {k : Nat} :
    .ref k ∈ s.map (Mark.relabel f) ↔ ∃ j, .ref j ∈ s ∧ f j = k := by
  rw [List.mem_map]
  constructor
  · rintro ⟨m, hm, heq⟩
    cases m with
    | char c => simp [Mark.relabel] at heq
    | ref j => exact ⟨j, hm, Mark.ref.inj heq⟩
  · rintro ⟨j, hj, rfl⟩
    exact ⟨.ref j, hj, rfl⟩

/-- Relabelling keeps the plain characters. -/
theorem char_mem_map {f : Nat → Nat} {s : Line} {c : Char} : .char c ∈ s.map (Mark.relabel f) ↔ .char c ∈ s := by
  rw [List.mem_map]
  constructor
  · rintro ⟨m, hm, heq⟩
    cases m with
    | char d => exact Mark.char.inj heq ▸ hm
    | ref j => simp [Mark.relabel] at heq
  · exact fun hc => ⟨.char c, hc, rfl⟩

/-- A relabelled line is expanded by the meanings of the new labels. -/
theorem expand_map (write : Char → Text) (meaning : Nat → Text) (f : Nat → Nat) (s : Line) :
    expand write meaning (s.map (Mark.relabel f)) = expand write (fun k => meaning (f k)) s := by
  rw [expand, List.flatMap_map, expand]
  refine List.flatMap_congr fun m _ => ?_
  cases m <;> rfl

/-- Relabelling depends on the labels of the references only. -/
theorem map_relabel_congr {f g : Nat → Nat} {s : Line} (h : ∀ k, .ref k ∈ s → f k = g k) :
    s.map (Mark.relabel f) = s.map (Mark.relabel g) := by
  refine List.map_congr_left fun m hm => ?_
  cases m with
  | char c => rfl
  | ref k => rw [Mark.relabel, Mark.relabel, h k hm]

/-- A line is left as it is by a relabelling that keeps its references. -/
theorem map_relabel_self {f : Nat → Nat} {s : Line} (h : ∀ k, .ref k ∈ s → f k = k) : s.map (Mark.relabel f) = s := by
  rw [map_relabel_congr (g := id) h]
  have hid : Mark.relabel id = id := by
    funext m
    cases m <;> rfl
  rw [hid, List.map_id]

/-- A text without the first character of a token refers to nothing. -/
theorem at_mem_text {s : Line} {k : Nat} (h : .ref k ∈ s) : '@' ∈ text s :=
  List.mem_flatMap.2 ⟨.ref k, h, by simp [Mark.text, Index.token_eq]⟩

namespace Within
variable {n n' : Nat} {s s' : Line}

/-- A line is within a new bound when its references are relabelled below that. -/
theorem map (h : Within n s) {f : Nat → Nat} (hf : ∀ k, .ref k ∈ s → f k < n') : Within n' (s.map (Mark.relabel f)) where
  plain hc := h.plain (char_mem_map.1 hc)
  refs k hk := by
    obtain ⟨j, hj, rfl⟩ := ref_mem_map.1 hk
    exact hf j hj

/-- Two lines in a row are within a bound when both are. -/
theorem append (h : Within n s) (h' : Within n s') : Within n (s ++ s') where
  plain hc := (List.mem_append.1 hc).elim h.plain h'.plain
  refs k hk := (List.mem_append.1 hk).elim (h.refs k) (h'.refs k)

/-- A part of a line is within the bound of it. -/
theorem subset (h : Within n s) (hsub : s' ⊆ s) : Within n s' where
  plain hc := h.plain (hsub hc)
  refs k hk := h.refs k (hsub hk)

/-- A line within a bound is within a greater one. -/
theorem mono (h : Within n s) (hn : n ≤ n') : Within n' s := ⟨h.plain, fun k hk => Nat.lt_of_lt_of_le (h.refs k hk) hn⟩

theorem ref {k : Nat} (h : k < n) : Within n [.ref k] := ⟨by simp, by simpa using h⟩

theorem ofText {t : Text} (h : '@' ∉ t) : Within n (ofText t) :=
  ⟨by simpa [Line.ofText] using h, by simp [Line.ofText]⟩

/-- Every mark of a line is read as one piece, whatever follows. -/
theorem pieces_append (h : Within n s) (t : Text) : Token.pieces (text s ++ t) = s.map Mark.piece ++ Token.pieces t := by
  induction s with
  | nil => rfl
  | cons m s ih =>
    have hs : Within n s := h.subset (List.subset_cons_self m s)
    cases m with
    | char c =>
      have hc : c ≠ '@' := by
        rintro rfl
        exact h.plain (by simp)
      rw [text_cons, List.append_assoc, Mark.text, List.singleton_append, Token.pieces_cons hc, ih hs]
      rfl
    | ref k =>
      rw [text_cons, List.append_assoc, Mark.text, Token.pieces_token, ih hs]
      rfl

/-- The pieces of a written line are those of its marks. -/
theorem pieces_eq (h : Within n s) : Token.pieces (text s) = s.map Mark.piece := by
  simpa using h.pieces_append []

/-- A line is determined by its text. -/
theorem text_injective (h : Within n s) (h' : Within n' s') (heq : text s = text s') : s = s' := by
  have hpieces := h.pieces_eq
  rw [heq, h'.pieces_eq] at hpieces
  exact (List.map_inj_right fun _ _ => Mark.piece_injective).1 hpieces.symm

/-- Where a line is cut between two pieces of its text, it is cut between two marks. -/
theorem cut {u v : Text} (h : Within n s) (heq : text s = u ++ v) (hu : Token.pieces (u ++ v) = Token.pieces u ++ Token.pieces v) :
    ∃ a b, s = a ++ b ∧ text a = u ∧ text b = v := by
  have hpieces : s.map Mark.piece = Token.pieces u ++ Token.pieces v := by rw [← hu, ← heq, h.pieces_eq]
  obtain ⟨a, b, rfl, ha, hb⟩ := List.map_eq_append_iff.1 hpieces
  have written : ∀ (l : Line) (t : Text), l.map Mark.piece = Token.pieces t → text l = t := by
    intro l t hl
    rw [← Token.flatMap_pieces t, ← hl, List.flatMap_map, text]
    exact congrArg (fun f => l.flatMap f) (funext fun m => (Mark.text_piece m).symm)
  exact ⟨a, b, rfl, written a u ha, written b v hb⟩

/-- The numerals of a line are those of its indices. -/
theorem numerals_eq (h : Within n s) {digits : Text} (hd : digits ∈ Token.numerals (text s)) :
    ∃ k, .ref k ∈ s ∧ digits = Text.ofNat k := by
  rw [Token.numerals, h.pieces_eq, List.mem_filterMap] at hd
  obtain ⟨piece, hp, hd⟩ := hd
  obtain ⟨m, hm, rfl⟩ := List.mem_map.1 hp
  cases m with
  | char c => simp [Mark.piece] at hd
  | ref k => exact ⟨k, hm, (Option.some.inj hd).symm⟩

/-- The indices of a line are those that its text refers to. -/
theorem mem_references (h : Within n s) (hn : n ≤ Index.bound) {k : Nat} :
    k ∈ Token.references (text s) ↔ .ref k ∈ s := by
  rw [Token.mem_references, h.pieces_eq]
  constructor
  · rintro ⟨digits, hmem, hread⟩
    obtain ⟨m, hm, hpiece⟩ := List.mem_map.1 hmem
    cases m with
    | char c => simp [Mark.piece] at hpiece
    | ref j =>
      rw [Mark.piece, Piece.token.injEq] at hpiece
      rw [← hpiece, Index.read?_ofNat (Nat.lt_of_lt_of_le (h.refs j hm) hn), Option.some.injEq] at hread
      exact hread ▸ hm
  · intro hk
    exact ⟨Text.ofNat k, List.mem_map.2 ⟨.ref k, hk, rfl⟩, Index.read?_ofNat (Nat.lt_of_lt_of_le (h.refs k hk) hn)⟩

/-- Replacing the indices in a text replaces those in its line that are small enough to be read. -/
theorem mapIndices_text (h : Within n s) (f : Nat → Nat) :
    Token.mapIndices f (text s) = text (s.map (Mark.relabel fun k => if k < Index.bound then f k else k)) := by
  rw [Token.mapIndices, h.pieces_eq, List.flatMap_map, text, List.flatMap_map]
  refine List.flatMap_congr fun m _ => ?_
  cases m with
  | char c => rfl
  | ref k =>
    rw [Mark.piece, Token.mapPiece, Index.read?_ofNat_eq, Mark.relabel]
    by_cases hk : k < Index.bound
    · rw [if_pos hk, if_pos hk]
      rfl
    · rw [if_neg hk, if_neg hk]
      rfl

/-- Replacing the indices in a text replaces them in its line. -/
theorem mapIndices_eq (h : Within n s) (hn : n ≤ Index.bound) (f : Nat → Nat) :
    Token.mapIndices f (text s) = text (s.map (Mark.relabel f)) := by
  rw [h.mapIndices_text]
  exact congrArg text (map_relabel_congr fun k hk => if_pos (Nat.lt_of_lt_of_le (h.refs k hk) hn))

/-- The line of a text that is one token is that token. -/
theorem eq_ref_of_only? (h : Within n s) {k : Nat} (hk : Token.only? (text s) = some k) : s = [.ref k] := by
  obtain ⟨digits, hpieces, hread⟩ := Token.pieces_of_only? hk
  rw [h.pieces_eq, List.map_eq_singleton_iff] at hpieces
  obtain ⟨m, rfl, hm⟩ := hpieces
  cases m with
  | char c => simp [Mark.piece] at hm
  | ref j =>
    rw [Mark.piece, Piece.token.injEq] at hm
    rw [← hm, Index.read?_ofNat_eq, Option.ite_none_right_eq_some, Option.some.injEq] at hread
    rw [hread.2]

end Within

end Line

end FormulaDag
