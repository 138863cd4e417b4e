import Mathlib
import FormulaDag.Index

/-!
# The pieces of a text

How `Token.pieces` reads texts that are put together from known parts: characters other than the first one of a token are pieces
of their own, the token of an index is one piece, and a text is the concatenation of its pieces. An index is read back from the
numeral in its token.
-/

namespace FormulaDag

/-- A digit is no letter. -/
theorem Text.not_isAlpha_of_isDigit {c : Char} (h : c.isDigit = true) : c.isAlpha = false := by
  simp only [Char.isDigit, ge_iff_le, Bool.and_eq_true, decide_eq_true_eq, UInt32.le_iff_toNat_le] at h
  simp only [Char.isAlpha, Char.isUpper, Char.isLower, ge_iff_le, Bool.or_eq_false_iff, Bool.and_eq_false_iff,
    decide_eq_false_iff_not, UInt32.le_iff_toNat_le]
  simp at h ⊢
  omega

namespace Index

/-- A written number has digits only. -/
theorem isDigit_of_mem_ofNat {i : Nat} {c : Char} (h : c ∈ Text.ofNat i) : c.isDigit = true :=
  Nat.isDigit_of_mem_toDigits (by decide) (by decide) h

/-- A written number has at least one digit. -/
theorem ofNat_ne_nil (i : Nat) : Text.ofNat i ≠ [] := Nat.toDigits_ne_nil

@[simp] theorem digitsValue_ofNat (i : Nat) : Text.digitsValue (Text.ofNat i) = i :=
  Nat.ofDigitChars_ten_toDigits

/-- A numeral begins with no plus sign. -/
theorem withoutPlus_ofNat (i : Nat) : withoutPlus (Text.ofNat i) = Text.ofNat i := by
  unfold withoutPlus
  split
  · rename_i rest h
    have := isDigit_of_mem_ofNat (i := i) (c := '+') (by rw [h]; simp)
    simp at this
  · rfl

/-- Indices below the bound are read back, and no others. -/
theorem read?_ofNat_eq (i : Nat) : read? (Text.ofNat i) = if i < bound then some i else none := by
  have hd : (Text.ofNat i).all Char.isDigit = true := by
    rw [List.all_eq_true]
    intro c hc
    exact isDigit_of_mem_ofNat hc
  simp [read?, withoutPlus_ofNat, ofDigits?, ofNat_ne_nil, hd]

/-- A written index is read as itself. -/
theorem read?_ofNat {i : Nat} (h : i < bound) : read? (Text.ofNat i) = some i := by rw [read?_ofNat_eq, if_pos h]

/-- What is read as an index is below the bound. -/
theorem lt_of_read? {t : Text} {i : Nat} (h : read? t = some i) : i < bound := by
  rw [read?, ofDigits?] at h
  split at h
  · rename_i hdigits
    exact Option.some.inj h ▸ hdigits.2.2
  · cases h

/-- A number is told by how it is written. -/
theorem ofNat_injective {i j : Nat} (h : Text.ofNat i = Text.ofNat j) : i = j := by
  have := congrArg Text.digitsValue h
  simpa using this

/-- A token is its number between two marks. -/
theorem token_eq (i : Nat) : token i = '@' :: '/' :: (Text.ofNat i ++ ['/', '@']) := by
  simp [token]

theorem token_ne_nil (i : Nat) : token i ≠ [] := by simp [token_eq]

/-- A token consists of signs. -/
theorem sign_of_mem_token {i : Nat} {c : Char} (h : c ∈ token i) : c.isAlpha = false ∧ c ≠ '\\' := by
  rw [token_eq] at h
  simp only [List.mem_cons, List.mem_append, List.not_mem_nil, or_false] at h
  rcases h with rfl | rfl | hdigit | rfl | rfl
  · decide
  · decide
  · have hc := isDigit_of_mem_ofNat hdigit
    refine ⟨Text.not_isAlpha_of_isDigit hc, ?_⟩
    rintro rfl
    simp at hc
  · decide
  · decide

/-- A token has no lowercase letter. -/
theorem not_mem_token_of_isLower {i : Nat} {c : Char} (h : c.isLower = true) : c ∉ token i := by
  intro hc
  have := (sign_of_mem_token hc).1
  simp [Char.isAlpha, h] at this

end Index

/-- A piece as it is written. -/
def Piece.text : Piece → Text
  | .token digits => "@/".toList ++ digits ++ "/@".toList
  | .plain c => [c]

namespace Token

/-- A token begins with its mark only. -/
theorem split?_of_ne {c : Char} (h : c ≠ '@') (t : Text) : split? (c :: t) = none := by
  unfold split?
  split
  · rename_i heq
    simp only [List.cons.injEq] at heq
    exact absurd heq.1 h
  · rfl

/-- The digits of a token are a nonempty run of decimal digits. -/
theorem digits_of_split? {t digits rest : Text} (h : split? t = some (digits, rest)) :
    digits ≠ [] ∧ ∀ c ∈ digits, Text.isDecimalDigit c = true := by
  unfold split? at h
  split at h
  · rename_i u
    split at h
    · rename_i d ds rest' hd hr
      simp only [Option.some.injEq, Prod.mk.injEq] at h
      obtain ⟨rfl, rfl⟩ := h
      refine ⟨by simp, fun c hc => ?_⟩
      rw [← hd] at hc
      exact List.all_eq_true.1 List.all_takeWhile c hc
    · simp at h
  · simp at h

/-- Digits between two marks are split off as a token. -/
theorem split?_digits {digits : Text} (hne : digits ≠ []) (hd : ∀ c ∈ digits, Text.isDecimalDigit c = true)
    (rest : Text) : split? ('@' :: '/' :: (digits ++ '/' :: '@' :: rest)) = some (digits, rest) := by
  have ht : (digits ++ '/' :: '@' :: rest).takeWhile Text.isDecimalDigit = digits := by
    rw [List.takeWhile_append_of_pos hd]
    simp [show Text.isDecimalDigit '/' = false by decide]
  have hr : (digits ++ '/' :: '@' :: rest).dropWhile Text.isDecimalDigit = '/' :: '@' :: rest := by
    rw [List.dropWhile_append_of_pos hd]
    simp [show Text.isDecimalDigit '/' = false by decide]
  obtain ⟨d, ds, rfl⟩ := List.exists_cons_of_ne_nil hne
  simp only [split?, ht, hr]

/-- The token of an index splits off a text that begins with it. -/
theorem split?_token (i : Nat) (rest : Text) : split? (Index.token i ++ rest) = some (Text.ofNat i, rest) := by
  rw [Index.token_eq]
  simp only [List.cons_append, List.append_assoc, List.nil_append]
  exact split?_digits (Index.ofNat_ne_nil i)
    (fun c hc => Text.isDecimalDigit_of_isDigit c (Index.isDigit_of_mem_ofNat hc)) rest

@[simp] theorem pieces_nil : pieces [] = [] := by
  rw [pieces]
  simp [split?]

/-- The token at the front is the first piece. -/
theorem pieces_of_split? {t digits rest : Text} (h : split? t = some (digits, rest)) :
    pieces t = .token digits :: pieces rest := by
  rw [pieces]
  split
  · rename_i d r h'
    rw [h] at h'
    simp only [Option.some.injEq, Prod.mk.injEq] at h'
    rw [h'.1, h'.2]
  · rename_i h'
    rw [h] at h'
    simp at h'

/-- A character that begins no token is a piece of its own. -/
theorem pieces_of_split?_eq_none {c : Char} {t : Text} (h : split? (c :: t) = none) :
    pieces (c :: t) = .plain c :: pieces t := by
  rw [pieces]
  split
  · rename_i d r h'
    rw [h] at h'
    simp at h'
  · rfl

/-- A text without pieces is empty. -/
theorem pieces_eq_nil {t : Text} (h : pieces t = []) : t = [] := by
  cases t with
  | nil => rfl
  | cons c u =>
    cases hs : split? (c :: u) with
    | none => simp [pieces_of_split?_eq_none hs] at h
    | some split => simp [pieces_of_split? hs] at h

/-- A text whose first piece is a token begins with this token. -/
theorem split?_of_pieces {t digits : Text} {l : List Piece} (h : pieces t = .token digits :: l) :
    ∃ u, split? t = some (digits, u) ∧ l = pieces u := by
  cases hs : split? t with
  | none =>
    cases t with
    | nil => simp at h
    | cons c w => simp [pieces_of_split?_eq_none hs] at h
  | some split =>
    obtain ⟨digits', u⟩ := split
    rw [pieces_of_split? hs] at h
    obtain ⟨hd, hl⟩ := List.cons.inj h
    exact ⟨u, by rw [Piece.token.inj hd], hl.symm⟩

/-- A text whose first piece is a character begins with this character and with no token. -/
theorem cons_of_pieces {t : Text} {c : Char} {l : List Piece} (h : pieces t = .plain c :: l) :
    ∃ u, t = c :: u ∧ split? (c :: u) = none ∧ l = pieces u := by
  cases t with
  | nil => simp at h
  | cons c' u =>
    cases hs : split? (c' :: u) with
    | none =>
      rw [pieces_of_split?_eq_none hs] at h
      obtain ⟨hc, hl⟩ := List.cons.inj h
      obtain rfl := Piece.plain.inj hc
      exact ⟨u, rfl, hs, hl.symm⟩
    | some split => simp [pieces_of_split? hs] at h

/-- A character that begins no token is a piece of its own. -/
theorem pieces_cons {c : Char} (h : c ≠ '@') (t : Text) : pieces (c :: t) = .plain c :: pieces t :=
  pieces_of_split?_eq_none (split?_of_ne h t)

/-- A text without marks before another one is cut into its characters. -/
theorem pieces_append {u : Text} (h : '@' ∉ u) (v : Text) : pieces (u ++ v) = u.map Piece.plain ++ pieces v := by
  induction u with
  | nil => rfl
  | cons c u ih =>
    simp only [List.mem_cons, not_or] at h
    rw [List.cons_append, pieces_cons (Ne.symm h.1), ih h.2]
    rfl

/-- A text without marks is cut into its characters. -/
theorem pieces_eq_map {u : Text} (h : '@' ∉ u) : pieces u = u.map Piece.plain := by
  simpa using pieces_append h []

@[simp] theorem pieces_token (i : Nat) (t : Text) :
    pieces (Index.token i ++ t) = .token (Text.ofNat i) :: pieces t :=
  pieces_of_split? (split?_token i t)

/-- A text is the concatenation of its pieces. -/
theorem flatMap_pieces (t : Text) : (pieces t).flatMap Piece.text = t := by
  induction t using pieces.induct with
  | case1 t digits rest h ih =>
    rw [pieces_of_split? h, List.flatMap_cons, ih, split?_eq_some h]
    simp [Piece.text]
  | case2 h => simp
  | case3 c rest h ih =>
    rw [pieces_of_split?_eq_none h, List.flatMap_cons, ih]
    rfl

/-- The references of a text are the numbers of its tokens that are indices. -/
theorem mem_references {i : Nat} {t : Text} :
    i ∈ references t ↔ ∃ digits, Piece.token digits ∈ pieces t ∧ Index.read? digits = some i := by
  simp only [references, List.mem_eraseDups, numerals, List.mem_filterMap]
  constructor
  · rintro ⟨digits, ⟨piece, hp, hd⟩, hr⟩
    cases piece with
    | token d =>
      simp only [Option.some.injEq] at hd
      exact ⟨digits, hd ▸ hp, hr⟩
    | plain c => simp at hd
  · rintro ⟨digits, hp, hr⟩
    exact ⟨digits, ⟨.token digits, hp, rfl⟩, hr⟩

/-- The token of an index is that index and nothing else. -/
theorem only?_token {k : Nat} (hk : k < Index.bound) : only? (Index.token k) = some k := by
  have hsplit := split?_token k []
  rw [List.append_nil] at hsplit
  rw [only?, hsplit]
  exact Index.read?_ofNat hk

/-- A text that is one token and nothing else is one piece. -/
theorem pieces_of_only? {t : Text} {i : Nat} (h : only? t = some i) :
    ∃ digits, pieces t = [.token digits] ∧ Index.read? digits = some i := by
  unfold only? at h
  split at h
  · rename_i digits hs
    exact ⟨digits, by rw [pieces_of_split? hs, pieces_nil], h⟩
  · simp at h

end Token

end FormulaDag
