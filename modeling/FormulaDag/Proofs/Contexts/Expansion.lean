import FormulaDag.Proofs.Contexts.WellFormed

/-!
# Expansions

Replacing every token of a context by the expansion of the context that it names gives the source text back, up to white space and the
characters that group. So taking a source text apart loses nothing, repeats nothing and changes no order.
-/

namespace FormulaDag

namespace Source

/-- The text without the characters that open or close groups. -/
def withoutDelimiters (t : Text) : Text := t.filter fun c => !isDelimiter c

/-- Two texts in a row lose their delimiters both. -/
theorem withoutDelimiters_append (t u : Text) : withoutDelimiters (t ++ u) = withoutDelimiters t ++ withoutDelimiters u :=
  List.filter_append ..

theorem withoutDelimiters_eq_flatMap (t : Text) :
    withoutDelimiters t = t.flatMap fun c => if isDelimiter c then [] else [c] := by
  induction t with
  | nil => rfl
  | cons c t ih =>
    rw [List.flatMap_cons, ← ih, withoutDelimiters, List.filter_cons]
    cases isDelimiter c <;> rfl

/-- An operand that is set off by white space stands after that white space. -/
theorem eq_of_separated? {names : List Text} {word after operand rest : Text}
    (h : separated? names word after = some (operand, rest)) : operand ++ rest = after.dropWhile Text.isBlank := by
  simp only [separated?, Option.ite_none_right_eq_some, Option.some.injEq, Prod.mk.injEq] at h
  obtain ⟨-, rfl, rfl⟩ := h
  exact List.take_append_drop _ _

/-- No letter is white space. -/
theorem not_isBlank_of_isAlpha {c : Char} (h : c.isAlpha = true) : Text.isBlank c = false := by
  simp only [Char.isAlpha, Char.isUpper, Char.isLower, ge_iff_le, Bool.or_eq_true, Bool.and_eq_true, decide_eq_true_eq,
    UInt32.le_iff_toNat_le] at h
  simp only [Text.isBlank, Char.toNat, Bool.or_eq_false_iff, Bool.and_eq_false_iff, decide_eq_false_iff_not, beq_eq_false_iff_ne]
  simp at h ⊢
  omega

/-- Letters are no blanks. -/
theorem filter_takeWhile_isAlpha (t : Text) :
    (t.takeWhile Char.isAlpha).filter (fun c => !Text.isBlank c) = t.takeWhile Char.isAlpha := by
  rw [List.filter_eq_self]
  intro c hc
  rw [not_isBlank_of_isAlpha (List.all_eq_true.1 List.all_takeWhile c hc)]
  rfl

/-- Leading blanks are dropped with all others. -/
theorem filter_dropWhile_isBlank (t : Text) :
    (t.dropWhile Text.isBlank).filter (fun c => !Text.isBlank c) = t.filter fun c => !Text.isBlank c := by
  induction t with
  | nil => rfl
  | cons c t ih =>
    cases hc : Text.isBlank c with
    | true => rw [List.dropWhile_cons_of_pos hc, ih, List.filter_cons_of_neg (by simp [hc])]
    | false => rw [List.dropWhile_cons_of_neg (by simp [hc])]

/-- Taking the white space away takes nothing else away and adds nothing but delimiters. -/
theorem withoutDelimiters_stripBlanks (names : List Text) (t : Text) :
    withoutDelimiters (stripBlanks names t) = withoutDelimiters (t.filter fun c => !Text.isBlank c) := by
  have hcommand : ∀ rest : Text, withoutDelimiters (('\\' :: rest).filter fun c => !Text.isBlank c) =
      '\\' :: (withoutDelimiters (rest.takeWhile Char.isAlpha) ++
        withoutDelimiters ((rest.dropWhile Char.isAlpha).filter fun c => !Text.isBlank c)) := by
    intro rest
    conv_lhs => rw [← List.takeWhile_append_dropWhile (p := Char.isAlpha) (l := rest)]
    rw [List.filter_cons_of_pos rfl, List.filter_append, filter_takeWhile_isAlpha, withoutDelimiters, List.filter_cons_of_pos rfl,
      List.filter_append]
    rfl
  induction t using stripBlanks.induct names with
  | case1 =>
    rw [stripBlanks]
    rfl
  | case2 c rest hblank ih => rw [stripBlanks, if_pos hblank, ih, List.filter_cons_of_neg (by simp [hblank])]
  | case3 rest operand after hsep hblank ih₁ ih₂ =>
    have hstrip : stripBlanks names ('\\' :: rest) =
        '\\' :: rest.takeWhile Char.isAlpha ++ '{' :: stripBlanks names operand ++ '}' :: stripBlanks names after := by
      rw [stripBlanks, if_neg hblank, if_pos rfl]
      split
      · rename_i operand' after' hsep'
        rw [hsep] at hsep'
        simp only [Option.some.injEq, Prod.mk.injEq] at hsep'
        rw [hsep'.1, hsep'.2]
      · rename_i hsep'
        rw [hsep] at hsep'
        simp at hsep'
    have hopen : withoutDelimiters ['{'] = [] := rfl
    have hclose : withoutDelimiters ['}'] = [] := rfl
    have hparts : '\\' :: rest.takeWhile Char.isAlpha ++ '{' :: stripBlanks names operand ++ '}' :: stripBlanks names after =
        ['\\'] ++ rest.takeWhile Char.isAlpha ++ ['{'] ++ stripBlanks names operand ++ ['}'] ++ stripBlanks names after := by simp
    rw [hcommand, ← filter_dropWhile_isBlank (rest.dropWhile Char.isAlpha), ← eq_of_separated? hsep, List.filter_append,
      withoutDelimiters_append, hstrip, hparts]
    simp only [withoutDelimiters_append, hopen, hclose, ih₁, ih₂, List.append_assoc, List.nil_append]
    rfl
  | case4 rest hsep hblank ih =>
    have hstrip : stripBlanks names ('\\' :: rest) =
        '\\' :: rest.takeWhile Char.isAlpha ++ stripBlanks names (rest.dropWhile Char.isAlpha) := by
      rw [stripBlanks, if_neg hblank, if_pos rfl]
      split
      · rename_i operand' after' hsep'
        rw [hsep] at hsep'
        simp at hsep'
      · rfl
    rw [hcommand, hstrip, withoutDelimiters_append, ih]
    rfl
  | case5 c rest hblank hslash ih =>
    rw [stripBlanks, if_neg hblank, if_neg hslash, List.filter_cons_of_pos (by simpa using hblank)]
    unfold withoutDelimiters at ih ⊢
    rw [List.filter_cons, List.filter_cons, ih]

end Source

namespace Contexts

/-- The expansion of a text, given by its pieces: the tokens are replaced by the expansions of the contexts that they name. -/
inductive Expands (c : Contexts) : List Piece → Text → Prop where
  | nil : Expands c [] []
  | plain {ch : Char} {pieces : List Piece} {u : Text} (h : Expands c pieces u) : Expands c (.plain ch :: pieces) (ch :: u)
  | token {digits : Text} {pieces : List Piece} {i : Nat} {t v u : Text} (hread : Index.read? digits = some i)
      (hget : c.get? i = some t) (hv : Expands c (Token.pieces t) v) (h : Expands c pieces u) :
      Expands c (.token digits :: pieces) (v ++ u)

/-- There is at most one expansion. -/
theorem Expands.unique {c : Contexts} {pieces : List Piece} {u u' : Text} (h : c.Expands pieces u) (h' : c.Expands pieces u') :
    u = u' := by
  induction h generalizing u' with
  | nil =>
    cases h'
    rfl
  | plain _ ih =>
    cases h' with
    | plain h' => rw [ih h']
  | token hread hget _ _ ihv ih =>
    cases h' with
    | token hread' hget' hv' h' =>
      rw [hread, Option.some.injEq] at hread'
      rw [← hread', hget, Option.some.injEq] at hget'
      rw [ihv (hget' ▸ hv'), ih h']

/-- The expansion of a frozen line is what the line means, apart from delimiters. -/
theorem exists_expands {letters : List Char} {goal : Text} {lines : List Line}
    (h : Pool.Frozen letters (fun c => if Source.isDelimiter c then [] else [c]) goal lines) :
    ∃ s u, lines[Index.root]? = some s ∧ (ofTexts (lines.map Line.text)).Expands (Token.pieces (Line.text s)) u ∧
      Source.withoutDelimiters u = goal := by
  obtain ⟨rank, hrank⟩ := h.ranked
  obtain ⟨meaning, hmeaning, hgoal⟩ := h.meant
  have hall : ∀ n i s, rank i < n → lines[i]? = some s →
      ∃ u, (ofTexts (lines.map Line.text)).Expands (Token.pieces (Line.text s)) u ∧ Source.withoutDelimiters u = meaning i := by
    intro n
    induction n with
    | zero => exact fun i s hi => absurd hi (Nat.not_lt_zero _)
    | succ n ih =>
      intro i s hi hs
      have hw := h.within i s hs
      have hpart : ∀ part : Line, part ⊆ s → ∃ u, (ofTexts (lines.map Line.text)).Expands (part.map Mark.piece) u ∧
          Source.withoutDelimiters u = Line.expand (fun c => if Source.isDelimiter c then [] else [c]) meaning part := by
        intro part
        induction part with
        | nil => exact fun _ => ⟨[], .nil, rfl⟩
        | cons m part ihpart =>
          intro hsub
          obtain ⟨u, hu, hequ⟩ := ihpart fun x hx => hsub (List.mem_cons_of_mem _ hx)
          cases m with
          | char ch =>
            refine ⟨ch :: u, .plain hu, ?_⟩
            rw [Line.expand_cons, ← hequ, Source.withoutDelimiters, List.filter_cons, Mark.expand]
            cases Source.isDelimiter ch <;> rfl
          | ref k =>
            have hmem : .ref k ∈ s := hsub (by simp)
            have hk := hw.refs k hmem
            obtain ⟨v, hv, heqv⟩ := ih k lines[k] (by have := hrank i s hs k hmem; omega) (List.getElem?_eq_getElem hk)
            refine ⟨v ++ u, .token (Index.read?_ofNat (Nat.lt_of_lt_of_le hk h.small))
              (get?_eq_some.2 ⟨lines[k], List.getElem?_eq_getElem hk, rfl⟩) hv hu, ?_⟩
            rw [Source.withoutDelimiters_append, heqv, hequ, Line.expand_cons, Mark.expand]
      rw [hw.pieces_eq, hmeaning i s hs]
      exact hpart s (List.Subset.refl s)
  obtain ⟨s, hs⟩ : ∃ s, lines[Index.root]? = some s := ⟨_, List.getElem?_eq_getElem h.rooted⟩
  obtain ⟨u, hu, hequ⟩ := hall _ Index.root s (Nat.lt_succ_self _) hs
  exact ⟨s, u, hs, hu, hequ.trans hgoal⟩

/-- The root of the contexts of a source text has one expansion. Apart from delimiters it is the source text without white space. -/
theorem expands_ofSource {s : RuleSet} {names : List Text} {letters : List Char} {source : Text} {c : Contexts}
    (hletters : Source.declare s names = .ok letters) (he : 'e' ∉ letters) (hsmall : created s letters source ≤ Index.bound)
    (h : ofSource s letters source = .ok c) :
    ∃ t u, c.root? = some t ∧ (∀ v, c.Expands (Token.pieces t) v ↔ v = u) ∧
      Source.withoutDelimiters u = Source.withoutDelimiters (Source.stripBlanks s.functionNames source) ∧
      Source.withoutDelimiters u = Source.withoutDelimiters (source.filter fun ch => !Text.isBlank ch) := by
  have hwrite : ∀ c ∈ ['(', ')', '{', '}'], (if Source.isDelimiter c then [] else [c]) = [] := by
    intro c hc
    simp only [List.mem_cons, List.not_mem_nil, or_false] at hc
    rcases hc with rfl | rfl | rfl | rfl <;> rfl
  obtain ⟨lines, rfl, hfrozen⟩ := exists_frozen hletters hwrite (fun hmem => absurd hmem he) hsmall h
  obtain ⟨line, u, hline, hu, hequ⟩ := exists_expands hfrozen
  rw [← Source.withoutDelimiters_eq_flatMap] at hequ
  refine ⟨Line.text line, u, get?_eq_some.2 ⟨line, hline, rfl⟩, fun v => ⟨fun hv => hv.unique hu, ?_⟩, hequ, ?_⟩
  · rintro rfl
    exact hu
  · rw [hequ, Source.withoutDelimiters_stripBlanks]

theorem expands_ofSource_product : ∃ c t u, ofSource .standard ['x'] "(x+x)*x".toList = .ok c ∧ c.root? = some t ∧
    (∀ v, c.Expands (Token.pieces t) v ↔ v = u) ∧ Source.withoutDelimiters u = "x+x*x".toList := by
  obtain ⟨t, u, hroot, hexpands, -, hsource⟩ := expands_ofSource declare_x (by decide) created_product ofSource_product_eq
  have hplain : Source.withoutDelimiters ("(x+x)*x".toList.filter fun ch => !Text.isBlank ch) = "x+x*x".toList := by decide +kernel
  exact ⟨_, t, u, ofSource_product_eq, hroot, hexpands, hsource.trans hplain⟩

end Contexts

end FormulaDag
