import FormulaDag.Proofs.Pieces

/-!
# Texts that differ in their indices only

Two texts are renamed into each other when they have the same characters outside of tokens and, in the same places, tokens of related
indices, however the numbers are written. What a text looks like between its tokens is then the same for both: how it begins, which runs
of characters it has, whether it is a single token and which indices it refers to.
-/

namespace FormulaDag.Token

/-- Two texts that are the same apart from the indices in their tokens, which are related. -/
inductive Renamed (ρ : Nat → Nat → Prop) : Text → Text → Prop where
  | nil : Renamed ρ [] []
  | plain {c : Char} {u u' : Text} (h : split? (c :: u) = none) (h' : split? (c :: u') = none) (rest : Renamed ρ u u') :
      Renamed ρ (c :: u) (c :: u')
  | token {t t' digits digits' u u' : Text} {i j : Nat} (h : split? t = some (digits, u)) (h' : split? t' = some (digits', u'))
      (hread : Index.read? digits = some i) (hread' : Index.read? digits' = some j) (hij : ρ i j) (rest : Renamed ρ u u') :
      Renamed ρ t t'

/-- Two pieces that are the same character or tokens of related indices. -/
inductive RenamedPiece (ρ : Nat → Nat → Prop) : Piece → Piece → Prop where
  | plain (c : Char) : RenamedPiece ρ (.plain c) (.plain c)
  | token {digits digits' : Text} {i j : Nat} (hread : Index.read? digits = some i) (hread' : Index.read? digits' = some j)
      (hij : ρ i j) : RenamedPiece ρ (.token digits) (.token digits')

section
variable {ρ σ : Nat → Nat → Prop} {t t' u u' v v' : Text}

theorem exists_cons_of_split? {digits : Text} (h : split? t = some (digits, u)) : ∃ w, t = '@' :: w :=
  ⟨_, split?_eq_some h⟩

/-- The numerals of a text begin with the token at its front. -/
theorem numerals_of_split? {digits : Text} (h : split? t = some (digits, u)) : numerals t = digits :: numerals u := by
  rw [numerals, pieces_of_split? h]
  rfl

theorem numerals_of_split?_eq_none {c : Char} (h : split? (c :: u) = none) : numerals (c :: u) = numerals u := by
  rw [numerals, pieces_of_split?_eq_none h]
  rfl

/-- Texts are renamed into each other piece by piece. -/
theorem renamed_iff : Renamed ρ t t' ↔ List.Forall₂ (RenamedPiece ρ) (pieces t) (pieces t') := by
  constructor
  · intro h
    induction h with
    | nil =>
      rw [pieces_nil]
      exact .nil
    | plain h h' rest ih =>
      rw [pieces_of_split?_eq_none h, pieces_of_split?_eq_none h']
      exact .cons (.plain _) ih
    | token h h' hread hread' hij rest ih =>
      rw [pieces_of_split? h, pieces_of_split? h']
      exact .cons (.token hread hread' hij) ih
  · intro h
    induction t using pieces.induct generalizing t' with
    | case1 t digits u hs ih =>
      rw [pieces_of_split? hs] at h
      obtain ⟨piece, l, hpiece, hl, heq⟩ := List.forall₂_cons_left_iff.1 h
      cases hpiece with
      | token hread hread' hij =>
        obtain ⟨u', hs', rfl⟩ := split?_of_pieces heq
        exact .token hs hs' hread hread' hij (ih hl)
    | case2 hs =>
      rw [pieces_nil, List.forall₂_nil_left_iff] at h
      obtain rfl := pieces_eq_nil h
      exact .nil
    | case3 c u hs ih =>
      rw [pieces_of_split?_eq_none hs] at h
      obtain ⟨piece, l, hpiece, hl, heq⟩ := List.forall₂_cons_left_iff.1 h
      cases hpiece with
      | plain =>
        obtain ⟨u', rfl, hs', rfl⟩ := cons_of_pieces heq
        exact .plain hs hs' (ih hl)

/-- A text is renamed back by the converse relation. -/
theorem Renamed.symm (h : Renamed ρ t t') : Renamed (fun i j => ρ j i) t' t := by
  induction h with
  | nil => exact .nil
  | plain h h' rest ih => exact .plain h' h ih
  | token h h' hread hread' hij rest ih => exact .token h' h hread' hread hij ih

/-- A text that is renamed twice is renamed by the composed relation. -/
theorem Renamed.trans (h : Renamed ρ t u) (h' : Renamed σ u v) : Renamed (Relation.Comp ρ σ) t v := by
  induction h generalizing v with
  | nil =>
    cases h' with
    | nil => exact .nil
    | token hs => simp [split?] at hs
  | plain hs hs' rest ih =>
    cases h' with
    | plain _ hs'' rest' => exact .plain hs hs'' (ih rest')
    | token hs'' => rw [hs'] at hs''; cases hs''
  | token hs hs' hread hread' hij rest ih =>
    cases h' with
    | nil => simp [split?] at hs'
    | plain hs'' => rw [hs'] at hs''; cases hs''
    | token hs'' hs₃ hread'' hread₃ hjk rest' =>
      rw [hs'] at hs''
      obtain ⟨rfl, rfl⟩ := Prod.mk.inj (Option.some.inj hs'')
      rw [hread'] at hread''
      obtain rfl := Option.some.inj hread''
      exact .token hs hs₃ hread hread₃ ⟨_, hij, hjk⟩ (ih rest')

/-- Renaming keeps the first character. -/
theorem Renamed.head? (h : Renamed ρ t t') : t.head? = t'.head? := by
  cases h with
  | nil => rfl
  | plain => rfl
  | token h h' =>
    obtain ⟨w, rfl⟩ := exists_cons_of_split? h
    obtain ⟨w', rfl⟩ := exists_cons_of_split? h'
    rfl

/-- Two texts that begin with a character outside of tokens begin with the same one. -/
theorem Renamed.cons {c : Char} (hc : c ≠ '@') (h : Renamed ρ (c :: u) t') : ∃ u', t' = c :: u' ∧ Renamed ρ u u' := by
  cases h with
  | plain _ _ rest => exact ⟨_, rfl, rest⟩
  | token h => rw [split?_of_ne hc] at h; cases h

/-- Renaming keeps a front without tokens. -/
theorem Renamed.prefix (hu : '@' ∉ u) (h : Renamed ρ (u ++ v) t') : ∃ v', t' = u ++ v' ∧ Renamed ρ v v' := by
  induction u generalizing t' with
  | nil => exact ⟨t', rfl, h⟩
  | cons c u ih =>
    obtain ⟨hc, hu⟩ := not_or.1 (mt List.mem_cons.2 hu)
    obtain ⟨w, rfl, hw⟩ := h.cons (Ne.symm hc)
    obtain ⟨v', rfl, hv⟩ := ih hu hw
    exact ⟨v', rfl, hv⟩

/-- A text without the first character of a token is renamed into itself only. -/
theorem Renamed.eq_of_not_mem (hu : '@' ∉ u) (h : Renamed ρ u t') : t' = u := by
  obtain ⟨v', rfl, hv⟩ := Renamed.prefix (v := []) hu (by rwa [List.append_nil])
  cases hv with
  | nil => rw [List.append_nil]
  | token hs => simp [split?] at hs

/-- A text without tokens is renamed to itself. -/
theorem Renamed.of_not_mem (hu : '@' ∉ u) : Renamed ρ u u := by
  induction u with
  | nil => exact .nil
  | cons c u ih =>
    obtain ⟨hc, hu⟩ := not_or.1 (mt List.mem_cons.2 hu)
    exact .plain (split?_of_ne (Ne.symm hc) _) (split?_of_ne (Ne.symm hc) _) (ih hu)

theorem at_not_mem_digits {digits : Text} (h : split? t = some (digits, u)) : '@' ∉ digits := by
  intro hmem
  have := (digits_of_split? h).2 '@' hmem
  exact absurd this (by decide)

/-- The digits of a token that is an index are ASCII digits. -/
theorem isDigit_of_split? {digits : Text} {i : Nat} (h : split? t = some (digits, u)) (hread : Index.read? digits = some i) :
    ∀ c ∈ digits, c.isDigit = true := by
  have hplus : Index.withoutPlus digits = digits := by
    unfold Index.withoutPlus
    split
    · have := (digits_of_split? h).2 '+' (by simp)
      exact absurd this (by decide)
    · rfl
  rw [Index.read?, hplus, Index.ofDigits?] at hread
  split at hread
  · rename_i hdigits
    exact List.all_eq_true.1 hdigits.2.1
  · cases hread

/-- The first character of a token before two texts begins a token with the same digits in both or in neither. The rest behind that
token need not begin where a piece does: its last character may begin a token of its own. -/
theorem Renamed.exists_split? {digits : Text} (h : Renamed ρ u u') (hs : split? ('@' :: u) = some (digits, v)) :
    ∃ v', split? ('@' :: u') = some (digits, v') ∧ Renamed ρ ('@' :: v) ('@' :: v') := by
  have hu : u = ('/' :: (digits ++ ['/'])) ++ '@' :: v := by
    have := split?_eq_some hs
    simp only [List.cons_append, List.cons.injEq, true_and] at this
    simp [this]
  have hprefix : '@' ∉ '/' :: (digits ++ ['/']) := by simp [at_not_mem_digits hs]
  obtain ⟨w, rfl, hw⟩ := Renamed.prefix hprefix (hu ▸ h)
  obtain ⟨v', rfl⟩ : ∃ v', w = '@' :: v' := by
    have hhead := hw.head?
    cases w with
    | nil => simp at hhead
    | cons c v' =>
      simp only [List.head?_cons, Option.some.injEq] at hhead
      exact ⟨v', hhead ▸ rfl⟩
  obtain ⟨hne, hd⟩ := digits_of_split? hs
  refine ⟨v', ?_, hw⟩
  simpa using split?_digits hne hd v'

theorem Renamed.split?_eq_none (h : Renamed ρ u u') (hs : split? ('@' :: u) = none) : split? ('@' :: u') = none := by
  cases hs' : split? ('@' :: u') with
  | none => rfl
  | some split =>
    obtain ⟨v, hv, -⟩ := h.symm.exists_split? hs'
    rw [hs] at hv
    cases hv

/-- A character that begins no token may be put before both texts. -/
theorem Renamed.cons_plain {c : Char} (h : Renamed ρ u u') (hs : split? (c :: u) = none) : Renamed ρ (c :: u) (c :: u') := by
  by_cases hc : c = '@'
  · subst hc
    exact .plain hs (h.split?_eq_none hs) h
  · exact .plain hs (split?_of_ne hc _) h

/-- Runs of characters are the same in both texts. -/
theorem Renamed.run {p : Char → Bool} (hp : p '@' = false) (h : Renamed ρ t t') :
    t'.takeWhile p = t.takeWhile p ∧ Renamed ρ (t.dropWhile p) (t'.dropWhile p) := by
  induction h with
  | nil => exact ⟨rfl, .nil⟩
  | @plain c u u' hs hs' rest ih =>
    cases hc : p c with
    | true => simp only [List.takeWhile_cons, List.dropWhile_cons, hc, if_true, ih.1, ih.2, and_self]
    | false =>
      simp only [List.takeWhile_cons, List.dropWhile_cons, hc]
      exact ⟨rfl, .plain hs hs' rest⟩
  | token hs hs' hread hread' hij rest ih =>
    obtain ⟨w, rfl⟩ := exists_cons_of_split? hs
    obtain ⟨w', rfl⟩ := exists_cons_of_split? hs'
    simp only [List.takeWhile_cons, List.dropWhile_cons, hp]
    exact ⟨rfl, .token hs hs' hread hread' hij rest⟩

/-- Two texts in a row are renamed when both are and no token spans them. -/
theorem Renamed.append (hu : ∀ v, pieces (u ++ v) = pieces u ++ pieces v) (hu' : ∀ v, pieces (u' ++ v) = pieces u' ++ pieces v)
    (h : Renamed ρ u u') (h' : Renamed ρ v v') : Renamed ρ (u ++ v) (u' ++ v') := by
  rw [renamed_iff, hu, hu']
  exact List.rel_append (renamed_iff.1 h) (renamed_iff.1 h')

/-- A text that is a single token is renamed into a single token. -/
theorem Renamed.only? (h : Renamed ρ t t') : Option.Rel ρ (only? t) (only? t') := by
  cases h with
  | nil => exact .none
  | plain hs hs' rest =>
    rw [Token.only?, Token.only?, hs, hs']
    exact .none
  | token hs hs' hread hread' hij rest =>
    rw [Token.only?, Token.only?, hs, hs']
    cases rest with
    | nil =>
      simp only [hread, hread']
      exact .some hij
    | plain => exact .none
    | @token u u' _ _ _ _ _ _ hs hs' =>
      obtain ⟨w, rfl⟩ := exists_cons_of_split? hs
      obtain ⟨w', rfl⟩ := exists_cons_of_split? hs'
      exact .none

/-- Every number in one of the texts has a counterpart in the other. -/
theorem Renamed.exists_numeral (h : Renamed ρ t t') {number : Text} (hn : number ∈ numerals t') :
    ∃ number₀ ∈ numerals t, ∃ i j, Index.read? number₀ = some i ∧ Index.read? number = some j ∧ ρ i j := by
  induction h with
  | nil => simp [numerals] at hn
  | plain hs hs' rest ih =>
    rw [numerals_of_split?_eq_none hs'] at hn
    rw [numerals_of_split?_eq_none hs]
    exact ih hn
  | @token t t' digits digits' u u' i j hs hs' hread hread' hij rest ih =>
    rw [numerals_of_split? hs'] at hn
    rw [numerals_of_split? hs]
    rcases List.mem_cons.1 hn with rfl | hn
    · exact ⟨digits, by simp, i, j, hread, hread', hij⟩
    · obtain ⟨number₀, hmem, hrest⟩ := ih hn
      exact ⟨number₀, List.mem_cons_of_mem _ hmem, hrest⟩

end

/-- A reference of the renamed text is the new name of one. -/
theorem Renamed.exists_reference {ρ : Nat → Nat → Prop} {t t' : Text} (h : Renamed ρ t t') {j : Nat} (hj : j ∈ Token.references t') :
    ∃ i ∈ Token.references t, ρ i j := by
  simp only [Token.references, List.mem_eraseDups, List.mem_filterMap] at hj ⊢
  obtain ⟨number, hnumber, hread⟩ := hj
  obtain ⟨number₀, hnumber₀, i, j', hread₀, hread', hij⟩ := h.exists_numeral hnumber
  rw [hread] at hread'
  exact ⟨i, ⟨number₀, hnumber₀, hread₀⟩, Option.some.inj hread' ▸ hij⟩

/-- Keeping the first of every group of equal elements keeps related elements, if the relation tells them apart. -/
theorem forall₂_eraseDups {ρ : Nat → Nat → Prop} (hρ : Relator.BiUnique ρ) {l l' : List Nat} (h : List.Forall₂ ρ l l') :
    List.Forall₂ ρ l.eraseDups l'.eraseDups := by
  induction hn : l.length using Nat.strong_induction_on generalizing l l' with
  | _ n ih =>
    subst hn
    cases h with
    | nil => exact .nil
    | @cons i j l l' hij hrest =>
      rw [List.eraseDups_cons, List.eraseDups_cons]
      have hfilter : List.Forall₂ ρ (l.filter fun k => !k == i) (l'.filter fun k => !k == j) := by
        refine List.rel_filter (fun k k' hk => ?_) hrest
        have hiff : k = i ↔ k' = j := ⟨fun heq => hρ.2 (heq ▸ hk) hij, fun heq => hρ.1 (heq ▸ hk) hij⟩
        simp [hiff]
      refine .cons hij (ih _ ?_ hfilter rfl)
      exact Nat.lt_succ_of_le (List.length_filter_le _ _)

/-- Texts that are renamed into each other refer to related indices in the same order. -/
theorem Renamed.references {ρ : Nat → Nat → Prop} (hρ : Relator.BiUnique ρ) {t t' : Text} (h : Renamed ρ t t') :
    List.Forall₂ ρ (references t) (references t') := by
  refine forall₂_eraseDups hρ ?_
  induction h with
  | nil => simp [numerals]
  | plain hs hs' rest ih =>
    rw [numerals_of_split?_eq_none hs, numerals_of_split?_eq_none hs']
    exact ih
  | token hs hs' hread hread' hij rest ih =>
    rw [numerals_of_split? hs, numerals_of_split? hs']
    simp only [List.filterMap_cons, hread, hread']
    exact .cons hij ih

/-- Replacing every index renames a text. -/
theorem renamed_mapIndices {t : Text} {f : Nat → Nat} {known : Nat → Prop}
    (h : ∀ number ∈ numerals t, ∃ i, known i ∧ f i < Index.bound ∧ Index.read? number = some i) :
    Renamed (fun i j => known i ∧ j = f i) t (mapIndices f t) := by
  induction t using pieces.induct with
  | case1 t digits u hs ih =>
    rw [numerals_of_split? hs] at h
    obtain ⟨i, hi, hbound, hread⟩ := h digits (by simp)
    have hmap : mapIndices f t = Index.token (f i) ++ mapIndices f u := by
      rw [mapIndices, pieces_of_split? hs, List.flatMap_cons, mapPiece, hread]
      rfl
    rw [hmap]
    exact .token hs (split?_token _ _) hread (Index.read?_ofNat hbound) ⟨hi, rfl⟩
      (ih fun number hn => h number (List.mem_cons_of_mem _ hn))
  | case2 hs =>
    rw [mapIndices, pieces_nil]
    exact .nil
  | case3 c u hs ih =>
    rw [numerals_of_split?_eq_none hs] at h
    have hmap : mapIndices f (c :: u) = c :: mapIndices f u := by
      rw [mapIndices, pieces_of_split?_eq_none hs]
      rfl
    rw [hmap]
    exact (ih h).cons_plain hs

/-- A text in which every number is an index is renamed into itself. -/
theorem renamed_self {t : Text} {known : Nat → Prop} (h : ∀ number ∈ numerals t, ∃ i, known i ∧ Index.read? number = some i) :
    Renamed (fun i j => known i ∧ j = i) t t := by
  induction t using pieces.induct with
  | case1 t digits u hs ih =>
    rw [numerals_of_split? hs] at h
    obtain ⟨i, hi, hread⟩ := h digits (by simp)
    exact .token hs hs hread hread ⟨hi, rfl⟩
      (ih fun number hn => h number (List.mem_cons_of_mem _ hn))
  | case2 hs => exact .nil
  | case3 c u hs ih =>
    rw [numerals_of_split?_eq_none hs] at h
    exact .plain hs hs (ih h)

end FormulaDag.Token
