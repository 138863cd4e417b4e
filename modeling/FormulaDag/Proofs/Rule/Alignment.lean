import FormulaDag.Proofs.Pieces
import FormulaDag.RuleSet

/-!
# Matches and tokens

No match of a rule that begins between two pieces of a text ends inside a token: the patterns of rules read tokens whole. So the
pieces of a text that a rule takes up entirely are those of its parts with the words between them, and every index among the
operands is a reference of the text.
-/

namespace FormulaDag

namespace Token

/-- No token begins in a text and ends after it, whatever follows. -/
def IsWhole (u : Text) : Prop := ∀ v, pieces (u ++ v) = pieces u ++ pieces v

/-- The empty text is made of whole pieces. -/
theorem IsWhole.nil : IsWhole [] := fun v => by simp

/-- Two texts in a row are made of whole pieces when both are. -/
theorem IsWhole.append {u v : Text} (hu : IsWhole u) (hv : IsWhole v) : IsWhole (u ++ v) := by
  intro w
  rw [List.append_assoc, hu, hv, hu v, List.append_assoc]

/-- A text without a mark of tokens is made of whole pieces. -/
theorem IsWhole.of_not_mem {u : Text} (h : '@' ∉ u) : IsWhole u := by
  intro v
  rw [pieces_append h, pieces_eq_map h]

/-- The token that a text begins with is whole. -/
theorem IsWhole.of_split? {t digits rest : Text} (h : split? t = some (digits, rest)) :
    IsWhole (Piece.token digits).text := by
  obtain ⟨hne, hd⟩ := digits_of_split? h
  have hs : ∀ v, split? ((Piece.token digits).text ++ v) = some (digits, v) := by
    intro v
    simpa [Piece.text] using split?_digits hne hd v
  intro v
  have h₀ := pieces_of_split? (hs [])
  rw [List.append_nil, pieces_nil] at h₀
  rw [pieces_of_split? (hs v), h₀]
  rfl

end Token

/-- What a prefix leaves of a text is the rest of it. -/
theorem Text.isPrefixOf?_eq_some {w t rest : Text} : w.isPrefixOf? t = some rest ↔ t = w ++ rest := by
  induction w generalizing t with
  | nil => simp [List.isPrefixOf?]
  | cons c w ih =>
    cases t with
    | nil => simp [List.isPrefixOf?]
    | cons d t =>
      by_cases hcd : c = d
      · simp [List.isPrefixOf?, hcd, ih]
      · simp [List.isPrefixOf?, hcd, Ne.symm hcd]

namespace Pattern

/-- A hit of a sequence is one of its first pattern followed by one of its second. -/
theorem mem_hits_sequence {p q : Pattern} {t : Text} {h : Hit} (hh : h ∈ hits (.sequence p q) t) :
    ∃ k ∈ hits p t, ∃ l ∈ hits q k.rest, h = ⟨k.taken ++ l.taken, l.rest, k.parts ++ l.parts⟩ := by
  simp only [hits, List.mem_flatMap, List.mem_map] at hh
  obtain ⟨k, hk, l, hl, rfl⟩ := hh
  exact ⟨k, hk, l, hl, rfl⟩

/-- A literal takes its own text from the front. -/
theorem mem_hits_literal {w t : Text} {h : Hit} (hh : h ∈ hits (.literal w) t) :
    t = w ++ h.rest ∧ h.taken = w ∧ h.parts = [] := by
  simp only [hits] at hh
  split at hh
  · rename_i rest hr
    rw [List.mem_singleton] at hh
    subst hh
    exact ⟨Text.isPrefixOf?_eq_some.1 hr, rfl, rfl⟩
  · simp at hh

/-- A run takes all characters from the front that it accepts, at least one. -/
theorem mem_hits_run {accepts : Char → Bool} {t : Text} {h : Hit} (hh : h ∈ hits (.run accepts) t) :
    h.taken = t.takeWhile accepts ∧ h.taken ≠ [] ∧ h.rest = t.dropWhile accepts ∧ h.parts = [] := by
  simp only [hits] at hh
  split at hh
  · simp at hh
  · rename_i c cs hc
    rw [List.mem_singleton] at hh
    subst hh
    exact ⟨hc.symm, by simp, rfl, rfl⟩

/-- A pattern of one character takes the first one if it accepts it. -/
theorem mem_hits_oneOf {accepts : Char → Bool} {t : Text} {h : Hit} (hh : h ∈ hits (.oneOf accepts) t) :
    ∃ c, accepts c = true ∧ h.taken = [c] ∧ h.parts = [] ∧ t = c :: h.rest := by
  simp only [hits] at hh
  split at hh
  · rename_i c rest
    split at hh
    · rename_i hc
      rw [List.mem_singleton.1 hh]
      exact ⟨c, hc, rfl, rfl, rfl⟩
    · cases hh
  · cases hh

/-- The pattern of a token takes the token at the front. -/
theorem hits_token_of_split? {t digits rest : Text} (h : Token.split? t = some (digits, rest)) :
    hits token t = [⟨(Piece.token digits).text, rest, []⟩] := by
  obtain ⟨hne, hd⟩ := Token.digits_of_split? h
  obtain ⟨d, ds, rfl⟩ := List.exists_cons_of_ne_nil hne
  have ht : (d :: ds ++ '/' :: '@' :: rest).takeWhile Text.isDecimalDigit = d :: ds := by
    rw [List.takeWhile_append_of_pos hd]
    simp [show Text.isDecimalDigit '/' = false by decide]
  have hr : (d :: ds ++ '/' :: '@' :: rest).dropWhile Text.isDecimalDigit = '/' :: '@' :: rest := by
    rw [List.dropWhile_append_of_pos hd]
    simp [show Text.isDecimalDigit '/' = false by decide]
  have hw : hits (word "@/") ('@' :: '/' :: (d :: ds ++ '/' :: '@' :: rest)) =
      [⟨"@/".toList, d :: ds ++ '/' :: '@' :: rest, []⟩] := rfl
  have hc : hits (word "/@") ('/' :: '@' :: rest) = [⟨"/@".toList, rest, []⟩] := rfl
  have hrun : hits (run Text.isDecimalDigit) (d :: ds ++ '/' :: '@' :: rest) = [⟨d :: ds, '/' :: '@' :: rest, []⟩] := by
    simp only [hits, ht, hr]
  rw [Token.split?_eq_some h]
  change hits (.sequence (.sequence (word "@/") (run Text.isDecimalDigit)) (word "/@")) _ = _
  rw [hits, hits]
  simp only [List.cons_append] at hw hrun ⊢
  rw [hw]
  simp only [List.flatMap_cons, List.flatMap_nil, List.append_nil, hrun, List.map_cons, List.map_nil, hc]
  rfl

/-- What the pattern of a token takes is the token at the front. -/
theorem split?_of_mem_hits_token {t : Text} {h : Hit} (hh : h ∈ hits token t) :
    ∃ digits, Token.split? t = some (digits, h.rest) ∧ h.taken = (Piece.token digits).text ∧ h.parts = [] := by
  obtain ⟨k, hk, l, hl, rfl⟩ := mem_hits_sequence hh
  obtain ⟨m, hm, n, hn, rfl⟩ := mem_hits_sequence hk
  obtain ⟨rfl, hmt, hmp⟩ := mem_hits_literal hm
  obtain ⟨hnt, hne, hnr, hnp⟩ := mem_hits_run hn
  obtain ⟨hlr, hlt, hlp⟩ := mem_hits_literal hl
  have hrest : m.rest = n.taken ++ n.rest := by
    rw [hnt, hnr, List.takeWhile_append_dropWhile]
  simp only at hlr
  have hd : ∀ c ∈ n.taken, Text.isDecimalDigit c = true := by
    intro c hc
    rw [hnt] at hc
    exact List.all_eq_true.1 List.all_takeWhile c hc
  refine ⟨n.taken, ?_, by simp [hmt, hlt, Piece.text], by simp [hmp, hnp, hlp]⟩
  rw [hrest, hlr]
  exact Token.split?_digits hne hd l.rest

/-- A pattern that reads tokens whole: the first character of a token occurs in it as part of a token only. -/
inductive IsAligned : Pattern → Prop where
  | token : IsAligned token
  | literal {w : Text} (h : '@' ∉ w) : IsAligned (.literal w)
  | oneOf {accepts : Char → Bool} (h : accepts '@' = false) : IsAligned (.oneOf accepts)
  | run {accepts : Char → Bool} (h : accepts '@' = false) : IsAligned (.run accepts)
  | sequence {p q : Pattern} (hp : IsAligned p) (hq : IsAligned q) : IsAligned (.sequence p q)
  | either {p q : Pattern} (hp : IsAligned p) (hq : IsAligned q) : IsAligned (.either p q)
  | optional {p : Pattern} (hp : IsAligned p) : IsAligned (.optional p)
  | named {name : String} {p : Pattern} (hp : IsAligned p) : IsAligned (.named name p)

/-- A match of an aligned pattern divides the text without cutting a token, and so do the parts of the match. -/
theorem IsAligned.hit {p : Pattern} (hp : p.IsAligned) {t : Text} {h : Hit} (hh : h ∈ hits p t) :
    t = h.taken ++ h.rest ∧ Token.IsWhole h.taken ∧
      ∀ e ∈ h.parts, Token.pieces e.2 <:+: Token.pieces h.taken := by
  induction hp generalizing t h with
  | token =>
    obtain ⟨digits, hs, ht, hparts⟩ := split?_of_mem_hits_token hh
    refine ⟨?_, ht ▸ Token.IsWhole.of_split? hs, by simp [hparts]⟩
    rw [Token.split?_eq_some hs, ht]
    simp [Piece.text]
  | literal hw =>
    obtain ⟨ht, htaken, hparts⟩ := mem_hits_literal hh
    exact ⟨htaken ▸ ht, htaken ▸ Token.IsWhole.of_not_mem hw, by simp [hparts]⟩
  | @oneOf accepts ha =>
    obtain ⟨c, hc, htaken, hparts, ht⟩ := mem_hits_oneOf hh
    have hne : '@' ∉ [c] := by
      rw [List.mem_singleton]
      rintro rfl
      rw [ha] at hc
      cases hc
    exact ⟨by rw [htaken, List.singleton_append, ← ht], htaken ▸ Token.IsWhole.of_not_mem hne, by simp [hparts]⟩
  | @run accepts ha =>
    obtain ⟨ht, -, hr, hparts⟩ := mem_hits_run hh
    refine ⟨by rw [ht, hr, List.takeWhile_append_dropWhile], ?_, by simp [hparts]⟩
    refine Token.IsWhole.of_not_mem fun hmem => ?_
    rw [ht] at hmem
    have := List.all_eq_true.1 List.all_takeWhile _ hmem
    rw [ha] at this
    simp at this
  | sequence hp hq ihp ihq =>
    obtain ⟨k, hk, l, hl, rfl⟩ := mem_hits_sequence hh
    obtain ⟨hkt, hkw, hkp⟩ := ihp hk
    obtain ⟨hlt, hlw, hlp⟩ := ihq hl
    refine ⟨by rw [List.append_assoc, ← hlt, ← hkt], hkw.append hlw, fun e he => ?_⟩
    simp only [hkw l.taken]
    rcases List.mem_append.1 he with he | he
    · exact (hkp e he).trans (List.prefix_append _ _).isInfix
    · exact (hlp e he).trans (List.suffix_append _ _).isInfix
  | either hp hq ihp ihq =>
    simp only [hits, List.mem_append] at hh
    exact hh.elim (fun hh => ihp hh) (fun hh => ihq hh)
  | optional hp ih =>
    simp only [hits, List.mem_append, List.mem_singleton] at hh
    rcases hh with hh | rfl
    · exact ih hh
    · exact ⟨rfl, Token.IsWhole.nil, by simp⟩
  | named hp ih =>
    simp only [hits, List.mem_map] at hh
    obtain ⟨k, hk, rfl⟩ := hh
    obtain ⟨hkt, hkw, hkp⟩ := ih hk
    refine ⟨hkt, hkw, fun e he => ?_⟩
    rcases List.mem_cons.1 he with rfl | he
    · exact List.infix_rfl
    · exact hkp e he

/-- A choice of words without the mark of tokens does not end within a token. -/
theorem IsAligned.anyWord {words : List String} (h : ∀ w ∈ words, '@' ∉ w.toList) : (Pattern.anyWord words).IsAligned := by
  induction words with
  | nil => exact .oneOf rfl
  | cons w more ih =>
    have hw := h w (by simp)
    cases more with
    | nil => exact .literal hw
    | cons v more => exact .either (.literal hw) (ih fun u hu => h u (List.mem_cons_of_mem _ hu))

/-- A numeral does not end within a token. -/
theorem IsAligned.numeral : Pattern.numeral.IsAligned := .run (by decide)

end Pattern

namespace Rule

/-- The patterns of the standard rules are aligned. -/
theorem isAligned_standard : ∀ r ∈ standard, r.pattern.IsAligned := by
  have hword : ∀ s : String, '@' ∉ s.toList → (Pattern.word s).IsAligned := fun s h => .literal h
  have hroot : root.pattern.IsAligned :=
    .sequence (.sequence (hword _ (by decide)) (.optional (.sequence (.sequence (hword _ (by decide)) (.named .token))
      (hword _ (by decide))))) (.named .token)
  have hfraction : fraction.pattern.IsAligned :=
    .sequence (.sequence (hword _ (by decide)) (.named .token)) (.named .token)
  have hlogarithm : logarithm.pattern.IsAligned :=
    .sequence (.sequence (.sequence (hword _ (by decide)) (.named (.anyWord (by decide))))
      (.optional (.sequence (hword _ (by decide)) (.named (.either .token .numeral))))) (.named .token)
  have htrigonometry : trigonometry.pattern.IsAligned :=
    .sequence (.sequence (hword _ (by decide)) (.named (.anyWord (by decide)))) (.named .token)
  have hinverse : inverseTrigonometry.pattern.IsAligned :=
    .sequence (.sequence (hword _ (by decide)) (.named (.anyWord (by decide)))) (.named .token)
  have hpower : power.pattern.IsAligned :=
    .sequence (.sequence (.named (.either .token (.either (.sequence (hword _ (by decide)) (.anyWord (by decide)))
      (.either .numeral (.oneOf (by decide)))))) (hword _ (by decide))) (.named (.either .token (.oneOf (by decide))))
  have hnumber : number.pattern.IsAligned := .named .numeral
  intro r hr
  simp only [standard, List.mem_cons, List.not_mem_nil, or_false] at hr
  rcases hr with rfl | rfl | rfl | rfl | rfl | rfl | rfl <;> assumption

end Rule

/-- The first character of a token is no letter, so no name of a function has it. -/
theorem UserFunction.at_not_mem_name (f : UserFunction) : '@' ∉ f.name := by
  intro h
  have := List.all_eq_true.1 f.letters _ h
  simp at this

/-- The rule of a function does not end within a token. -/
theorem UserFunction.isAligned_rule (f : UserFunction) : f.rule.pattern.IsAligned :=
  .sequence (.sequence (.optional (.literal (by decide))) (.literal f.at_not_mem_name)) (.named .token)

/-- No rule of a rule set ends within a token. -/
theorem RuleSet.isAligned (s : RuleSet) : ∀ r ∈ s.rules, r.pattern.IsAligned := by
  intro r hr
  simp only [RuleSet.rules, List.mem_append, List.mem_map] at hr
  rcases hr with ⟨f, -, rfl⟩ | hr
  · exact f.isAligned_rule
  · exact Rule.isAligned_standard r hr

end FormulaDag
