import FormulaDag.Proofs.Rule.Binding
import FormulaDag.Proofs.Rule.Calls

/-!
# Letters in whole texts

A text that a rule takes up as a whole has no unprotected letter, unless it is the power of one: the other letters belong to a command word
or to the name of a function. So binding changes no more in it than the base of a power, and it stays a whole occurrence.
-/

namespace FormulaDag

namespace Pattern

/-- A pattern that takes in no letters. -/
def Quiet (p : Pattern) : Prop := ∀ t, ∀ h ∈ p.hits t, ∀ c ∈ h.taken, c.isAlpha = false

/-- A pattern that takes in nothing but letters. -/
def Wordy (p : Pattern) : Prop := ∀ t, ∀ h ∈ p.hits t, ∀ c ∈ h.taken, c.isAlpha = true

/-- A pattern that takes in a command word and no letters behind it. -/
def Commands (p : Pattern) : Prop := ∀ t, ∀ h ∈ p.hits t, ∃ word rest : Text,
  h.taken = '\\' :: (word ++ rest) ∧ (∀ c ∈ word, c.isAlpha = true) ∧ ∀ c ∈ rest, c.isAlpha = false

section
variable {p q : Pattern}

/-- A literal without letters is quiet. -/
theorem Quiet.literal {w : Text} (h : ∀ c ∈ w, c.isAlpha = false) : (literal w).Quiet := by
  intro t k hk
  rw [(mem_hits_literal hk).2.1]
  exact h

/-- A run without letters is quiet. -/
theorem Quiet.run {accepts : Char → Bool} (h : ∀ c, accepts c = true → c.isAlpha = false) : (run accepts).Quiet := by
  intro t k hk c hc
  rw [(mem_hits_run hk).1] at hc
  exact h c (List.all_eq_true.1 List.all_takeWhile c hc)

/-- A pattern of one character that is no letter is quiet. -/
theorem Quiet.oneOf {accepts : Char → Bool} (h : ∀ c, accepts c = true → c.isAlpha = false) : (oneOf accepts).Quiet := by
  intro t k hk c hc
  simp only [hits] at hk
  split at hk
  · split at hk
    · rename_i hd
      rw [List.mem_singleton.1 hk, List.mem_singleton] at hc
      exact hc ▸ h _ hd
    · cases hk
  · cases hk

/-- A sequence of quiet patterns is quiet. -/
theorem Quiet.sequence (hp : p.Quiet) (hq : q.Quiet) : (Pattern.sequence p q).Quiet := by
  intro t h hh c hc
  obtain ⟨k, hk, l, hl, rfl⟩ := mem_hits_sequence hh
  exact (List.mem_append.1 hc).elim (hp t k hk c) (hq k.rest l hl c)

/-- A choice of quiet patterns is quiet. -/
theorem Quiet.either (hp : p.Quiet) (hq : q.Quiet) : (Pattern.either p q).Quiet := by
  intro t h hh
  rw [hits, List.mem_append] at hh
  exact hh.elim (hp t h) (hq t h)

/-- An optional quiet pattern is quiet. -/
theorem Quiet.optional (hp : p.Quiet) : (Pattern.optional p).Quiet := by
  intro t h hh
  rw [hits, List.mem_append, List.mem_singleton] at hh
  rcases hh with hh | rfl
  · exact hp t h hh
  · simp

/-- A named quiet pattern is quiet. -/
theorem Quiet.named {name : String} (hp : p.Quiet) : (Pattern.named name p).Quiet := by
  intro t h hh
  obtain ⟨k, hk, rfl⟩ := List.mem_map.1 hh
  exact hp t k hk

/-- The pattern of a token is quiet. -/
theorem Quiet.token : token.Quiet := by
  have hdigits : (Pattern.run Text.isDecimalDigit).Quiet := .run fun c hc => by
    by_contra hletter
    rw [Text.not_isDecimalDigit_of_isAlpha (by simpa using hletter)] at hc
    cases hc
  exact .sequence (.sequence (.literal (by simp)) hdigits) (.literal (by simp))

/-- A numeral is quiet. -/
theorem Quiet.numeral : numeral.Quiet := .run fun c hc => by
  rw [Bool.or_eq_true, beq_iff_eq] at hc
  rcases hc with hc | rfl
  · exact Text.not_isAlpha_of_isDigit hc
  · rfl

/-- A choice of words takes words. -/
theorem Wordy.anyWord {words : List String} (h : ∀ w ∈ words, ∀ c ∈ w.toList, c.isAlpha = true) : (anyWord words).Wordy := by
  have hword : ∀ w : String, (∀ c ∈ w.toList, c.isAlpha = true) → (word w).Wordy := by
    intro w hw t k hk
    rw [(mem_hits_literal hk).2.1]
    exact hw
  fun_induction Pattern.anyWord words with
  | case1 =>
    intro t k hk
    simp only [hits] at hk
    split at hk
    · simp at hk
    · cases hk
  | case2 s => exact hword s (h s (by simp))
  | case3 s more hmore ih =>
    intro t k hk
    rw [hits, List.mem_append] at hk
    exact hk.elim (hword s (h s (by simp)) t k) (ih (fun w hw => h w (List.mem_cons_of_mem _ hw)) t k)

theorem Wordy.named {name : String} (hp : p.Wordy) : (Pattern.named name p).Wordy := by
  intro t h hh
  obtain ⟨k, hk, rfl⟩ := List.mem_map.1 hh
  exact hp t k hk

/-- A backslash with a word takes a command. -/
theorem Commands.literal {s : String} (w : String) (hs : s.toList = '\\' :: w.toList) (h : ∀ c ∈ w.toList, c.isAlpha = true) :
    (word s).Commands := by
  intro t k hk
  exact ⟨w.toList, [], by rw [(mem_hits_literal hk).2.1, List.append_nil, hs], h, by simp⟩

/-- A backslash in front of nothing but letters. -/
theorem Wordy.exists_word (hp : p.Wordy) {t : Text} {h : Hit} (hh : h ∈ (Pattern.sequence (.word "\\") p).hits t) :
    ∃ word : Text, h.taken = '\\' :: word ∧ ∀ c ∈ word, c.isAlpha = true := by
  obtain ⟨k, hk, l, hl, rfl⟩ := mem_hits_sequence hh
  have hsign : k.taken = ['\\'] := (mem_hits_literal hk).2.1
  exact ⟨l.taken, by simp [hsign], hp _ l hl⟩

/-- A backslash before a pattern of words takes a command. -/
theorem Commands.word (hp : p.Wordy) : (Pattern.sequence (.word "\\") p).Commands := by
  intro t h hh
  obtain ⟨word, heq, hword⟩ := hp.exists_word hh
  exact ⟨word, [], by rw [heq, List.append_nil], hword, by simp⟩

/-- A command before a quiet pattern takes commands only. -/
theorem Commands.sequence (hp : p.Commands) (hq : q.Quiet) : (Pattern.sequence p q).Commands := by
  intro t h hh
  obtain ⟨k, hk, l, hl, rfl⟩ := mem_hits_sequence hh
  obtain ⟨w, rest, htaken, hw, hrest⟩ := hp t k hk
  refine ⟨w, rest ++ l.taken, by rw [htaken]; simp, hw, fun c hc => ?_⟩
  exact (List.mem_append.1 hc).elim (hrest c) (hq _ l hl c)

end

end Pattern

namespace Rule

/-- The standard rules but powers and numbers take in a command word and no further letters. -/
theorem commands_standard {r : Rule} (hr : r ∈ standard) : r = power ∨ r = number ∨ r.pattern.Commands := by
  have htoken := Pattern.Quiet.token
  have hwords : ∀ {words : List String} (name : String), (∀ w ∈ words, ∀ c ∈ w.toList, c.isAlpha = true) →
      (Pattern.sequence (.word "\\") (.named name (.anyWord words))).Commands := fun _ h => .word (.named (.anyWord h))
  simp only [standard, List.mem_cons, List.not_mem_nil, or_false] at hr
  rcases hr with rfl | rfl | rfl | rfl | rfl | rfl | rfl
  · exact .inr (.inr (.sequence (.sequence (.literal "sqrt" (by simp) (by simp))
      (.optional (.sequence (.sequence (.literal (by simp)) (.named htoken)) (.literal (by simp))))) (.named htoken)))
  · exact .inr (.inr (.sequence (.sequence (.literal "frac" (by simp) (by simp)) (.named htoken)) (.named htoken)))
  · exact .inr (.inr (.sequence (.sequence (hwords _ (by simp [logarithmWords]))
      (.optional (.sequence (.literal (by simp)) (.named (.either htoken .numeral))))) (.named htoken)))
  · exact .inr (.inr (.sequence (hwords _ (by simp [trigonometricWords])) (.named htoken)))
  · exact .inr (.inr (.sequence (hwords _ (by simp [inverseWords])) (.named htoken)))
  · exact .inl rfl
  · exact .inr (.inl rfl)

/-- What a standard rule takes in contains a sign, unless it is a number. -/
theorem exists_sign {r : Rule} (hr : r ∈ standard) {t : Text} {h : Hit} (hh : h ∈ r.pattern.hits t) :
    r = number ∨ ∃ c ∈ ['\\', '^'], c ∈ h.taken := by
  rcases commands_standard hr with rfl | rfl | hcommands
  · rw [hits_power, List.mem_flatMap] at hh
    obtain ⟨base, -, hh⟩ := hh
    obtain ⟨k, hk, rfl⟩ := List.mem_map.1 hh
    obtain ⟨l, hl, -, -, rfl⟩ := Pattern.mem_hits_sequence hk
    have hcaret : l.taken = ['^'] := (Pattern.mem_hits_literal hl).2.1
    exact .inr ⟨'^', by simp, by simp [hcaret]⟩
  · exact .inl rfl
  · obtain ⟨word, rest, htaken, -⟩ := hcommands _ _ hh
    exact .inr ⟨'\\', by simp, by simp [htaken]⟩

/-- The base of a power is quiet, a command word, or a letter. -/
theorem powerBase_cases {t : Text} {h : Hit} (hh : h ∈ powerBase.hits t) : (∀ c ∈ h.taken, c.isAlpha = false) ∨
    (∃ word, h.taken = '\\' :: word ∧ ∀ c ∈ word, c.isAlpha = true) ∨ ∃ c, t = c :: h.rest ∧ h.taken = [c] := by
  rcases mem_hits_powerBase hh with hh | hh | hh | hh
  · exact .inl (Pattern.Quiet.token t h hh)
  · exact .inr (.inl (Pattern.Wordy.anyWord (by simp) |>.exists_word hh))
  · exact .inl (Pattern.Quiet.numeral t h hh)
  · obtain ⟨c, -, htaken, -, ht⟩ := Pattern.mem_hits_oneOf hh
    exact .inr (.inr ⟨c, ht, htaken⟩)

/-- The tail of a power is quiet. -/
theorem quiet_powerTail : powerTail.Quiet :=
  .sequence (.literal (by simp)) (.named (.either .token (.oneOf fun _ => Text.not_isAlpha_of_isDigit)))

end Rule

namespace Line
variable {names : List Text} {a b : Line} {c : Char} {word rest : Text}

/-- The letters of a command word are protected. -/
theorem flag_of_command (htext : text (a ++ .char c :: b) = '\\' :: (word ++ rest)) (hword : ∀ d ∈ word, d.isAlpha = true)
    (hrest : ∀ d ∈ rest, d.isAlpha = false) (hc : c.isAlpha = true) : (flags names (a ++ .char c :: b))[a.length]? ≠ some false := by
  intro hflag
  have houtside := isInside_of_unprotected hc hflag
  rw [text_append, text_cons, Mark.text, List.singleton_append] at htext
  cases hprefix : a.text with
  | nil =>
    rw [ hprefix, List.nil_append, List.cons.injEq] at htext
    rw [htext.1] at hc
    cases hc
  | cons d u =>
    rw [ hprefix, List.cons_append, List.cons.injEq] at htext
    obtain ⟨rfl, htext⟩ := htext
    rw [ hprefix, Command.isInside_cons, if_pos] at houtside
    · cases houtside
    · rcases List.append_eq_append_iff.1 htext with ⟨v, hletters, -⟩ | ⟨v, -, hv⟩
      · exact List.all_eq_true.2 fun e he => hword e (hletters ▸ List.mem_append_left _ he)
      · -- the letter is in what stands behind the word
        rw [hrest c (hv ▸ List.mem_append_right _ List.mem_cons_self)] at hc
        cases hc

/-- A text that is written without tokens is written character by character. -/
theorem exists_ofText_append {s : Line} {t : Text} (h : s.text = word ++ t) (hplain : '@' ∉ word) : ∃ s', s = ofText word ++ s' := by
  induction word generalizing s with
  | nil => exact ⟨s, rfl⟩
  | cons d word ih =>
    rw [List.mem_cons, not_or] at hplain
    cases s with
    | nil => cases h
    | cons m s =>
      cases m with
      | char e =>
        obtain ⟨rfl, htail⟩ := List.cons.inj h
        obtain ⟨s', rfl⟩ := ih htail hplain.2
        exact ⟨s', rfl⟩
      | ref k =>
        rw [text_cons, Mark.text, Index.token_eq] at h
        exact absurd (List.cons.inj h).1 hplain.1

/-- The letters of the name of a function are protected where a text begins with it. -/
theorem flag_of_name (hname : word ∈ names) (hplain : '@' ∉ word) (htext : text (a ++ .char c :: b) = word ++ rest)
    (hrest : ∀ d ∈ rest, d.isAlpha = false) (hc : c.isAlpha = true) : (flags names (a ++ .char c :: b))[a.length]? ≠ some false := by
  obtain ⟨s', hs'⟩ := exists_ofText_append htext hplain
  rw [hs', flags, List.map_append]
  by_cases hlength : a.length < word.length
  · have hshades : (ofText word).map Mark.shade = word := by
      rw [ofText, List.map_map]
      exact List.map_id word
    rw [hshades, Source.getElem?_protection_name hname hlength]
    simp
  · -- the letter is in what stands behind the name
    obtain ⟨v, hv⟩ : ∃ v, s' = v ++ .char c :: b := by
      rcases List.append_eq_append_iff.1 hs' with ⟨v, hword, hcons⟩ | ⟨v, -, hs'⟩
      · have hcount := congrArg List.length hword
        rw [ofText, List.length_map, List.length_append] at hcount
        obtain rfl : v = [] := List.eq_nil_of_length_eq_zero (by omega)
        exact ⟨[], hcons.symm⟩
      · exact ⟨v, hs'⟩
    have hmem : c ∈ rest := by
      have hbehind : rest = text s' := by
        rw [hs', text_append, text_ofText] at htext
        exact (List.append_cancel_left htext).symm
      rw [hbehind, hv]
      exact mem_text (by simp)
    rw [hrest c hmem] at hc
    cases hc

end Line

section
variable {S : RuleSet} {a b : Line} {c : Char} {h : Hit}

/-- The letters of a call are those of a registered name, so they are flagged. -/
theorem UserFunction.flag_of_call {f : UserFunction} (hf : f.name ∈ S.functionNames)
    (hh : h ∈ f.rule.pattern.hits (Line.text (a ++ .char c :: b))) (htaken : h.taken = Line.text (a ++ .char c :: b))
    (hc : c.isAlpha = true) : (Line.flags S.functionNames (a ++ .char c :: b))[a.length]? ≠ some false := by
  obtain ⟨sign, digits, hsign, hsplit, -, hcall, -⟩ := f.call_of_mem_hits hh
  have hdigits := (Token.digits_of_split? hsplit).2
  have hrest : ∀ d ∈ (Piece.token digits).text, d.isAlpha = false := by
    have hquiet := Pattern.Quiet.token _ _ (Pattern.hits_token_of_split? hsplit ▸ List.mem_singleton_self _)
    exact hquiet
  have hname : ∀ d ∈ f.name, d.isAlpha = true := List.all_eq_true.1 f.letters
  rcases hsign with rfl | rfl
  · exact Line.flag_of_name hf f.at_not_mem_name (htaken.symm.trans (hcall.trans (by simp [UserFunction.call]))) hrest hc
  · exact Line.flag_of_command (htaken.symm.trans (hcall.trans (by simp [UserFunction.call]))) hname hrest hc

/-- In a text that a rule takes up as a whole no letter is unprotected but the base of a power. -/
theorem RuleSet.eq_power_of_letter {r : Rule} (hr : r ∈ S.rules) (hh : h ∈ r.pattern.hits (Line.text (a ++ .char c :: b)))
    (htaken : h.taken = Line.text (a ++ .char c :: b)) (hc : c.isAlpha = true)
    (hflag : (Line.flags S.functionNames (a ++ .char c :: b))[a.length]? = some false) :
    r = .power ∧ a = [] ∧ ∀ d, .char d ∈ b → d.isAlpha = false := by
  have hmem : c ∈ h.taken := by
    rw [htaken]
    exact Line.mem_text (by simp)
  have hloud : ∀ {t : Text}, c ∈ t → (∀ d ∈ t, d.isAlpha = false) → False := fun hct hquiet => by
    rw [hquiet c hct] at hc
    cases hc
  have hcommand : ∀ word rest : Text, h.taken = '\\' :: (word ++ rest) → (∀ d ∈ word, d.isAlpha = true) →
      (∀ d ∈ rest, d.isAlpha = false) → False := fun word rest heq hword hrest =>
    Line.flag_of_command (htaken ▸ heq) hword hrest hc hflag
  rcases List.mem_append.1 hr with hr | hr
  · obtain ⟨f, hf, rfl⟩ := List.mem_map.1 hr
    exact absurd hflag (UserFunction.flag_of_call (List.mem_map_of_mem hf) hh htaken hc)
  rcases Rule.commands_standard hr with rfl | rfl | hcommands
  · rw [Rule.hits_power, List.mem_flatMap] at hh
    obtain ⟨base, hbase, hh⟩ := hh
    obtain ⟨k, hk, rfl⟩ := List.mem_map.1 hh
    have hquiet := Rule.quiet_powerTail _ k hk
    rcases Rule.powerBase_cases hbase with hbase | ⟨word, heq, hword⟩ | ⟨d, -, heq⟩
    · exact (hloud hmem fun e he => (List.mem_append.1 he).elim (hbase e) (hquiet e)).elim
    · exact (hcommand word k.taken (by simp [heq]) hword hquiet).elim
    · simp only [heq, List.singleton_append] at htaken
      cases a with
      | nil =>
        obtain ⟨rfl, htail⟩ := List.cons.inj htaken
        exact ⟨rfl, rfl, fun e he => hquiet e (htail ▸ Line.mem_text he)⟩
      | cons m a =>
        -- the letter would stand behind the base
        refine (hloud (t := k.taken) ?_ hquiet).elim
        have hlater : c ∈ Line.text (a ++ .char c :: b) := Line.mem_text (by simp)
        cases m with
        | char e =>
          obtain ⟨-, htail⟩ := List.cons.inj htaken
          exact htail ▸ hlater
        | ref i =>
          rw [List.cons_append, Line.text_cons, Mark.text, Index.token_eq] at htaken
          obtain ⟨-, htail⟩ := List.cons.inj htaken
          exact htail ▸ List.mem_append_right _ hlater
  · exact (hloud hmem (Pattern.Quiet.named .numeral _ _ hh)).elim
  · obtain ⟨word, rest, heq, hword, hrest⟩ := hcommands _ _ hh
    exact (hcommand word rest heq hword hrest).elim

end

/-! ### Whole texts after binding -/

namespace Rule

/-- Before a letter the base of a power is that letter. -/
theorem hits_powerBase_letter {d : Char} (hd : d.isAlpha = true) (t : Text) : powerBase.hits (d :: t) = [⟨[d], t, []⟩] := by
  have hne : ∀ c : Char, c.isAlpha = false → c ≠ d := by
    rintro c hc rfl
    rw [hc] at hd
    cases hd
  have htoken : Pattern.token.hits (d :: t) = [] :=
    Pattern.hits_token_of_split?_eq_none (Token.split?_of_ne (hne '@' (by decide)).symm t)
  have hcommand : (Pattern.word "\\").hits (d :: t) = [] := by
    simp [Pattern.word, Pattern.hits, List.isPrefixOf?, hne '\\' (by decide)]
  have hnumeral : Pattern.numeral.hits (d :: t) = [] := by
    have hdot := (hne '.' (by decide)).symm
    simp [Pattern.numeral, Pattern.hits, Text.not_isDigit_of_isAlpha hd, hdot]
  have hword : ∀ q : Pattern, (Pattern.word "\\" ++ q).hits (d :: t) = [] := fun q => by
    change Pattern.hits (.sequence _ _) _ = _
    rw [Pattern.hits, hcommand, List.flatMap_nil]
  simp only [powerBase, Pattern.hits, htoken, hword, hnumeral, hd, List.nil_append, if_true]

/-- A power takes any text for its base, so only its exponent can be refused. -/
theorem exists_occurrence_power {h : Hit} {written : Text} {parts : List (String × Text)} (hparts : h.parts = ("value", written) :: parts)
    (id : Nat) (behind : Text) : (∃ o, power.occurrence id behind h = .ok o) ↔
      ∃ x, Slot.operand power.name parts { name := "exponent" } = .ok x := by
  have hvalue : ∃ y, Slot.operand power.name h.parts { name := "value", takesText := true } = .ok y := by
    rw [Slot.operand, hparts]
    simp only [List.lookup_cons_self, Slot.read, if_true]
    cases Slot.literal? written with
    | some x => exact ⟨_, rfl⟩
    | none => cases Token.only? written <;> exact ⟨_, rfl⟩
  have hexponent : Slot.operand power.name h.parts { name := "exponent" } = Slot.operand power.name parts { name := "exponent" } := by
    have hlookup : h.parts.lookup "exponent" = parts.lookup "exponent" := by rw [hparts]; rfl
    simp only [Slot.operand, hlookup]
  have hselector : power.selector = none := rfl
  have hslots : power.slots = [{ name := "value", takesText := true }, { name := "exponent" }] := rfl
  obtain ⟨y, hy⟩ := hvalue
  rw [occurrence_eq, selected, hselector, hslots]
  simp only [List.mapM_cons, List.mapM_nil, hy, hexponent]
  cases Slot.operand power.name parts { name := "exponent" } with
  | error fault => simp [bind, Except.bind, Except.map]
  | ok x => simp [bind, Except.bind, Except.map, pure, Except.pure]

/-- A rule that takes up a text as a whole, with operands that it accepts, rests in it. -/
theorem rests_of_hitAt {r : Rule} (hr : r.pattern.IsAligned) {id : Nat} {t : Text} {h : Hit} (hh : r.hitAt [] t = some h)
    (hrest : h.rest = []) {o : Occurrence} (ho : r.occurrence id [] h = .ok o) : r.rests id t = true := by
  have hlocate : r.locate id t = .ok (some ⟨[], o, []⟩) := by
    rw [locate, search_of_hitAt hh]
    simp [ho, Except.map, hrest]
  rw [rests, hlocate]
  exact (isWhole_iff hr hlocate).2 ⟨rfl, rfl⟩

/-- A rule that rests in a text can read its hit at the front. -/
theorem exists_occurrence_of_rests {r : Rule} {id : Nat} {t : Text} {h : Hit} (hh : r.hitAt [] t = some h) (hrests : r.rests id t = true) :
    ∃ o, r.occurrence id [] h = .ok o := by
  rw [rests, locate, search_of_hitAt hh] at hrests
  cases ho : r.occurrence id [] h with
  | error fault => simp [ho, Except.map] at hrests
  | ok o => exact ⟨o, rfl⟩

/-- A power whose base was a letter rests with the token in its place. -/
theorem rests_power_of_letter {d : Char} {k id : Nat} {b b' : Line} (hd : d.isAlpha = true) (hb : b.Within Index.bound)
    (hb' : b'.Within Index.bound) (hkept : List.Forall₂ Mark.Kept b b') {h : Hit} (hh : power.hitAt [] (Line.text (.char d :: b)) = some h)
    (htaken : h.taken = Line.text (.char d :: b)) (hrests : power.rests id (Line.text (.char d :: b)) = true) :
    power.rests id (Line.text (.ref k :: b')) = true := by
  have hfirst := (Option.filter_eq_some_iff.1 hh).1
  rw [Pattern.first?, hits_power, Line.text_cons, Mark.text, List.singleton_append, hits_powerBase_letter hd, List.flatMap_singleton,
    List.head?_map, Option.map_eq_some_iff] at hfirst
  obtain ⟨l, hl, rfl⟩ := hfirst
  have hrest : l.rest = [] := by
    have htext := (isAligned_powerTail.hit (List.mem_of_mem_head? hl)).1
    have hown : l.taken = b.text := by simpa [Mark.text] using htaken
    rwa [hown, List.self_eq_append_right] at htext
  have hrenamed := isAligned_powerTail.renamed (Line.renamed_of_kept hkept hb hb' le_rfl le_rfl)
  obtain ⟨l', hl', htail⟩ : ∃ l', (powerTail.hits b'.text).head? = some l' ∧ RenamedHit (fun _ _ => True) l l' := by
    generalize powerTail.hits b.text = hits at hl hrenamed
    generalize powerTail.hits b'.text = hits' at hrenamed
    cases hrenamed with
    | nil => cases hl
    | cons hhit => exact ⟨_, rfl, Option.some.inj hl ▸ hhit⟩
  have hrest' : l'.rest = [] := by
    have hempty := htail.rest
    rw [hrest] at hempty
    exact hempty.eq_of_not_mem (by simp)
  have hhit' : power.hitAt [] (Line.text (.ref k :: b')) =
      some ⟨Index.token k ++ l'.taken, l'.rest, ("value", Index.token k) :: l'.parts⟩ := by
    have hbase : powerBase.hits (Line.text (.ref k :: b')) = [⟨Index.token k, b'.text, []⟩] := by
      have hsplit : Token.split? (Index.token k ++ b'.text) = some (Text.ofNat k, b'.text) := Token.split?_token k b'.text
      rw [Line.text_cons, Mark.text, Index.token_eq, List.cons_append, hits_powerBase_at, ← List.cons_append, ← Index.token_eq,
        Pattern.hits_token_of_split? hsplit]
      simp [Piece.text, Index.token_eq]
    rw [hitAt, Pattern.first?, hits_power, hbase, List.flatMap_singleton, List.head?_map, hl']
    exact Option.filter_some_pos rfl
  obtain ⟨o, ho⟩ := exists_occurrence_of_rests hh hrests
  obtain ⟨x, hx⟩ := (exists_occurrence_power rfl id []).1 ⟨o, ho⟩
  obtain ⟨x', hx'⟩ : ∃ x', Slot.operand power.name l'.parts { name := "exponent" } = .ok x' := by
    have halike := Slot.operand_alike (fun _ _ => Slot.read_renamed { name := "exponent" }) .literal htail.parts power.name
    simp only [List.nil_append] at hx
    rw [hx] at halike
    generalize Slot.operand power.name l'.parts { name := "exponent" } = outcome at halike
    cases halike with
    | ok => exact ⟨_, rfl⟩
  obtain ⟨o', ho'⟩ := (exists_occurrence_power (h := ⟨_, l'.rest, ("value", Index.token k) :: l'.parts⟩) rfl id []).2 ⟨x', hx'⟩
  exact rests_of_hitAt (isAligned_standard _ (by simp [standard])) hhit' hrest' ho'

end Rule

/-- Two lists that are related elementwise are related more closely, or they are not at some place. -/
theorem forall₂_or_exists {α β : Type} {R : α → β → Prop} (Q : α → β → Prop) {l : List α} {l' : List β} (h : List.Forall₂ R l l') :
    List.Forall₂ Q l l' ∨ ∃ a x b a' x' b', l = a ++ x :: b ∧ l' = a' ++ x' :: b' ∧ List.Forall₂ R a a' ∧ List.Forall₂ R b b' ∧
      R x x' ∧ ¬Q x x' := by
  induction h with
  | nil => exact .inl .nil
  | @cons x x' b b' hx hb ih =>
    by_cases hq : Q x x'
    · rcases ih with ih | ⟨a, y, c, a', y', c', rfl, rfl, ha, hc⟩
      · exact .inl (.cons hq ih)
      · exact .inr ⟨x :: a, y, c, x' :: a', y', c', rfl, rfl, .cons hx ha, hc⟩
    · exact .inr ⟨[], x, b, [], x', b', rfl, rfl, .nil, hb, hx, hq⟩

/-- Lines of kept marks are written for the same parts when all indices stand for the same tree. -/
theorem Line.parts_of_kept {s s' : Line} (h : List.Forall₂ Mark.Kept s s') (tree : Tree) :
    s'.map (Mark.part fun _ => tree) = s.map (Mark.part fun _ => tree) := by
  induction h with
  | nil => rfl
  | cons hx _ ih =>
    rw [List.map_cons, List.map_cons, ih]
    cases hx <;> rfl

/-- A line is kept by binding, or there is an unprotected letter in it that is turned into a token. -/
theorem Line.Becomes.kept_or_letter {names : List Text} {letters : List Char} {stands : Char → Nat → Prop} {s s' : Line}
    (h : s.Becomes names letters stands s') : List.Forall₂ Mark.Kept s s' ∨ ∃ (a : Line) (c : Char) (b a' : Line) (k : Nat) (b' : Line),
      s = a ++ .char c :: b ∧ s' = a' ++ .ref k :: b' ∧ c ∈ letters ∧ (Line.flags names s)[a.length]? = some false ∧
        a.length = a'.length ∧ List.Forall₂ (Mark.Changes letters stands) b b' := by
  rcases forall₂_or_exists (fun e m => Mark.Kept e.1 m) h with hkept | ⟨a, ⟨x, isProtected⟩, b, a', x', b', hmarked, rfl, ha, hb, hx, hnot⟩
  · rw [← List.forall₂_map_left_iff (f := Prod.fst), Line.map_fst_marked] at hkept
    exact .inl hkept
  · have hfst := congrArg (List.map Prod.fst) hmarked
    have hsnd := congrArg (List.map Prod.snd) hmarked
    rw [Line.map_fst_marked, List.map_append, List.map_cons] at hfst
    rw [Line.map_snd_marked, List.map_append, List.map_cons] at hsnd
    cases hx with
    | char => exact absurd (.char _) hnot
    | ref k k' => exact absurd (.ref k k') hnot
    | @letter c k hc hk =>
      refine .inr ⟨a.map Prod.fst, c, b.map Prod.fst, a', k, b', hfst, rfl, hc, ?_, ?_, ?_⟩
      · rw [hsnd, List.length_map, ← List.length_map (f := Prod.snd)]
        simp
      · rw [List.length_map, ha.length_eq]
      · rw [List.forall₂_map_left_iff]
        exact hb.imp fun e m hm => ⟨e.2, hm⟩

namespace RuleSet
variable {S : RuleSet} {letters : List Char} {stands : Char → Nat → Prop} {r : Rule} {id : Nat} {s s' : Line} {h : Hit}

/-- A rule that takes up a whole text rests in what binding makes of it. -/
theorem rests_of_whole (hr : r ∈ S.rules) (hlower : ∀ l ∈ letters, l.isLower = true) (hs : s.Within Index.bound)
    (hs' : s'.Within Index.bound) (hbecomes : s.Becomes S.functionNames letters stands s') (hh : r.hitAt [] s.text = some h)
    (htaken : h.taken = s.text) (hrests : r.rests id s.text = true) : r.rests id s'.text = true := by
  rcases hbecomes.kept_or_letter with hkept | ⟨a, c, b, a', k, b', rfl, rfl, hc, hflag, hlength, hb⟩
  · exact Rule.rests_along (S.isUniform r hr) (S.separate r hr) ⟨hs, rfl⟩ ⟨hs', Line.parts_of_kept hkept (.node [])⟩ hrests
  · have halpha := Text.isAlpha_of_isLower (hlower c hc)
    have hmem := List.mem_of_mem_head? (Option.filter_eq_some_iff.1 hh).1
    obtain ⟨rfl, rfl, hquiet⟩ := eq_power_of_letter hr hmem htaken halpha hflag
    obtain rfl : a' = [] := List.eq_nil_of_length_eq_zero hlength.symm
    have hkept : List.Forall₂ Mark.Kept b b' := (forall₂_mem hb).imp fun x x' hx => by
      obtain ⟨hmem, -, isProtected, hx⟩ := hx
      cases hx with
      | char => exact .char _
      | ref k k' => exact .ref k k'
      | @letter d k hd hk =>
        have hsmall := Text.isAlpha_of_isLower (hlower d hd)
        rw [hquiet d hmem] at hsmall
        cases hsmall
    exact Rule.rests_power_of_letter halpha (hs.subset (List.subset_cons_self _ b)) (hs'.subset (List.subset_cons_self _ b')) hkept hh htaken
      hrests

end RuleSet

end FormulaDag
