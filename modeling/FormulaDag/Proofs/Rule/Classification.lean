import FormulaDag.Proofs.Expression.Nodes
import FormulaDag.Proofs.Rule.Forms

/-!
# Which rule describes a whole text

A readable text is described by a standard rule exactly when it has a form of that rule. No text has forms of two rules, no rule refuses
an operand, whether it describes the whole text or finds something inside of it, and the indices among the operands are the references of
the text.
-/

namespace FormulaDag

/-- A number stands for one rule. -/
theorem RuleSet.numbered_unique {s : RuleSet} {id : Nat} {r r' : Rule} (h : (id, r) ∈ s.numbered) (h' : (id, r') ∈ s.numbered) : r = r' :=
  Option.some.inj ((mem_numbered.1 h).symm.trans (mem_numbered.1 h'))

namespace Rule

section
variable {t : Text} {e : Nat × Rule} {n : Nat} {selector : Option String} {operands : List (Option Operand)}

/-! ## No refusals -/

/-- A rule has an answer for a whole text when it reads every hit of its search. -/
theorem exists_findWhole_of_search {r : Rule} (id : Nat)
    (h : ∀ behind hit, r.search [] t = some (behind, hit) → ∃ o, r.occurrence id behind hit = .ok o) :
    ∃ found, r.findWhole id t = .ok found := by
  rw [findWhole, find, locate]
  cases hs : r.search [] t with
  | none => exact ⟨none, rfl⟩
  | some found =>
    obtain ⟨o, ho⟩ := h found.1 found.2 hs
    simp only [ho]
    exact ⟨_, rfl⟩

/-- What a rule accepts at the front is read from there. -/
theorem Accepts.occurrence {r : Rule} {w : Text} (h : r.Accepts w t selector operands) {hit : Hit}
    (hhit : r.pattern.first? (w ++ t) = some hit) (id : Nat) (behind : Text) :
    r.occurrence id behind hit = .ok ⟨id, Text.byteSize behind, Text.byteSize behind + Text.byteSize w, w, selector, operands⟩ := by
  obtain ⟨parts, htakes, hselected, hoperands⟩ := h
  obtain rfl := Option.some.inj (htakes.symm.trans hhit)
  exact occurrence_eq_of hselected hoperands id behind

/-- A power in a readable text has a readable exponent. -/
theorem exists_occurrence_of_mem_hits_power (hread : t.Readable) {u : Text} {hit : Hit} (hhit : hit ∈ power.pattern.hits u)
    (hin : hit.taken <:+: t) (behind : Text) : ∃ o, power.occurrence 5 behind hit = .ok o := by
  rw [hits_power, List.mem_flatMap] at hhit
  obtain ⟨base, hbase, hhit⟩ := hhit
  obtain ⟨k, hk, rfl⟩ := List.mem_map.1 hhit
  obtain ⟨w, x, -, hparts, hx⟩ := exists_isExponent hread hk ((List.suffix_append _ _).isInfix.trans hin)
  refine (exists_occurrence_power rfl 5 behind).2 ⟨_, hx.operand rfl ?_⟩
  rw [parts_of_mem_hits_powerBase hbase, hparts]
  rfl

/-- A number of a readable text is readable, also where it is a part of a numeral. -/
theorem exists_occurrence_of_search_number (hread : t.Readable) {behind : Text} {hit : Hit}
    (hs : number.search [] t = some (behind, hit)) : ∃ o, number.occurrence 6 behind hit = .ok o := by
  obtain ⟨outer, lead, -, ht, hnumeral, hlead⟩ := search_number hs
  obtain ⟨-, hfirst, -, -⟩ := search_eq_some_of_aligned (isAligned_standard number (by simp [standard])) hs
  obtain ⟨hne, hnumeric, hright⟩ := numeral_of_number hfirst
  obtain ⟨y, hy⟩ : ∃ y, Operand.IsNumber hit.taken y := by
    obtain ⟨x, hx⟩ := hread.numeral outer (lead ++ hit.taken) hit.rest (by simpa using ht) hnumeral
    rcases hlead with rfl | ⟨digits, rfl, hdigits, -⟩
    · exact ⟨_, .numeral hne hnumeric hx⟩
    · rw [List.append_assoc, List.singleton_append] at hx
      exact Text.exists_isNumber_of_digits hne (Decimal.digits_of_read? hdigits hnumeric hx)
  have htakes := (hy.takes hright).named "value"
  have haccepts : number.Accepts hit.taken hit.rest none [some y] := ⟨_, htakes, rfl, .cons (hy.operand rfl) .nil⟩
  exact ⟨_, haccepts.occurrence hfirst 6 behind⟩

/-- No standard rule refuses what it finds in a readable text. -/
theorem exists_findWhole (he : e ∈ RuleSet.standard.numbered) (hread : t.Readable) : ∃ found, e.2.findWhole e.1 t = .ok found := by
  refine exists_findWhole_of_search e.1 fun behind hit hs => ?_
  obtain ⟨ht, hfirst, -, -⟩ := search_eq_some_of_aligned (RuleSet.standard.isAligned e.2 (RuleSet.mem_of_numbered he)) hs
  have hhit := List.mem_of_mem_head? hfirst
  have ht : t = behind.reverse ++ hit.taken ++ hit.rest := by rw [List.append_assoc]; exact ht
  have hin : hit.taken <:+: t := ⟨_, _, ht.symm⟩
  -- a command has a form wherever it stands; a power or a number may have taken up only a part of a numeral
  by_cases hcommand : e.1 < 5
  · obtain ⟨selector, operands, hform⟩ := exists_form he hread hhit ht fun hge => by omega
    obtain ⟨r, hr, haccepts⟩ := hform.accepts hit.rest fun hn => by omega
    obtain rfl := RuleSet.numbered_unique hr he
    exact ⟨_, haccepts.occurrence hfirst e.1 behind⟩
  · rcases RuleSet.mem_numbered_standard.1 he with rfl | rfl | rfl | rfl | rfl | rfl | rfl
    iterate 5 exact absurd (by decide) hcommand
    · exact exists_occurrence_of_mem_hits_power hread hhit hin behind
    · exact exists_occurrence_of_search_number hread hs

/-! ## Whole texts -/

/-- No guard refuses the beginning of a text. -/
theorem admits_nil (he : e ∈ RuleSet.standard.numbered) (t : Text) : e.2.admits [] t = true := by
  rcases RuleSet.mem_numbered_standard.1 he with rfl | rfl | rfl | rfl | rfl | rfl | rfl
  iterate 5 rfl
  · simp [power, powerAdmits, Command.isInside]
  · rfl

/-- A text is described by the rule of its form. -/
theorem Form.findWhole (h : Form t n selector operands) {r : Rule} (hr : (n, r) ∈ RuleSet.standard.numbered) :
    r.findWhole n t = .ok (some ⟨n, 0, Text.byteSize t, t, selector, operands⟩) := by
  obtain ⟨r', hr', haccepts⟩ := h.accepts [] fun _ => rfl
  obtain rfl := RuleSet.numbered_unique hr' hr
  obtain ⟨parts, htakes, -⟩ := id haccepts
  have hhit : r'.hitAt [] (t ++ []) = some ⟨t, [], parts⟩ := Option.filter_eq_some_iff.2 ⟨htakes, admits_nil hr _⟩
  rw [List.append_nil] at hhit
  rw [findWhole_of_hitAt (RuleSet.standard.isAligned r' (RuleSet.mem_of_numbered hr)) hhit, haccepts.occurrence htakes]
  simp [Except.map]

/-- A readable text that a rule describes has a form of the rule. -/
theorem form_of_findWhole (he : e ∈ RuleSet.standard.numbered) (hread : t.Readable) {o : Occurrence}
    (h : e.2.findWhole e.1 t = .ok (some o)) :
    ∃ selector operands, Form t e.1 selector operands ∧ o = ⟨e.1, 0, Text.byteSize t, t, selector, operands⟩ := by
  obtain ⟨hit, hfirst, htaken, hrest, -⟩ := findWhole_eq_some (RuleSet.standard.isAligned e.2 (RuleSet.mem_of_numbered he)) h
  have hwhole : t = [] ++ hit.taken ++ [] := by simp [htaken]
  obtain ⟨selector, operands, hform⟩ := exists_form he hread (List.mem_of_mem_head? hfirst) hwhole fun _ => htaken.symm
  rw [htaken] at hform
  rw [hform.findWhole he, Except.ok.injEq, Option.some.injEq] at h
  exact ⟨selector, operands, hform, h.symm⟩

/-! ## One rule for each form -/

/-- The number of the rule that a command word belongs to. -/
def ruleOfWord (word : Text) : Nat :=
  if word = "sqrt".toList then 0
  else if word = "frac".toList then 1
  else if word ∈ logarithmWords.map String.toList then 2
  else if word ∈ trigonometricWords.map String.toList then 3
  else 4

/-- The number of the rule that a text can have a form of: a power has its sign, and any other command its word. -/
def ruleOf (t : Text) : Nat :=
  if '^' ∈ t then 5 else if t.head? = some '\\' then ruleOfWord (t.tail.takeWhile Char.isAlpha) else 6

/-- The rule of a command is that of its word. -/
theorem ruleOf_command {word rest : Text} (hword : ∀ c ∈ word, c.isAlpha = true) (hrest : '^' ∉ rest)
    (hend : rest.head?.any Char.isAlpha = false) : ruleOf ("\\".toList ++ word ++ rest) = ruleOfWord word := by
  have hcaret : '^' ∉ "\\".toList ++ word ++ rest := by
    simp only [List.mem_append, not_or]
    exact ⟨⟨by decide, fun hmem => absurd (hword _ hmem) (by decide)⟩, hrest⟩
  have hnone : rest.takeWhile Char.isAlpha = [] := by
    cases rest with
    | nil => rfl
    | cons c rest => exact List.takeWhile_cons_of_neg (by simpa using hend)
  have hhead : ("\\".toList ++ word ++ rest).head? = some '\\' := rfl
  have htail : ("\\".toList ++ word ++ rest).tail = word ++ rest := rfl
  rw [ruleOf, if_neg hcaret, if_pos hhead, htail, List.takeWhile_append_of_pos hword, hnone, List.append_nil]

/-- The words of functions have letters only. -/
theorem isAlpha_of_mem_words {f : String} (hf : f ∈ logarithmWords ∨ f ∈ trigonometricWords ∨ f ∈ inverseWords) :
    ∀ c ∈ f.toList, c.isAlpha = true := by
  have hreserved : ∀ f ∈ logarithmWords ++ (trigonometricWords ++ inverseWords), f ∈ Command.reservedWords := by decide
  exact Source.isAlpha_of_mem_reserved (hreserved f (by simpa only [List.mem_append] using hf))

/-- The logarithms have the third rule. -/
theorem ruleOfWord_logarithm : ∀ f ∈ logarithmWords, ruleOfWord f.toList = 2 := by decide +kernel

/-- The trigonometric functions have the fourth rule. -/
theorem ruleOfWord_trigonometry : ∀ f ∈ trigonometricWords, ruleOfWord f.toList = 3 := by decide +kernel

/-- The inverse functions have the fifth rule. -/
theorem ruleOfWord_inverseTrigonometry : ∀ f ∈ inverseWords, ruleOfWord f.toList = 4 := by decide +kernel

end

end Rule

namespace Operand

variable {w : Text} {x : Operand}

theorem IsIndex.caret_not_mem (h : IsIndex w x) : '^' ∉ w := by
  cases h with
  | token hne hdigits hread =>
    simp only [List.mem_append, not_or]
    exact ⟨⟨by decide, fun hmem => absurd (hdigits _ hmem) (by decide)⟩, by decide⟩

theorem IsNumber.caret_not_mem (h : IsNumber w x) : '^' ∉ w := by
  cases h with
  | numeral hne hnumeric hread => exact fun hmem => absurd (hnumeric _ hmem) (by decide)

theorem IsLogarithmBase.caret_not_mem (h : IsLogarithmBase w x) : '^' ∉ w := by
  cases h with
  | index h => exact h.caret_not_mem
  | number h => exact h.caret_not_mem

end Operand

namespace Rule

open Operand

section
variable {t : Text} {n n' : Nat} {selector selector' : Option String} {operands operands' : List (Option Operand)}

/-- The form of a text tells its rule. -/
theorem Form.ruleOf_eq (h : Form t n selector operands) : ruleOf t = n := by
  have hsign : ∀ {w : Text} {x : Operand}, IsIndex w x → w.head?.any Char.isAlpha = false := by
    intro w x h
    obtain ⟨rest, rfl⟩ := h.exists_cons
    rfl
  cases h with
  | squareRoot h => exact ruleOf_command (Source.isAlpha_of_mem_reserved (w := "sqrt") (by decide)) h.caret_not_mem (hsign h)
  | @root v w _ _ hdegree h =>
    have htext : "\\sqrt[".toList ++ v ++ "]".toList ++ w = "\\".toList ++ "sqrt".toList ++ ('[' :: (v ++ ']' :: w)) := by simp
    rw [htext, ruleOf_command (by simp) (by simp [hdegree.caret_not_mem, h.caret_not_mem]) (by rfl)]
    rfl
  | @fraction v w _ _ hv hw =>
    have htext : "\\frac".toList ++ v ++ w = "\\".toList ++ "frac".toList ++ (v ++ w) := by simp
    obtain ⟨rest, hrest⟩ := hv.exists_cons
    rw [htext, ruleOf_command (by simp) (by simp [hv.caret_not_mem, hw.caret_not_mem]) (by rw [hrest]; rfl)]
    rfl
  | logarithm hf h =>
    rw [ruleOf_command (isAlpha_of_mem_words (.inl hf)) h.caret_not_mem (hsign h), ruleOfWord_logarithm _ hf]
  | @logarithmWithBase f v w _ _ hf hbase h =>
    have htext : "\\".toList ++ f.toList ++ "_".toList ++ v ++ w = "\\".toList ++ f.toList ++ ('_' :: (v ++ w)) := by simp
    rw [htext, ruleOf_command (isAlpha_of_mem_words (.inl hf)) (by simp [hbase.caret_not_mem, h.caret_not_mem]) (by rfl),
      ruleOfWord_logarithm _ hf]
  | trigonometry hf h =>
    rw [ruleOf_command (isAlpha_of_mem_words (.inr (.inl hf))) h.caret_not_mem (hsign h), ruleOfWord_trigonometry _ hf]
  | inverseTrigonometry hf h =>
    rw [ruleOf_command (isAlpha_of_mem_words (.inr (.inr hf))) h.caret_not_mem (hsign h), ruleOfWord_inverseTrigonometry _ hf]
  | power hbase h => rw [ruleOf, if_pos (by simp)]
  | number h =>
    rw [ruleOf, if_neg h.caret_not_mem, if_neg]
    cases h with
    | numeral hne hnumeric hread =>
      intro hhead
      exact absurd (hnumeric _ (List.mem_of_mem_head? hhead)) (by decide)

/-- A text has one form at most, and the form determines the function and the operands. -/
theorem Form.unique (h : Form t n selector operands) (h' : Form t n' selector' operands') :
    n = n' ∧ selector = selector' ∧ operands = operands' := by
  obtain rfl : n = n' := h.ruleOf_eq.symm.trans h'.ruleOf_eq
  obtain ⟨r, hr, -⟩ := h.accepts [] fun _ => rfl
  have hfound := (h.findWhole hr).symm.trans (h'.findWhole hr)
  simp only [Except.ok.injEq, Option.some.injEq, Occurrence.mk.injEq] at hfound
  exact ⟨rfl, hfound.2.2.2.2.1, hfound.2.2.2.2.2⟩

end

end Rule

/-! ## References -/

namespace Token

/-- The indices that the tokens of a text have, one after the other. -/
def indices (t : Text) : List Nat := (numerals t).filterMap Index.read?

/-- The references of a text are its indices, each once. -/
theorem references_eq (t : Text) : references t = (indices t).eraseDups := rfl

/-- The indices of a text behind whole pieces are those of both. -/
theorem indices_append {u : Text} (hu : IsWhole u) (v : Text) : indices (u ++ v) = indices u ++ indices v := by
  rw [indices, indices, indices, numerals, numerals, numerals, hu, List.filterMap_append, List.filterMap_append]

/-- A text without tokens has no indices. -/
theorem indices_of_not_mem {u : Text} (h : '@' ∉ u) : indices u = [] := by
  simp [indices, numerals, pieces_eq_map h, List.filterMap_map]

/-- What is written for an operand refers to the index that the operand is, and to nothing else. -/
structure Refers (w : Text) (x : Operand) : Prop where
  whole : IsWhole w
  indices : indices w = x.index?.toList

end Token

namespace Operand

variable {w : Text} {x : Operand}

/-- A text without tokens is written by an operand that is no index. -/
theorem refers_of_not_mem (h : '@' ∉ w) (hx : x.index? = none) : Token.Refers w x where
  whole := .of_not_mem h
  indices := by rw [Token.indices_of_not_mem h, hx, Option.toList_none]

/-- An index is written with itself as the reference. -/
theorem IsIndex.refers (h : IsIndex w x) : Token.Refers w x := by
  cases h with
  | @token digits i hne hdigits hread =>
    have hsplit : Token.split? ("@/".toList ++ digits ++ "/@".toList) = some (digits, []) := by
      simpa using Token.split?_digits hne hdigits []
    refine ⟨.of_split? hsplit, ?_⟩
    rw [Token.indices, Token.numerals, Token.pieces_of_split? hsplit, Token.pieces_nil]
    simp [hread, index?]

/-- A number is written without references. -/
theorem IsNumber.refers (h : IsNumber w x) : Token.Refers w x := by
  cases h with
  | numeral hne hnumeric hread => exact refers_of_not_mem (fun hmem => absurd (hnumeric _ hmem) (by decide)) rfl

/-- The base of a logarithm is written with its own reference or none. -/
theorem IsLogarithmBase.refers (h : IsLogarithmBase w x) : Token.Refers w x := by
  cases h with
  | index h => exact h.refers
  | number h => exact h.refers

/-- An exponent is written with its own reference or none. -/
theorem IsExponent.refers (h : IsExponent w x) : Token.Refers w x := by
  cases h with
  | index h => exact h.refers
  | digit hc h => exact h.refers

/-- The base of a power is written with its own reference or none. -/
theorem IsPowerBase.refers (h : IsPowerBase w x) : Token.Refers w x := by
  cases h with
  | index h => exact h.refers
  | pi => exact refers_of_not_mem (by decide) rfl
  | goldenRatio => exact refers_of_not_mem (by decide) rfl
  | omega => exact refers_of_not_mem (by decide) rfl
  | number h => exact h.refers
  | letter hc =>
    refine refers_of_not_mem (fun hmem => ?_) rfl
    rw [← List.mem_singleton.1 hmem] at hc
    exact absurd hc (by decide)

end Operand

namespace Rule

open Operand

/-- The operands of a form hold the indices of the text in the order in which they stand there. -/
theorem Form.indices {t : Text} {n : Nat} {selector : Option String} {operands : List (Option Operand)}
    (h : Form t n selector operands) : Token.indices t = operands.filterMap fun x => x.bind Operand.index? := by
  have hplain : ∀ {u : Text}, '@' ∉ u → ∀ v, Token.indices (u ++ v) = Token.indices v := fun hu v => by
    rw [Token.indices_append (.of_not_mem hu), Token.indices_of_not_mem hu, List.nil_append]
  have hword : ∀ {f : String}, f ∈ logarithmWords ∨ f ∈ trigonometricWords ∨ f ∈ inverseWords → '@' ∉ "\\".toList ++ f.toList := by
    intro f hf hmem
    rcases List.mem_append.1 hmem with hmem | hmem
    · exact absurd hmem (by decide)
    · exact absurd (isAlpha_of_mem_words hf _ hmem) (by decide)
  rw [List.filterMap_eq_flatMap_toList]
  cases h with
  | squareRoot h =>
    rw [hplain (by decide), h.refers.indices]
    simp [index?]
  | root hdegree h =>
    rw [List.append_assoc, List.append_assoc, hplain (by decide), Token.indices_append hdegree.refers.whole, hplain (by decide),
      hdegree.refers.indices, h.refers.indices]
    simp
  | fraction hv hw =>
    rw [List.append_assoc, hplain (by decide), Token.indices_append hv.refers.whole, hv.refers.indices, hw.refers.indices]
    simp
  | logarithm hf h =>
    rw [hplain (hword (.inl hf)), h.refers.indices]
    simp
  | logarithmWithBase hf hbase h =>
    rw [List.append_assoc, List.append_assoc, hplain (hword (.inl hf)), hplain (by decide), Token.indices_append hbase.refers.whole,
      hbase.refers.indices, h.refers.indices]
    simp
  | trigonometry hf h =>
    rw [hplain (hword (.inr (.inl hf))), h.refers.indices]
    simp
  | inverseTrigonometry hf h =>
    rw [hplain (hword (.inr (.inr hf))), h.refers.indices]
    simp
  | power hbase h =>
    rw [List.append_assoc, Token.indices_append hbase.refers.whole, hplain (by decide), hbase.refers.indices, h.refers.indices]
    simp
  | number h =>
    rw [h.refers.indices]
    simp

end Rule

namespace RuleSet

/-- Rules that refuse nothing either describe nothing of a text or one of them is the first to describe it. -/
theorem resolveWith_cases {t : Text} {numbered : List (Nat × Rule)} (h : ∀ e ∈ numbered, ∃ found, e.2.findWhole e.1 t = .ok found) :
    resolveWith t numbered = .ok none ∧ (∀ e ∈ numbered, e.2.findWhole e.1 t = .ok none) ∨
      ∃ e ∈ numbered, ∃ o, e.2.findWhole e.1 t = .ok (some o) ∧ resolveWith t numbered = .ok (some o) := by
  induction numbered with
  | nil => exact .inl ⟨rfl, by simp⟩
  | cons e rest ih =>
    obtain ⟨⟨found, hfound⟩, hrest⟩ := List.forall_mem_cons.1 h
    cases found with
    | some o => exact .inr ⟨e, List.mem_cons_self, o, hfound, by rw [resolveWith, hfound]⟩
    | none =>
      have hskip : resolveWith t (e :: rest) = resolveWith t rest := by rw [resolveWith, hfound]
      rw [hskip]
      rcases ih hrest with ⟨hnone, hall⟩ | ⟨e', he', o, ho, hsome⟩
      · exact .inl ⟨hnone, List.forall_mem_cons.2 ⟨hfound, hall⟩⟩
      · exact .inr ⟨e', List.mem_cons_of_mem _ he', o, ho, hsome⟩

/-- A readable text is resolved without a fault. It is described by a rule exactly when it has a form: then the occurrence is all of the
text, with the rule, the function and the operands of the form. Forms exclude each other, so one rule at most describes the text as a
whole. The operands refer to the references of the text. -/
theorem resolve_forms (t : Text) (hread : t.Readable) :
    (∃ found, standard.resolve t = .ok found) ∧
    (∀ o, standard.resolve t = .ok (some o) ↔
      Rule.Form t o.rule o.selector o.operands ∧ o.start = 0 ∧ o.stop = Text.byteSize t ∧ o.text = t) ∧
    (∀ n n' selector selector' operands operands', Rule.Form t n selector operands → Rule.Form t n' selector' operands' →
      n = n' ∧ selector = selector' ∧ operands = operands') ∧
    (∀ e ∈ standard.numbered, ∀ e' ∈ standard.numbered, ∀ o o', e.2.findWhole e.1 t = .ok (some o) →
      e'.2.findWhole e'.1 t = .ok (some o') → e = e') ∧
    ∀ o, standard.resolve t = .ok (some o) → o.references.eraseDups = Token.references t := by
  have hcases := resolveWith_cases fun e he => Rule.exists_findWhole (e := e) he hread
  have hform : ∀ o, standard.resolve t = .ok (some o) →
      Rule.Form t o.rule o.selector o.operands ∧ o.start = 0 ∧ o.stop = Text.byteSize t ∧ o.text = t := by
    intro o ho
    obtain ⟨id, r, hr, hfound⟩ := resolveWith_eq_some ho
    obtain ⟨selector, operands, hform, rfl⟩ := Rule.form_of_findWhole hr hread hfound
    exact ⟨hform, rfl, rfl, rfl⟩
  refine ⟨?_, fun o => ⟨hform o, ?_⟩, fun _ _ _ _ _ _ h h' => h.unique h', ?_, fun o ho => ?_⟩
  · rcases hcases with ⟨hnone, -⟩ | ⟨-, -, o, -, hsome⟩
    · exact ⟨none, hnone⟩
    · exact ⟨some o, hsome⟩
  · rintro ⟨h, hstart, hstop, htext⟩
    obtain ⟨r, hr, -⟩ := h.accepts [] fun _ => rfl
    have hfound := h.findWhole hr
    have ho : (⟨o.rule, 0, Text.byteSize t, t, o.selector, o.operands⟩ : Occurrence) = o := by rw [← hstart, ← hstop, ← htext]
    rw [ho] at hfound
    rcases hcases with ⟨-, hall⟩ | ⟨e, he, o', hfound', hsome⟩
    · have hnone := hall _ hr
      rw [hfound] at hnone
      cases hnone
    · -- the first rule to describe the text is that of the form, since no text has two
      obtain ⟨selector, operands, h', -⟩ := Rule.form_of_findWhole he hread hfound'
      have hrule := (h.unique h').1
      rw [hrule] at hr hfound
      obtain rfl := numbered_unique hr he
      rw [hfound', Except.ok.injEq, Option.some.injEq] at hfound
      rw [← hfound]
      exact hsome
  · intro e he e' he' o o' hfound hfound'
    obtain ⟨_, _, h, -⟩ := Rule.form_of_findWhole he hread hfound
    obtain ⟨_, _, h', -⟩ := Rule.form_of_findWhole he' hread hfound'
    have hid := (h.unique h').1
    have hrule : e.2 = e'.2 := numbered_unique he (hid ▸ he')
    exact Prod.ext hid hrule
  · rw [Token.references_eq, (hform o ho).1.indices]
    rfl

/-- A logarithm whose base is a number, and whose parameter is an index. -/
theorem resolve_forms_logarithm : Text.Readable "\\log_2.5@/3/@".toList ∧
    standard.resolve "\\log_2.5@/3/@".toList =
      .ok (some ⟨2, 0, 13, "\\log_2.5@/3/@".toList, some "log", [some (.literal 2.5), some (.index 3)]⟩) ∧
    Token.references "\\log_2.5@/3/@".toList = [3] := by
  have hread : Text.Readable "\\log_2.5@/3/@".toList := .of_tails (by decide +kernel) (by decide +kernel)
  have hbase : Operand.IsLogarithmBase "2.5".toList (.literal 2.5) :=
    .number (.numeral (by decide) (by simp [Text.isNumeric]) (by decide +kernel))
  have hparameter : Operand.IsIndex ("@/".toList ++ "3".toList ++ "/@".toList) (.index 3) :=
    .token (by decide) (by simp [Text.isDecimalDigit]) (by decide)
  have hform : Rule.Form "\\log_2.5@/3/@".toList 2 (some "log") [some (.literal 2.5), some (.index 3)] :=
    Rule.Form.logarithmWithBase (f := "log") (by simp) hbase hparameter
  obtain ⟨-, hresolve, -, -, hreferences⟩ := resolve_forms _ hread
  have hfound := (hresolve ⟨2, 0, 13, _, _, _⟩).2 ⟨hform, rfl, by decide, rfl⟩
  exact ⟨hread, hfound, (hreferences _ hfound).symm.trans (by decide +kernel)⟩

end RuleSet

end FormulaDag
