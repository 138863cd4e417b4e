import FormulaDag.Proofs.Rule.Uniform

/-!
# Numerals

A run of digits and points that neither goes on to the left nor to the right is a numeral of a text. An occurrence of the number rule
takes up a numeral to its right end, and so does the base of a power. At the left end the guards let parts through: a guard looks at
one character only, so once it has refused the first character of a numeral, the search may stop at a later one.
-/

namespace FormulaDag

namespace Text

/-- The characters of numerals. -/
def isNumeric (c : Char) : Bool := c.isDigit || c == '.'

/-- The middle one of three texts is a numeral of the text that they make up. -/
structure IsNumeral (outer numeral after : Text) : Prop where
  nonempty : numeral ≠ []
  numeric : ∀ c ∈ numeral, isNumeric c = true
  left : ∀ c ∈ outer.getLast?, isNumeric c = false
  right : ∀ c ∈ after.head?, isNumeric c = false

theorem isNumeric_of_isDigit {c : Char} (h : c.isDigit = true) : isNumeric c = true := by
  rw [isNumeric, h, Bool.true_or]

theorem not_isAlpha_of_isNumeric {c : Char} (h : isNumeric c = true) : c.isAlpha = false := by
  rw [isNumeric, Bool.or_eq_true, beq_iff_eq] at h
  rcases h with h | rfl
  · exact not_isAlpha_of_isDigit h
  · decide

/-- No numeral of which a text is the left context goes on to the left of one that is not numeric. -/
theorem boundary_of_getLast? {u : Text} {c : Char} (h : u.getLast? = some c) (hc : isNumeric c = false) :
    ∀ d ∈ u.getLast?, isNumeric d = false := by
  intro d hd
  rw [h, Option.mem_def, Option.some.injEq] at hd
  rwa [← hd]

theorem takeWhile_numeral {body rest : Text} (inside : ∀ c ∈ body, isNumeric c = true)
    (boundary : ∀ c ∈ rest.head?, isNumeric c = false) : (body ++ rest).takeWhile isNumeric = body := by
  rw [List.takeWhile_append_of_pos inside]
  cases rest with
  | nil => simp
  | cons c rest => simp [boundary c rfl]

theorem dropWhile_numeral {body rest : Text} (inside : ∀ c ∈ body, isNumeric c = true)
    (boundary : ∀ c ∈ rest.head?, isNumeric c = false) : (body ++ rest).dropWhile isNumeric = rest := by
  rw [List.dropWhile_append_of_pos inside]
  cases rest with
  | nil => rfl
  | cons c rest => simp [boundary c rfl]

end Text

namespace Rule

/-- No place before the one that a search finds would have done: there the pattern does not match or the guard refuses. -/
theorem search_leftmost {r : Rule} {behind t before : Text} {h : Hit} (hs : r.search behind t = some (before, h))
    {u w v : Text} (ht : t = u ++ (w ++ v)) (hw : w ≠ []) (hb : before = (u ++ w).reverse ++ behind) :
    r.pattern.first? (w ++ v) = none ∨ r.admits (u.reverse ++ behind) (w ++ v) = false := by
  induction t generalizing behind u with
  | nil =>
    have hnil := (List.append_eq_nil_iff.1 (List.append_eq_nil_iff.1 ht.symm).2).1
    exact absurd hnil hw
  | cons c rest ih =>
    have hlater : before ≠ behind := by
      intro heq
      have hlength := congrArg List.length (hb.symm.trans heq)
      have := List.length_pos_of_ne_nil hw
      simp only [List.length_append, List.length_reverse] at hlength
      omega
    -- the search did not stop here, for the place that it found is further on
    have hrefused : r.pattern.first? (c :: rest) = none ∨ r.admits behind (c :: rest) = false := by
      simp only [search] at hs
      split at hs
      · split at hs
        · simp only [Option.some.injEq, Prod.mk.injEq] at hs
          exact absurd hs.1.symm hlater
        · rename_i hrefused
          exact .inr (Bool.eq_false_iff.2 hrefused)
      · rename_i hnone
        exact .inl hnone
    have hrest : r.search (c :: behind) rest = some (before, h) := by
      simp only [search] at hs
      split at hs
      · split at hs
        · simp only [Option.some.injEq, Prod.mk.injEq] at hs
          exact absurd hs.1.symm hlater
        · exact hs
      · exact hs
    cases u with
    | nil =>
      rw [List.nil_append] at ht
      rw [← ht]
      exact hrefused
    | cons d u =>
      rw [List.cons_append, List.cons.injEq] at ht
      obtain ⟨rfl, ht⟩ := ht
      have := ih hrest ht (by rw [hb]; simp)
      simpa using this

/-- An occurrence that is found comes from a search. -/
theorem search_of_find {r : Rule} {id : Nat} {t : Text} {o : Occurrence} (hf : r.find id t = .ok (some o)) :
    ∃ behind h, r.search [] t = some (behind, h) ∧ r.occurrence id behind h = .ok o := by
  rw [find, map_eq_ok] at hf
  obtain ⟨found, hl, hfound⟩ := hf
  rw [Option.map_eq_some_iff] at hfound
  obtain ⟨l, rfl, rfl⟩ := hfound
  obtain ⟨behind, h, hs, ho, -, -⟩ := locate_eq_ok hl
  exact ⟨behind, h, hs, ho⟩

/-- What a match that a search finds says: the three parts of the text, where the pattern matches, and that it was refused before. -/
theorem search_eq_some_of_aligned {r : Rule} (hr : r.pattern.IsAligned) {t behind : Text} {h : Hit} (hs : r.search [] t = some (behind, h)) :
    t = behind.reverse ++ (h.taken ++ h.rest) ∧ r.pattern.first? (h.taken ++ h.rest) = some h ∧
      r.admits behind (h.taken ++ h.rest) = true ∧ ∀ u w, behind.reverse = u ++ w → w ≠ [] →
        r.pattern.first? (w ++ (h.taken ++ h.rest)) = none ∨ r.admits u.reverse (w ++ (h.taken ++ h.rest)) = false := by
  obtain ⟨u, v, rfl, rfl, hfirst, hadmits⟩ := search_eq_some hs
  obtain ⟨hv, -, -⟩ := hr.hit (List.mem_of_mem_head? hfirst)
  rw [List.append_nil] at hs hadmits ⊢
  rw [List.reverse_reverse, ← hv]
  refine ⟨rfl, hfirst, hadmits, ?_⟩
  rintro u' w rfl hw
  have := search_leftmost hs (by rw [List.append_assoc]) hw (by rw [List.append_nil])
  rwa [List.append_nil] at this

/-- What an occurrence that is found says. -/
theorem find_eq_some {r : Rule} (hr : r.pattern.IsAligned) {id : Nat} {t : Text} {o : Occurrence} (hf : r.find id t = .ok (some o)) :
    ∃ before after h, t = before ++ (o.text ++ after) ∧ Text.byteSize before = o.start ∧
      r.pattern.first? (o.text ++ after) = some h ∧ h.taken = o.text ∧ h.rest = after ∧
      r.admits before.reverse (o.text ++ after) = true ∧
      ∀ u w, before = u ++ w → w ≠ [] → r.pattern.first? (w ++ (o.text ++ after)) = none ∨
        r.admits u.reverse (w ++ (o.text ++ after)) = false := by
  obtain ⟨behind, h, hs, ho⟩ := search_of_find hf
  obtain ⟨-, hstart, -, htext, -⟩ := occurrence_eq_ok ho
  obtain ⟨ht, hfirst, hadmits, hearlier⟩ := search_eq_some_of_aligned hr hs
  rw [← htext] at ht hfirst hadmits hearlier
  exact ⟨behind.reverse, h.rest, h, ht, by rw [hstart, Text.byteSize_reverse], hfirst, htext.symm, rfl,
    by rwa [List.reverse_reverse], hearlier⟩

/-- The number rule stops at the end of a text when its last character is one that the guard refuses. -/
def EndsRefused (u : Text) : Prop := ∃ c ∈ u.getLast?, c = '@' ∨ c = '/' ∨ c.isDigit = true

theorem numberAdmits_eq_false (u v : Text) : numberAdmits u.reverse v = false ↔ EndsRefused u := by
  rw [numberAdmits, Bool.not_eq_false', List.head?_reverse, Option.any_eq_true]
  simp only [EndsRefused, Bool.or_eq_true, beq_iff_eq, or_assoc, Option.mem_def]

/-- Refusals go on from digit to digit, so they began after a slash or an at sign. -/
theorem exists_digits_of_endsRefused {u : Text} (h : EndsRefused u)
    (hprevious : ∀ v c w, u = v ++ c :: w → Text.isNumeric c = true → EndsRefused v) :
    ∃ outer digits, u = outer ++ digits ∧ (∀ c ∈ digits, c.isDigit = true) ∧
      (outer.getLast? = some '@' ∨ outer.getLast? = some '/') := by
  induction u using List.reverseRecOn with
  | nil => simp [EndsRefused] at h
  | append_singleton u c ih =>
    obtain ⟨d, hd, hc⟩ := h
    rw [List.getLast?_concat, Option.mem_def, Option.some.injEq] at hd
    subst hd
    rcases hc with rfl | rfl | hdigit
    · exact ⟨u ++ ['@'], [], by simp, by simp, by simp⟩
    · exact ⟨u ++ ['/'], [], by simp, by simp, by simp⟩
    · have hu : EndsRefused u := hprevious u c [] rfl (Text.isNumeric_of_isDigit hdigit)
      obtain ⟨outer, digits, rfl, hdigits, hlast⟩ :=
        ih hu fun v e w hv he => hprevious v e (w ++ [c]) (by rw [hv]; simp) he
      refine ⟨outer, digits ++ [c], by simp, ?_, hlast⟩
      intro e he
      rcases List.mem_append.1 he with he | he
      · exact hdigits e he
      · rwa [List.mem_singleton.1 he]

/-- The number rule matches wherever a numeric character stands. -/
theorem first?_number_ne_none {c : Char} (hc : Text.isNumeric c = true) (rest : Text) :
    number.pattern.first? (c :: rest) ≠ none := by
  have hrun : Pattern.numeral.hits (c :: rest) =
      [⟨c :: rest.takeWhile Text.isNumeric, (c :: rest).dropWhile Text.isNumeric, []⟩] := by
    change Pattern.hits (.run Text.isNumeric) _ = _
    rw [Pattern.hits, List.takeWhile_cons_of_pos hc]
  change ((Pattern.numeral.hits (c :: rest)).map _).head? ≠ none
  rw [hrun]
  simp

/-- A match of the number rule is a numeral that goes on no further. -/
theorem numeral_of_number {v : Text} {h : Hit} (hf : number.pattern.first? v = some h) :
    h.taken ≠ [] ∧ (∀ c ∈ h.taken, Text.isNumeric c = true) ∧ ∀ c ∈ h.rest.head?, Text.isNumeric c = false := by
  obtain ⟨k, hk, rfl⟩ := List.mem_map.1 (List.mem_of_mem_head? hf)
  obtain ⟨htaken, hne, hrest, -⟩ := Pattern.mem_hits_run hk
  refine ⟨hne, fun c hc => ?_, fun c hc => ?_⟩
  · rw [htaken] at hc
    exact List.all_eq_true.1 List.all_takeWhile c hc
  · rw [hrest] at hc
    have hstop := List.head?_dropWhile_not Text.isNumeric v
    rw [show (v.dropWhile Text.isNumeric).head? = some c from hc] at hstop
    exact hstop

/-- A search for a number finds a numeral, or what follows the first point of one that stands after a slash or an at sign and has only
digits before that point. -/
theorem search_number {t behind : Text} {h : Hit} (hs : number.search [] t = some (behind, h)) :
    ∃ outer lead, behind.reverse = outer ++ lead ∧ t = outer ++ lead ++ h.taken ++ h.rest ∧
      Text.IsNumeral outer (lead ++ h.taken) h.rest ∧
      (lead = [] ∨ ∃ digits, lead = digits ++ ['.'] ∧ (∀ c ∈ digits, c.isDigit = true) ∧
        (outer.getLast? = some '@' ∨ outer.getLast? = some '/')) := by
  obtain ⟨ht, hfirst, hadmits, hearlier⟩ := search_eq_some_of_aligned (isAligned_standard number (by simp [standard])) hs
  obtain ⟨hne, hnumeric, hright⟩ := numeral_of_number hfirst
  -- the pattern matches at every numeric character, so where it was not taken the guard refused
  have hrefused : ∀ u c w, behind.reverse = u ++ c :: w → Text.isNumeric c = true → EndsRefused u := by
    intro u c w hu hc
    have hguard := (hearlier u (c :: w) hu (by simp)).resolve_left (first?_number_ne_none hc _)
    exact (numberAdmits_eq_false u []).1 hguard
  rcases List.eq_nil_or_concat behind.reverse with hnil | ⟨u, c, hu⟩
  · exact ⟨[], [], hnil, by simpa [hnil] using ht, ⟨hne, hnumeric, by simp, hright⟩, .inl rfl⟩
  rw [List.concat_eq_append] at hu
  rw [hu] at ht
  by_cases hc : Text.isNumeric c = true
  · have hpoint : c = '.' := by
      have hadmits' : numberAdmits (u ++ [c]).reverse (h.taken ++ h.rest) = true := by
        rw [← hu, List.reverse_reverse]
        exact hadmits
      rw [← Bool.not_eq_false, numberAdmits_eq_false] at hadmits'
      have hdigit : c.isDigit ≠ true := fun hd => hadmits' ⟨c, by simp, .inr (.inr hd)⟩
      simpa [Text.isNumeric, hdigit] using hc
    subst hpoint
    obtain ⟨outer, digits, rfl, hdigits, hlast⟩ :=
      exists_digits_of_endsRefused (hrefused u '.' [] hu hc) fun v d w hv hd => hrefused v d (w ++ ['.']) (by rw [hu, hv]; simp) hd
    refine ⟨outer, digits ++ ['.'], by rw [hu, List.append_assoc], by simpa using ht, ⟨by simp, ?_, ?_, hright⟩,
      .inr ⟨digits, rfl, hdigits, hlast⟩⟩
    · intro d hd
      rcases List.mem_append.1 hd with hd | hd
      · rcases List.mem_append.1 hd with hd | hd
        · exact Text.isNumeric_of_isDigit (hdigits d hd)
        · rw [List.mem_singleton.1 hd]
          rfl
      · exact hnumeric d hd
    · rcases hlast with hlast | hlast
      · exact Text.boundary_of_getLast? hlast (by decide)
      · exact Text.boundary_of_getLast? hlast (by decide)
  · refine ⟨u ++ [c], [], by rw [hu, List.append_nil], by simpa using ht, ⟨hne, hnumeric, ?_, hright⟩, .inl rfl⟩
    exact Text.boundary_of_getLast? List.getLast?_concat (Bool.eq_false_iff.2 hc)

/-- So does an occurrence of the number rule. -/
theorem find_number {t : Text} {id : Nat} {o : Occurrence} (hf : number.find id t = .ok (some o)) :
    ∃ outer lead after, t = outer ++ lead ++ o.text ++ after ∧ Text.byteSize (outer ++ lead) = o.start ∧
      Text.IsNumeral outer (lead ++ o.text) after ∧
      (lead = [] ∨ ∃ digits, lead = digits ++ ['.'] ∧ (∀ c ∈ digits, c.isDigit = true) ∧
        (outer.getLast? = some '@' ∨ outer.getLast? = some '/')) := by
  obtain ⟨behind, h, hs, ho⟩ := search_of_find hf
  obtain ⟨-, hstart, -, htext, -⟩ := occurrence_eq_ok ho
  obtain ⟨outer, lead, hbehind, ht, hnumeral, hlead⟩ := search_number hs
  rw [← htext] at ht hnumeral
  exact ⟨outer, lead, h.rest, ht, by rw [hstart, ← hbehind, Text.byteSize_reverse], hnumeral, hlead⟩

/-- Where a numeral begins, the base of a power is that numeral up to its right end. -/
theorem hits_powerBase {body rest : Text} (hne : body ≠ []) (inside : ∀ c ∈ body, Text.isNumeric c = true)
    (boundary : ∀ c ∈ rest.head?, Text.isNumeric c = false) : powerBase.hits (body ++ rest) = [⟨body, rest, []⟩] := by
  have hrun : Pattern.numeral.hits (body ++ rest) = [⟨body, rest, []⟩] := by
    obtain ⟨c, cs, rfl⟩ := List.exists_cons_of_ne_nil hne
    change Pattern.hits (.run Text.isNumeric) _ = _
    rw [Pattern.hits, Text.takeWhile_numeral inside boundary, Text.dropWhile_numeral inside boundary]
  obtain ⟨c, cs, rfl⟩ := List.exists_cons_of_ne_nil hne
  have hc := inside c (by simp)
  -- no other base begins with a numeric character
  have hother : ∀ d, Text.isNumeric d = false → c ≠ d := by
    rintro d hd rfl
    rw [hc] at hd
    cases hd
  have htoken : Pattern.token.hits (c :: cs ++ rest) = [] :=
    Pattern.hits_token_of_split?_eq_none (Token.split?_of_ne (hother '@' (by decide)) _)
  have hcommand : (Pattern.word "\\" ++ .anyWord ["pi", "Phi", "Omega"]).hits (c :: cs ++ rest) = [] := by
    refine List.eq_nil_iff_forall_not_mem.2 fun h hh => ?_
    obtain ⟨k, hk, -⟩ := Pattern.mem_hits_sequence hh
    exact hother '\\' (by decide) (List.cons.inj (Pattern.mem_hits_literal hk).1).1
  have hletter : (Pattern.oneOf Char.isAlpha).hits (c :: cs ++ rest) = [] := by
    simp [Pattern.hits, Text.not_isAlpha_of_isNumeric hc]
  rw [powerBase, Pattern.hits, Pattern.hits, Pattern.hits, htoken, hcommand, hrun, hletter]
  rfl

/-- A numeral is the base of a power to its right end, so only what follows it decides whether there is a power. -/
theorem first?_power {body rest : Text} (hne : body ≠ []) (inside : ∀ c ∈ body, Text.isNumeric c = true) :
    power.pattern.first? (body ++ '^' :: rest) = none ↔ powerTail.hits ('^' :: rest) = [] := by
  rw [Pattern.first?, List.head?_eq_none_iff, hits_power, hits_powerBase hne inside (by simp [Text.isNumeric]),
    List.flatMap_singleton, List.map_eq_nil_iff]

/-- The base of a power that is written with a numeral is all of it, or all but the first character of one that stands after an
underscore. -/
theorem find_power {t : Text} {id : Nat} {o : Occurrence} (hf : power.find id t = .ok (some o)) {base exponent : Text}
    (htext : o.text = base ++ '^' :: exponent) (hne : base ≠ []) (hbase : ∀ c ∈ base, Text.isNumeric c = true) :
    ∃ outer lead after, t = outer ++ lead ++ o.text ++ after ∧ Text.byteSize (outer ++ lead) = o.start ∧
      Text.IsNumeral outer (lead ++ base) ('^' :: exponent ++ after) ∧
      (lead = [] ∨ ∃ c, lead = [c] ∧ outer.getLast? = some '_') := by
  obtain ⟨before, after, h, ht, hstart, hfirst, -, -, hadmits, hearlier⟩ :=
    find_eq_some (isAligned_standard power (by simp [standard])) hf
  have htail : powerTail.hits ('^' :: (exponent ++ after)) ≠ [] := by
    rw [htext, List.append_assoc, List.cons_append] at hfirst
    rw [Ne, ← first?_power hne hbase, hfirst]
    simp
  have hright : ∀ c ∈ ('^' :: exponent ++ after).head?, Text.isNumeric c = false := by
    simp [Text.isNumeric]
  rcases List.eq_nil_or_concat before with rfl | ⟨u, c, rfl⟩
  · exact ⟨[], [], after, by simpa using ht, hstart, ⟨hne, hbase, by simp, hright⟩, .inl rfl⟩
  rw [List.concat_eq_append] at *
  by_cases hc : Text.isNumeric c = true
  · have hall : ∀ d ∈ c :: base, Text.isNumeric d = true := by
      intro d hd
      rcases List.mem_cons.1 hd with rfl | hd
      · exact hc
      · exact hbase d hd
    -- one character earlier the pattern matches as well, so the guard must have seen an underscore there
    have hguard : power.admits u.reverse ([c] ++ (o.text ++ after)) = false := by
      refine (hearlier u [c] rfl (by simp)).resolve_left ?_
      rw [htext, show [c] ++ (base ++ '^' :: exponent ++ after) = c :: base ++ '^' :: (exponent ++ after) by simp,
        first?_power (by simp) hall]
      exact htail
    have hlast : u.getLast? = some '_' := by
      change powerAdmits u.reverse (c :: (o.text ++ after)) = false at hguard
      simpa [powerAdmits, Text.not_isAlpha_of_isNumeric hc] using hguard
    refine ⟨u, [c], after, by simpa using ht, hstart, ⟨by simp, hall, ?_, hright⟩, .inr ⟨c, rfl, hlast⟩⟩
    exact Text.boundary_of_getLast? hlast (by decide)
  · refine ⟨u ++ [c], [], after, by simpa using ht, by simpa using hstart, ⟨hne, hbase, ?_, hright⟩, .inl rfl⟩
    exact Text.boundary_of_getLast? List.getLast?_concat (Bool.eq_false_iff.2 hc)

/-- How much of a numeral the number rule and the base of a power take up: it goes on no further to the right, and it begins with the
numeral, unless the guard refused what comes before. That is a part of a numeral up to its first point, after a slash or an at sign,
for a number, and one character after an underscore for a base. -/
theorem find_numeral (t : Text) (id : Nat) (o : Occurrence) :
    (number.find id t = .ok (some o) →
      ∃ outer lead after, t = outer ++ lead ++ o.text ++ after ∧ Text.byteSize (outer ++ lead) = o.start ∧
        Text.IsNumeral outer (lead ++ o.text) after ∧
        (lead = [] ∨ ∃ digits, lead = digits ++ ['.'] ∧ (∀ c ∈ digits, c.isDigit = true) ∧
          (outer.getLast? = some '@' ∨ outer.getLast? = some '/'))) ∧
    (power.find id t = .ok (some o) →
      ∀ base exponent, o.text = base ++ '^' :: exponent → base ≠ [] → (∀ c ∈ base, Text.isNumeric c = true) →
        ∃ outer lead after, t = outer ++ lead ++ o.text ++ after ∧ Text.byteSize (outer ++ lead) = o.start ∧
          Text.IsNumeral outer (lead ++ base) ('^' :: exponent ++ after) ∧
          (lead = [] ∨ ∃ c, lead = [c] ∧ outer.getLast? = some '_')) :=
  ⟨find_number, fun hf _ _ htext hne hbase => find_power hf htext hne hbase⟩

/-- Both kinds of occurrence at work: a number after a token, and a power with a numeral for its base. -/
theorem find_numeral_example :
    ∃ o o', number.find 6 "@/12/@+2.5".toList = .ok (some o) ∧ power.find 5 "\\log_2^3+25^2".toList = .ok (some o') ∧
      (∃ outer lead after, "@/12/@+2.5".toList = outer ++ lead ++ o.text ++ after ∧
        Text.byteSize (outer ++ lead) = o.start ∧ Text.IsNumeral outer (lead ++ o.text) after ∧
        (lead = [] ∨ ∃ digits, lead = digits ++ ['.'] ∧ (∀ c ∈ digits, c.isDigit = true) ∧
          (outer.getLast? = some '@' ∨ outer.getLast? = some '/'))) ∧
      ∃ outer lead after, "\\log_2^3+25^2".toList = outer ++ lead ++ o'.text ++ after ∧
        Text.byteSize (outer ++ lead) = o'.start ∧ Text.IsNumeral outer (lead ++ "25".toList) ("^2".toList ++ after) ∧
        (lead = [] ∨ ∃ c, lead = [c] ∧ outer.getLast? = some '_') := by
  have hnumber : number.find 6 "@/12/@+2.5".toList = .ok (some ⟨6, 7, 10, "2.5".toList, none, [some (.literal 2.5)]⟩) := by
    decide +kernel
  have hpower : power.find 5 "\\log_2^3+25^2".toList =
      .ok (some ⟨5, 9, 13, "25^2".toList, none, [some (.literal 25), some (.literal 2)]⟩) := by
    decide +kernel
  exact ⟨_, _, hnumber, hpower, (find_numeral _ _ _).1 hnumber,
    (find_numeral _ _ _).2 hpower "25".toList "2".toList rfl (by simp) (by simp [Text.isNumeric])⟩

/-- Neither rule keeps to whole numerals: of `2.5` after a slash only what follows the point is taken for a number, and of `25` after
an underscore only the last digit is taken for the base of a power. -/
theorem exists_part_of_numeral :
    (∃ o, number.find 6 "x/2.5".toList = .ok (some o) ∧
      ∀ before after, "x/2.5".toList = before ++ o.text ++ after → ¬ Text.IsNumeral before o.text after) ∧
    ∃ o, power.find 5 "\\log_25^2".toList = .ok (some o) ∧ o.text = "5^2".toList ∧
      ∀ before after, "\\log_25^2".toList = before ++ o.text ++ after → ¬ Text.IsNumeral before "5".toList ("^2".toList ++ after) := by
  have hnumber : number.find 6 "x/2.5".toList = .ok (some ⟨6, 4, 5, "5".toList, none, [some (.literal 5)]⟩) := by
    decide +kernel
  have hpower : power.find 5 "\\log_25^2".toList =
      .ok (some ⟨5, 6, 9, "5^2".toList, none, [some (.literal 5), some (.literal 2)]⟩) := by
    decide +kernel
  refine ⟨⟨_, hnumber, fun before after ht hnumeral => ?_⟩, _, hpower, rfl, fun before after ht hnumeral => ?_⟩
  · have hbefore : before = "x/2.".toList := by
      have hsplit : before = "x/2.".toList ∧ after = [] := by simpa [List.cons_eq_append_iff] using ht
      exact hsplit.1
    subst hbefore
    exact absurd (hnumeral.left '.' rfl) (by decide)
  · have hbefore : before = "\\log_2".toList := by
      have hsplit : before = "\\log_2".toList ∧ after = [] := by simpa [List.cons_eq_append_iff] using ht
      exact hsplit.1
    subst hbefore
    exact absurd (hnumeral.left '2' rfl) (by decide)

end Rule

end FormulaDag
