import FormulaDag.Proofs.Rule.Placement
import FormulaDag.Proofs.Rule.Renaming

/-!
# All rules are uniform

Most rules begin with a character that is no part of a token, so they cannot match inside of one. Numbers are kept out of tokens by their
guard, and a power that begins with the last character of a token has the same base in both texts.
-/

namespace FormulaDag

open Token (Renamed)

namespace Rule

/-- A rule that begins with a backslash or a letter is uniform if its guard looks no further than the nearest token. -/
theorem IsUniform.of_begins {r : Rule} (haligned : r.pattern.IsAligned)
    (hguarded : ∀ {behind behind' t t' : Text}, SameNear behind behind' → t.head? = t'.head? → r.admits behind t = r.admits behind' t')
    (hbegins : r.pattern.Begins fun c => c == '\\' || c.isAlpha)
    (hchoices : ∀ s, r.selector = some s → ∀ choice ∈ s.choices, '@' ∉ choice.toList) : r.IsUniform where
  aligned := haligned
  guarded := hguarded
  slash := by
    intro behind rest
    exact hitAt_of_hits (hbegins.hits_eq_nil (by decide) rest) behind
  digit := by
    intro behind digits c rest _ hc _
    have hother : (c == '\\' || c.isAlpha) = false := by
      rw [Text.not_isAlpha_of_isDigit hc, Bool.or_false, beq_eq_false_iff_ne]
      rintro rfl
      simp at hc
    exact hitAt_of_hits (hbegins.hits_eq_nil hother _) behind
  closing := by
    intro ρ behind behind' u u' _
    rw [hitAt_of_hits (hbegins.hits_eq_nil (by decide) u), hitAt_of_hits (hbegins.hits_eq_nil (by decide) u')]
    exact .none
  choices := hchoices

/-- The rule of numbers is uniform. -/
theorem isUniform_number : number.IsUniform where
  aligned := isAligned_standard _ (by simp [standard])
  guarded := by
    intro behind behind' t t' hb _
    change numberAdmits behind t = numberAdmits behind' t'
    rw [numberAdmits, numberAdmits, hb.head?]
  slash := by
    intro behind rest
    rfl
  digit := by
    intro behind digits c rest hb hc hd
    rw [hitAt, Option.filter_eq_none_iff]
    intro h _
    change ¬ numberAdmits behind (c :: (digits ++ '/' :: rest)) = true
    rw [numberAdmits]
    cases hhead : behind.head? with
    | none => simp [hhead] at hb
    | some d =>
      rw [hhead] at hb
      simp only [Option.any_some, Bool.or_eq_true, beq_iff_eq] at hb ⊢
      rcases hb with rfl | hb
      · decide
      · simp [hb]
  closing := by
    intro ρ behind behind' u u' _
    exact .none
  choices := by simp [number]

/-- What a power may have as its base. -/
def powerBase : Pattern :=
  .either .token (.either (.word "\\" ++ .anyWord ["pi", "Phi", "Omega"]) (.either .numeral (.oneOf Char.isAlpha)))

/-- The sign and the exponent of a power. -/
def powerTail : Pattern := .sequence (.word "^") (.named "exponent" (.either .token (.oneOf Char.isDigit)))

/-- The base of a power does not end within a token. -/
theorem isAligned_powerBase : powerBase.IsAligned := .either .token (.either
  (.sequence (Pattern.IsAligned.literal (w := "\\".toList) (by decide)) (.anyWord (by decide))) (.either .numeral (.oneOf (by decide))))

/-- The base of a power is a token, a command, a numeral or a letter. -/
theorem mem_hits_powerBase {t : Text} {h : Hit} (hh : h ∈ powerBase.hits t) : h ∈ Pattern.token.hits t ∨
    h ∈ Pattern.hits (.word "\\" ++ .anyWord ["pi", "Phi", "Omega"]) t ∨ h ∈ Pattern.numeral.hits t ∨
      h ∈ Pattern.hits (.oneOf Char.isAlpha) t := by
  rwa [powerBase, Pattern.hits, List.mem_append, Pattern.hits, List.mem_append, Pattern.hits, List.mem_append] at hh

/-- The tail of a power does not end within a token. -/
theorem isAligned_powerTail : powerTail.IsAligned :=
  .sequence (.literal (by decide)) (.named (.either .token (.oneOf (by decide))))

/-- The matches of a power are those of its base, each with those of the rest behind it. -/
theorem hits_power (t : Text) : power.pattern.hits t = (powerBase.hits t).flatMap fun base =>
    (powerTail.hits base.rest).map fun k => ⟨base.taken ++ k.taken, k.rest, ("value", base.taken) :: (base.parts ++ k.parts)⟩ := by
  change Pattern.hits (.sequence (.sequence (.named "value" powerBase) (.word "^")) _) t = _
  rw [Pattern.hits, Pattern.hits, Pattern.hits, List.flatMap_map, List.flatMap_assoc]
  refine List.flatMap_congr fun base _ => ?_
  rw [powerTail, Pattern.hits, List.flatMap_map, List.map_flatMap]
  refine List.flatMap_congr fun k _ => ?_
  rw [List.map_map]
  refine List.map_congr_left fun l _ => ?_
  simp

/-- A power does not begin with the digits of a token: they are followed by a stroke. -/
theorem hits_power_digits {c : Char} {digits : Text} (hc : c.isDigit = true) (hd : ∀ d ∈ digits, d.isDigit = true) (rest : Text) :
    power.pattern.hits (c :: (digits ++ '/' :: rest)) = [] := by
  have hne : ∀ d : Char, d.isDigit = false → c ≠ d := by
    rintro d hd rfl
    rw [hc] at hd
    cases hd
  have hnumeral : ∀ d ∈ c :: digits, (d.isDigit || d == '.') = true := by
    intro d hmem
    rcases List.mem_cons.1 hmem with rfl | hmem
    · rw [hc, Bool.true_or]
    · rw [hd d hmem, Bool.true_or]
  have hdrop : (c :: (digits ++ '/' :: rest)).dropWhile (fun d => d.isDigit || d == '.') = '/' :: rest := by
    rw [← List.cons_append, List.dropWhile_append_of_pos hnumeral]
    rfl
  have hrest : ∀ base ∈ powerBase.hits (c :: (digits ++ '/' :: rest)), base.rest = '/' :: rest := by
    intro base hbase
    rw [powerBase, Pattern.hits, Pattern.hits, Pattern.hits, Pattern.hits_token_of_split?_eq_none
      (Token.split?_of_ne (hne '@' (by decide)) _), List.nil_append] at hbase
    rcases List.mem_append.1 hbase with hbase | hbase
    · obtain ⟨k, hk, -⟩ := Pattern.mem_hits_sequence hbase
      obtain ⟨ht, -, -⟩ := Pattern.mem_hits_literal hk
      exact absurd (List.cons.inj ht).1 (hne '\\' (by decide))
    · rcases List.mem_append.1 hbase with hbase | hbase
      · exact (Pattern.mem_hits_run hbase).2.2.1.trans hdrop
      · rw [Pattern.hits, if_neg (by simp [Text.not_isAlpha_of_isDigit hc])] at hbase
        simp at hbase
  rw [hits_power, List.flatMap_eq_nil_iff]
  intro base hbase
  rw [hrest base hbase]
  rfl

/-- Where a power begins with the first character of a token, its base is the token. -/
theorem hits_powerBase_at (u : Text) : powerBase.hits ('@' :: u) = Pattern.token.hits ('@' :: u) := by
  rw [powerBase, Pattern.hits]
  exact List.append_nil _

/-- The rule of powers is uniform. -/
theorem isUniform_power : power.IsUniform where
  aligned := isAligned_standard _ (by simp [standard])
  guarded := by
    intro behind behind' t t' hb ht
    change powerAdmits behind t = powerAdmits behind' t'
    rw [powerAdmits, powerAdmits, hb.head?, ht, hb.isInside]
  slash := by
    intro behind rest
    rfl
  digit := by
    intro behind digits c rest _ hc hd
    exact hitAt_of_hits (hits_power_digits hc hd rest) behind
  closing := by
    intro ρ behind behind' u u' h
    have hadmits : ∀ b w, power.admits ('/' :: b) ('@' :: w) = true := fun _ _ => rfl
    simp only [hitAt, hadmits, Pattern.first?, hits_power, hits_powerBase_at]
    cases hs : Token.split? ('@' :: u) with
    | none =>
      rw [Pattern.hits_token_of_split?_eq_none hs, Pattern.hits_token_of_split?_eq_none (h.split?_eq_none hs)]
      exact .none
    | some split =>
      obtain ⟨digits, v⟩ := split
      obtain ⟨v', hs', hv⟩ := h.exists_split? hs
      rw [Pattern.hits_token_of_split? hs, Pattern.hits_token_of_split? hs', List.flatMap_singleton, List.flatMap_singleton]
      cases hv with
      | plain _ _ rest =>
        have htail := isAligned_powerTail.renamed rest
        generalize powerTail.hits v = hits at htail
        generalize powerTail.hits v' = hits' at htail
        cases htail with
        | nil => exact .none
        | cons hhit =>
          exact .some (.cons ⟨rfl, .inl rfl⟩ (hhit.parts.imp fun _ _ he => ⟨he.1, .inr he.2⟩))
      | token hs hs' =>
        -- the base would end where a token begins, and that is not followed by the sign of a power
        obtain ⟨w, rfl⟩ : ∃ w, v = '/' :: w := ⟨_, by simpa using Token.split?_eq_some hs⟩
        obtain ⟨w', rfl⟩ : ∃ w, v' = '/' :: w := ⟨_, by simpa using Token.split?_eq_some hs'⟩
        exact .none
  choices := by simp [power]

/-- The standard rules are uniform. -/
theorem isUniform_standard : ∀ r ∈ standard, r.IsUniform := by
  have hchoices : ∀ r ∈ standard, ∀ s, r.selector = some s → ∀ choice ∈ s.choices, '@' ∉ choice.toList := by
    intro r hr s hs
    simp only [standard, List.mem_cons, List.not_mem_nil, or_false] at hr
    rcases hr with rfl | rfl | rfl | rfl | rfl | rfl | rfl
    all_goals cases hs
    all_goals decide
  intro r hr
  rcases begins_standard hr with rfl | rfl | ⟨hbegins, hadmits⟩
  · exact isUniform_power
  · exact isUniform_number
  · exact .of_begins (isAligned_standard r hr) (fun _ _ => by rw [hadmits]) hbegins (hchoices r hr)

end Rule

/-- The rule of a function is uniform. -/
theorem UserFunction.isUniform_rule (f : UserFunction) : f.rule.IsUniform :=
  .of_begins f.isAligned_rule (fun hb _ => congrArg not hb.isInside) f.begins_rule (by rintro s ⟨⟩)

namespace RuleSet

/-- All rules of a rule set are uniform. -/
theorem isUniform (s : RuleSet) : ∀ r ∈ s.rules, r.IsUniform := by
  intro r hr
  rcases List.mem_append.1 hr with hr | hr
  · obtain ⟨f, -, rfl⟩ := List.mem_map.1 hr
    exact f.isUniform_rule
  · exact Rule.isUniform_standard r hr

/-- Texts that differ in indices only are described by the same rule, with related operands. -/
theorem resolve_alike (s : RuleSet) {ρ : Nat → Nat → Prop} {t t' : Text} (h : Renamed ρ t t') :
    Alike (Option.Rel (RenamedOccurrence (RenamedOperand ρ))) (s.resolve t) (s.resolve t') := by
  have hnumbered : ∀ l : List (Nat × Rule), (∀ e ∈ l, e.2.IsUniform) →
      Alike (Option.Rel (RenamedOccurrence (RenamedOperand ρ))) (resolveWith t l) (resolveWith t' l) := by
    intro l hl
    induction l with
    | nil => exact .ok .none
    | cons e rest ih =>
      obtain ⟨id, r⟩ := e
      have hwhole := (hl (id, r) (by simp)).findWhole_alike id h
      rw [resolveWith, resolveWith]
      generalize r.findWhole id t = found at hwhole
      generalize r.findWhole id t' = found' at hwhole
      cases hwhole with
      | error => exact .error _ _
      | ok ho =>
        cases ho with
        | some ho => exact .ok (.some ho)
        | none => exact ih fun e he => hl e (List.mem_cons_of_mem _ he)
  exact hnumbered _ fun e he => s.isUniform e.2 (mem_of_numbered he)

end RuleSet

end FormulaDag
