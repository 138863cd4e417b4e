import FormulaDag.Proofs.Expression.Occurrences

/-!
# The forms of whole texts

The texts that a standard rule takes up as a whole, written out: a command word with its index tokens, a power, or a number. Every form is
taken in by the pattern of its rule, with the operands that its parts stand for, and everything that a pattern takes in has such a form.
-/

namespace FormulaDag

namespace Text

/-- A text in which every token has an index and every numeral a value. -/
structure Readable (t : Text) : Prop where
  token : ∀ digits, digits ≠ [] → (∀ c ∈ digits, isDecimalDigit c = true) → "@/".toList ++ digits ++ "/@".toList <:+: t →
    ∃ i, Index.read? digits = some i
  numeral : ∀ outer numeral after, t = outer ++ numeral ++ after → IsNumeral outer numeral after → ∃ x, Decimal.read? numeral = some x

end Text

namespace Operand

/-- The token of an index, with the operand that it stands for. -/
inductive IsIndex : Text → Operand → Prop where
  | token {digits : Text} {i : Nat} (hne : digits ≠ []) (hdigits : ∀ c ∈ digits, Text.isDecimalDigit c = true)
      (hread : Index.read? digits = some i) : IsIndex ("@/".toList ++ digits ++ "/@".toList) (.index i)

/-- A nonempty run of digits and points, with its value. -/
inductive IsNumber : Text → Operand → Prop where
  | numeral {run : Text} {x : Float} (hne : run ≠ []) (hnumeric : ∀ c ∈ run, Text.isNumeric c = true)
      (hread : Decimal.read? run = some x) : IsNumber run (.literal x)

/-- What may be the base of a logarithm. -/
inductive IsLogarithmBase : Text → Operand → Prop where
  | index {w : Text} {x : Operand} (h : IsIndex w x) : IsLogarithmBase w x
  | number {w : Text} {x : Operand} (h : IsNumber w x) : IsLogarithmBase w x

/-- What may be the base of a power. A letter is kept as it is written. -/
inductive IsPowerBase : Text → Operand → Prop where
  | index {w : Text} {x : Operand} (h : IsIndex w x) : IsPowerBase w x
  | pi : IsPowerBase "\\pi".toList (.literal Symbol.pi)
  | goldenRatio : IsPowerBase "\\Phi".toList (.literal Symbol.goldenRatio)
  | omega : IsPowerBase "\\Omega".toList (.literal Symbol.omega)
  | number {w : Text} {x : Operand} (h : IsNumber w x) : IsPowerBase w x
  | letter {c : Char} (hc : c.isAlpha = true) : IsPowerBase [c] (.raw [c])

/-- What may be the exponent of a power. -/
inductive IsExponent : Text → Operand → Prop where
  | index {w : Text} {x : Operand} (h : IsIndex w x) : IsExponent w x
  | digit {c : Char} {x : Operand} (hc : c.isDigit = true) (h : IsNumber [c] x) : IsExponent [c] x

end Operand

namespace Rule

open Operand

/-- The forms of texts, each with the number of the rule that describes it, the function that it names, and its operands. -/
inductive Form : Text → Nat → Option String → List (Option Operand) → Prop where
  | squareRoot {w : Text} {x : Operand} (h : IsIndex w x) : Form ("\\sqrt".toList ++ w) 0 none [some (.literal 2.0), some x]
  | root {v w : Text} {x y : Operand} (hdegree : IsIndex v x) (h : IsIndex w y) :
      Form ("\\sqrt[".toList ++ v ++ "]".toList ++ w) 0 none [some x, some y]
  | fraction {v w : Text} {x y : Operand} (hv : IsIndex v x) (hw : IsIndex w y) :
      Form ("\\frac".toList ++ v ++ w) 1 none [some x, some y]
  | logarithm {f : String} {w : Text} {x : Operand} (hf : f ∈ ["lg", "ln", "log"]) (h : IsIndex w x) :
      Form ("\\".toList ++ f.toList ++ w) 2 (some f) [none, some x]
  | logarithmWithBase {f : String} {v w : Text} {x y : Operand} (hf : f ∈ ["lg", "ln", "log"]) (hbase : IsLogarithmBase v x)
      (h : IsIndex w y) : Form ("\\".toList ++ f.toList ++ "_".toList ++ v ++ w) 2 (some f) [some x, some y]
  | trigonometry {f : String} {w : Text} {x : Operand} (hf : f ∈ trigonometricWords) (h : IsIndex w x) :
      Form ("\\".toList ++ f.toList ++ w) 3 (some f) [some x]
  | inverseTrigonometry {f : String} {w : Text} {x : Operand} (hf : f ∈ inverseWords) (h : IsIndex w x) :
      Form ("\\".toList ++ f.toList ++ w) 4 (some f) [some x]
  | power {v w : Text} {x y : Operand} (hbase : IsPowerBase v x) (h : IsExponent w y) :
      Form (v ++ "^".toList ++ w) 5 none [some x, some y]
  | number {w : Text} {x : Operand} (h : IsNumber w x) : Form w 6 none [some x]

end Rule

/-! ## Operands -/

namespace Operand

section
variable {v w t : Text} {x y : Operand} {slot : Slot} {rule : String} {parts : List (String × Text)}

/-- The pattern of a token takes an index as it is written. -/
theorem IsIndex.takes (h : IsIndex w x) (t : Text) : Pattern.token.Takes w t [] := by
  cases h with
  | token hne hdigits hread =>
    have hsplit := Token.split?_digits hne hdigits t
    rw [Pattern.Takes, Pattern.first?]
    simp only [List.append_assoc]
    change (Pattern.token.hits ('@' :: '/' :: (_ ++ '/' :: '@' :: t))).head? = _
    rw [Pattern.hits_token_of_split? hsplit]
    simp [Piece.text]

theorem IsIndex.exists_cons (h : IsIndex w x) : ∃ rest, w = '@' :: rest := by
  cases h with
  | token => exact ⟨_, rfl⟩

/-- A pattern that begins with another sign than a token may be absent before one. -/
theorem IsIndex.takes_absent (h : IsIndex w x) (p : Pattern) {first : Char} (hp : p.Begins fun c => c == first) (hfirst : first ≠ '@')
    (t : Text) : (Pattern.optional p).Takes [] (w ++ t) [] := by
  obtain ⟨rest, rfl⟩ := h.exists_cons
  refine .absent ?_
  rw [Pattern.first?, List.cons_append, hp.hits_eq_nil (by simpa using hfirst.symm)]
  rfl

/-- The written form of an index is read as that index, in a slot that takes one. -/
theorem IsIndex.operand (h : IsIndex w x) (htakes : slot.takesIndex = true) (hlookup : parts.lookup slot.name = some w) :
    slot.operand rule parts = .ok (some x) := by
  cases h with
  | @token digits i hne hdigits hread =>
    have hliteral : Slot.literal? ("@/".toList ++ digits ++ "/@".toList) = none := Slot.literal?_eq_none (by simp)
    have hsplit : Token.split? ("@/".toList ++ digits ++ "/@".toList) = some (digits, []) := by
      simpa using Token.split?_digits hne hdigits []
    have honly : Token.only? ("@/".toList ++ digits ++ "/@".toList) = some i := by
      rw [Token.only?, hsplit]
      exact hread
    rw [Slot.operand, hlookup]
    simp only [Slot.read, hliteral, htakes, if_true, honly]
    rfl

/-- The pattern of a numeral takes a number as it is written, up to the next mark that is not numeric. -/
theorem IsNumber.takes (h : IsNumber w x) (hright : ∀ c ∈ t.head?, Text.isNumeric c = false) : Pattern.numeral.Takes w t [] := by
  cases h with
  | numeral hne hnumeric hread =>
    obtain ⟨c, cs, rfl⟩ := List.exists_cons_of_ne_nil hne
    change (Pattern.hits (.run Text.isNumeric) _).head? = _
    rw [Pattern.hits, Text.takeWhile_numeral hnumeric hright, Text.dropWhile_numeral hnumeric hright]
    rfl

/-- A number is written as a literal. -/
theorem IsNumber.literal? (h : IsNumber w x) : ∃ value, x = .literal value ∧ Slot.literal? w = some value := by
  cases h with
  | numeral hne hnumeric hread =>
    refine ⟨_, rfl, ?_⟩
    rw [Slot.literal?, if_pos ⟨hne, List.all_eq_true.2 hnumeric⟩, hread]

/-- A text that is a literal is read as its value. -/
theorem operand_of_literal? {value : Float} (h : Slot.literal? w = some value) (hlookup : parts.lookup slot.name = some w) :
    slot.operand rule parts = .ok (some (.literal value)) := by
  rw [Slot.operand, hlookup]
  simp only [Slot.read, h]
  rfl

/-- The written form of a number is read as that number. -/
theorem IsNumber.operand (h : IsNumber w x) (hlookup : parts.lookup slot.name = some w) : slot.operand rule parts = .ok (some x) := by
  obtain ⟨value, rfl, hliteral⟩ := h.literal?
  exact operand_of_literal? hliteral hlookup

/-- The pattern of a base takes the base of a logarithm as it is written, before an index. -/
theorem IsLogarithmBase.takes (h : IsLogarithmBase v x) (hw : IsIndex w y) (t : Text) :
    (Pattern.either .token .numeral).Takes v (w ++ t) [] := by
  obtain ⟨rest, rfl⟩ := hw.exists_cons
  cases h with
  | index h => exact (h.takes _).left .numeral
  | number h =>
    have hnumber := h.takes (t := '@' :: rest ++ t) (by simp [Text.isNumeric])
    cases h with
    | numeral hne hnumeric hread =>
      obtain ⟨c, cs, rfl⟩ := List.exists_cons_of_ne_nil hne
      have hat : c ≠ '@' := by
        rintro rfl
        exact absurd (hnumeric '@' (by simp)) (by decide)
      rw [Pattern.Takes, Pattern.first?, Pattern.hits, List.cons_append, Pattern.hits_token_of_split?_eq_none (Token.split?_of_ne hat _)]
      exact hnumber

/-- The written base of a logarithm is read as that operand. -/
theorem IsLogarithmBase.operand (h : IsLogarithmBase w x) (htakes : slot.takesIndex = true) (hlookup : parts.lookup slot.name = some w) :
    slot.operand rule parts = .ok (some x) := by
  cases h with
  | index h => exact h.operand htakes hlookup
  | number h => exact h.operand hlookup

/-- The pattern of an exponent takes it as it is written. -/
theorem IsExponent.takes (h : IsExponent w x) (t : Text) : (Pattern.either .token (.oneOf Char.isDigit)).Takes w t [] := by
  cases h with
  | index h => exact (h.takes t).left _
  | @digit c _ hc h =>
    have hat : c ≠ '@' := by
      rintro rfl
      exact absurd hc (by decide)
    rw [Pattern.Takes, Pattern.first?, Pattern.hits, List.singleton_append,
      Pattern.hits_token_of_split?_eq_none (Token.split?_of_ne hat _)]
    simp [Pattern.hits, hc]

/-- The written exponent is read as that operand. -/
theorem IsExponent.operand (h : IsExponent w x) (htakes : slot.takesIndex = true) (hlookup : parts.lookup slot.name = some w) :
    slot.operand rule parts = .ok (some x) := by
  cases h with
  | index h => exact h.operand htakes hlookup
  | digit hc h => exact h.operand hlookup

/-- The pattern of the base of a power takes it as it is written, before the caret. -/
theorem IsPowerBase.takes (h : IsPowerBase w x) (t : Text) : Rule.powerBase.Takes w ('^' :: t) [] := by
  cases h with
  | index h => exact (h.takes _).left _
  | pi => rfl
  | goldenRatio => rfl
  | omega => rfl
  | number h =>
    cases h with
    | numeral hne hnumeric hread =>
      rw [Pattern.Takes, Pattern.first?, Rule.hits_powerBase hne hnumeric (by simp [Text.isNumeric])]
      rfl
  | letter hc => exact congrArg List.head? (Rule.hits_powerBase_letter hc ('^' :: t))

/-- The written base of a power is read as that operand. -/
theorem IsPowerBase.operand (h : IsPowerBase w x) (htakes : slot.takesIndex = true) (htext : slot.takesText = true)
    (hlookup : parts.lookup slot.name = some w) : slot.operand rule parts = .ok (some x) := by
  cases h with
  | index h => exact h.operand htakes hlookup
  | pi => exact operand_of_literal? (by rfl) hlookup
  | goldenRatio => exact operand_of_literal? (by rfl) hlookup
  | omega => exact operand_of_literal? (by rfl) hlookup
  | number h => exact h.operand hlookup
  | @letter c hc =>
    have hne : ∀ d : Char, d.isAlpha = false → c ≠ d := by
      rintro d hd rfl
      rw [hc] at hd
      cases hd
    have hliteral : Slot.literal? [c] = none := by
      have hdigit := Text.not_isDigit_of_isAlpha hc
      have hconstant : Symbol.choices? [c] = none := by
        rw [Symbol.choices?, Option.map_eq_none_iff, List.find?_eq_none]
        intro entry hentry heq
        have hlong : ∀ entry ∈ Symbol.table, entry.1.toList.length ≠ 1 := by decide
        rw [beq_iff_eq] at heq
        exact hlong entry hentry (by rw [heq]; rfl)
      simp [Slot.literal?, hdigit, hne '.' (by decide), Symbol.constant?, hconstant]
    have honly : Token.only? [c] = none := by rw [Token.only?, Token.split?_of_ne (hne '@' (by decide))]
    rw [Slot.operand, hlookup]
    simp only [Slot.read, hliteral, htakes, htext, if_true, honly]
    rfl

end

end Operand

namespace Rule

open Operand

section
variable {w t : Text} {n : Nat} {selector : Option String} {operands : List (Option Operand)}

/-! ## From forms to matches -/

/-- An occurrence with its function and its operands. -/
theorem occurrence_eq_of {r : Rule} {h : Hit} (hselected : r.selected h = .ok selector)
    (hoperands : List.Forall₂ (fun slot operand => slot.operand r.name h.parts = .ok operand) r.slots operands) (id : Nat) (behind : Text) :
    r.occurrence id behind h =
      .ok ⟨id, Text.byteSize behind, Text.byteSize behind + Text.byteSize h.taken, h.taken, selector, operands⟩ := by
  rw [occurrence_eq, hselected, (mapM_eq_ok_iff_forall₂ fun _ _ _ => Iff.rfl).2 hoperands]
  rfl

/-- A rule prefers to take in a text before another one, and reads its parts as a function and operands. -/
def Accepts (r : Rule) (w t : Text) (selector : Option String) (operands : List (Option Operand)) : Prop :=
  ∃ parts, r.pattern.Takes w t parts ∧ r.selected ⟨w, t, parts⟩ = .ok selector ∧
    List.Forall₂ (fun slot operand => slot.operand r.name parts = .ok operand) r.slots operands

/-- The pattern of the logarithms takes each of their words. -/
theorem takes_logarithmWord {f : String} (hf : f ∈ logarithmWords) (t : Text) : (Pattern.anyWord logarithmWords).Takes f.toList t [] := by
  simp only [logarithmWords, List.mem_cons, List.not_mem_nil, or_false] at hf
  rcases hf with rfl | rfl | rfl <;> rfl

/-- A longer word that begins alike does not match before a token. -/
theorem takes_trigonometricWord {f : String} (hf : f ∈ trigonometricWords) (t : Text) :
    (Pattern.anyWord trigonometricWords).Takes f.toList ('@' :: t) [] := by
  simp only [trigonometricWords, List.mem_cons, List.not_mem_nil, or_false] at hf
  rcases hf with rfl | rfl | rfl | rfl | rfl | rfl | rfl | rfl | rfl | rfl | rfl | rfl <;> rfl

/-- The pattern of the inverse functions takes each of their words. -/
theorem takes_inverseWord {f : String} (hf : f ∈ inverseWords) (t : Text) : (Pattern.anyWord inverseWords).Takes f.toList t [] := by
  simp only [inverseWords, List.mem_cons, List.not_mem_nil, or_false] at hf
  rcases hf with rfl | rfl | rfl | rfl | rfl | rfl <;> rfl

/-- The selector of a rule of functions is the word that the pattern took. -/
theorem selected_function {r : Rule} {words : List String} {f : String} {h : Hit} {parts : List (String × Text)}
    (hr : r.selector = some ⟨"function", words⟩) (hf : f ∈ words) (hparts : h.parts = ("function", f.toList) :: parts) :
    r.selected h = .ok (some f) := by
  have hsome : (words.find? fun choice => choice.toList == f.toList).isSome := List.find?_isSome.2 ⟨f, hf, beq_self_eq_true _⟩
  obtain ⟨g, hg⟩ := Option.isSome_iff_exists.1 hsome
  have heq := List.find?_some hg
  rw [beq_iff_eq, String.toList_inj] at heq
  rw [selected, hr, hparts]
  simp only [Selector.read, List.lookup_cons_self, Option.getD_some, hg, heq]
  rfl

/-- The rule of a form accepts it wherever it stands; a number must not go on behind it. -/
theorem Form.accepts (h : Form w n selector operands) (t : Text) (hend : n = 6 → t = []) :
    ∃ r, (n, r) ∈ RuleSet.standard.numbered ∧ r.Accepts w t selector operands := by
  have hbackslash : ∀ u : Text, (Pattern.word "\\").Takes "\\".toList u [] := fun u => .literal _ u
  cases h with
  | squareRoot h =>
    have hbegins : Pattern.Begins (fun c => c == '[') (.word "[" ++ .named "degree" .token ++ .word "]") :=
      .sequence (.sequence (.literal (by rfl)))
    have habsent := h.takes_absent _ hbegins (by decide) t
    have htakes := ((Pattern.Takes.literal "\\sqrt".toList _).sequence habsent).sequence ((h.takes t).named "value")
    rw [List.append_nil] at htakes
    exact ⟨Rule.root, by simp [RuleSet.mem_numbered_standard], _, htakes, rfl, .cons rfl (.cons (h.operand rfl rfl) .nil)⟩
  | @root v w _ _ hdegree h =>
    have hoptional := (((Pattern.Takes.literal "[".toList _).sequence ((hdegree.takes _).named "degree")).sequence
      (Pattern.Takes.literal "]".toList (w ++ t))).optional
    have htakes := ((Pattern.Takes.literal "\\sqrt".toList _).sequence hoptional).sequence ((h.takes t).named "value")
    have htext : "\\sqrt".toList ++ ("[".toList ++ v ++ "]".toList) ++ w = "\\sqrt[".toList ++ v ++ "]".toList ++ w := by simp
    rw [htext] at htakes
    exact ⟨Rule.root, by simp [RuleSet.mem_numbered_standard], _, htakes, rfl,
      .cons (hdegree.operand rfl rfl) (.cons (h.operand rfl rfl) .nil)⟩
  | fraction hv hw =>
    have htakes := ((Pattern.Takes.literal "\\frac".toList _).sequence ((hv.takes _).named "numerator")).sequence
      ((hw.takes t).named "denominator")
    exact ⟨Rule.fraction, by simp [RuleSet.mem_numbered_standard], _, htakes, rfl,
      .cons (hv.operand rfl rfl) (.cons (hw.operand rfl rfl) .nil)⟩
  | @logarithm f w _ hf h =>
    have hbegins : Pattern.Begins (fun c => c == '_') (.word "_" ++ .named "base" (.either .token .numeral)) :=
      .sequence (.literal (by rfl))
    have habsent := h.takes_absent _ hbegins (by decide) t
    have hword := (hbackslash _).sequence ((takes_logarithmWord hf ([] ++ (w ++ t))).named "function")
    have htakes := (hword.sequence habsent).sequence ((h.takes t).named "parameter")
    rw [List.append_nil] at htakes
    exact ⟨Rule.logarithm, by simp [RuleSet.mem_numbered_standard], _, htakes, selected_function rfl hf rfl,
      .cons rfl (.cons (h.operand rfl rfl) .nil)⟩
  | @logarithmWithBase f v w _ _ hf hbase h =>
    have hoptional := ((Pattern.Takes.literal "_".toList _).sequence ((hbase.takes h t).named "base")).optional
    have hword := (hbackslash _).sequence ((takes_logarithmWord hf ("_".toList ++ v ++ (w ++ t))).named "function")
    have htakes := (hword.sequence hoptional).sequence ((h.takes t).named "parameter")
    have htext : "\\".toList ++ f.toList ++ ("_".toList ++ v) ++ w = "\\".toList ++ f.toList ++ "_".toList ++ v ++ w := by simp
    rw [htext] at htakes
    exact ⟨Rule.logarithm, by simp [RuleSet.mem_numbered_standard], _, htakes, selected_function rfl hf rfl,
      .cons (hbase.operand rfl rfl) (.cons (h.operand rfl rfl) .nil)⟩
  | trigonometry hf h =>
    obtain ⟨rest, rfl⟩ := h.exists_cons
    have hword := (hbackslash _).sequence ((takes_trigonometricWord hf (rest ++ t)).named "function")
    have htakes := hword.sequence ((h.takes t).named "parameter")
    exact ⟨Rule.trigonometry, by simp [RuleSet.mem_numbered_standard], _, htakes, selected_function rfl hf rfl,
      .cons (h.operand rfl rfl) .nil⟩
  | @inverseTrigonometry f w _ hf h =>
    have hword := (hbackslash _).sequence ((takes_inverseWord hf (w ++ t)).named "function")
    have htakes := hword.sequence ((h.takes t).named "parameter")
    exact ⟨Rule.inverseTrigonometry, by simp [RuleSet.mem_numbered_standard], _, htakes, selected_function rfl hf rfl,
      .cons (h.operand rfl rfl) .nil⟩
  | power hbase h =>
    have htakes := (((hbase.takes _).named "value").sequence (.literal "^".toList _)).sequence ((h.takes t).named "exponent")
    exact ⟨Rule.power, by simp [RuleSet.mem_numbered_standard], _, htakes, rfl,
      .cons (hbase.operand rfl rfl rfl) (.cons (h.operand rfl rfl) .nil)⟩
  | number h =>
    obtain rfl := hend rfl
    exact ⟨Rule.number, by simp [RuleSet.mem_numbered_standard], _, (h.takes (by simp)).named "value", rfl, .cons (h.operand rfl) .nil⟩

end

end Rule

/-! ## From matches to forms -/

namespace Pattern

section
variable {p q : Pattern} {t : Text} {h : Hit}

/-- A hit of an optional pattern is one of the pattern, or takes nothing. -/
theorem mem_hits_optional (hh : h ∈ hits (.optional p) t) : h ∈ hits p t ∨ h = ⟨[], t, []⟩ := by
  simpa [hits] using hh

/-- A hit of a named pattern is one of the pattern, with what it took as a part. -/
theorem mem_hits_named {name : String} (hh : h ∈ hits (.named name p) t) :
    ∃ k ∈ hits p t, h = ⟨k.taken, k.rest, (name, k.taken) :: k.parts⟩ := by
  obtain ⟨k, hk, rfl⟩ := List.mem_map.1 hh
  exact ⟨k, hk, rfl⟩

/-- A hit of a sequence is one of its first pattern followed by one of its second. -/
theorem exists_taken_sequence (hh : h ∈ hits (.sequence p q) t) : ∃ k ∈ hits p t, ∃ l ∈ hits q k.rest, h.taken = k.taken ++ l.taken := by
  obtain ⟨k, hk, l, hl, rfl⟩ := mem_hits_sequence hh
  exact ⟨k, hk, l, hl, rfl⟩

theorem exists_taken_named {name : String} (hh : h ∈ hits (.named name p) t) : ∃ k ∈ hits p t, h.taken = k.taken := by
  obtain ⟨k, hk, rfl⟩ := mem_hits_named hh
  exact ⟨k, hk, rfl⟩

theorem forall_mem_of_mem_hits_run {accepts : Char → Bool} (hh : h ∈ hits (.run accepts) t) : ∀ c ∈ h.taken, accepts c = true := by
  rw [(mem_hits_run hh).1]
  exact List.all_eq_true.1 List.all_takeWhile

/-- A hit of a choice of words takes one of them. -/
theorem mem_hits_anyWord {words : List String} (hh : h ∈ hits (anyWord words) t) : ∃ f ∈ words, h.taken = f.toList ∧ h.parts = [] := by
  fun_induction anyWord words with
  | case1 =>
    obtain ⟨c, hc, -⟩ := mem_hits_oneOf hh
    cases hc
  | case2 s => exact ⟨s, by simp, (mem_hits_literal hh).2⟩
  | case3 s more hmore ih =>
    rw [hits, List.mem_append] at hh
    rcases hh with hh | hh
    · exact ⟨s, by simp, (mem_hits_literal hh).2⟩
    · obtain ⟨f, hf, htaken⟩ := ih hh
      exact ⟨f, List.mem_cons_of_mem _ hf, htaken⟩

/-- A command word is a backslash with one of several words. -/
theorem mem_hits_command {words : List String} {name : String}
    (hh : h ∈ hits (.sequence (.word "\\") (.named name (.anyWord words))) t) : ∃ f ∈ words, h.taken = "\\".toList ++ f.toList := by
  obtain ⟨k, hk, l, hl, htaken⟩ := exists_taken_sequence hh
  obtain ⟨m, hm, hword⟩ := exists_taken_named hl
  obtain ⟨f, hf, hown, -⟩ := mem_hits_anyWord hm
  exact ⟨f, hf, by rw [htaken, hword, hown, (mem_hits_literal hk).2.1]⟩

end

end Pattern

namespace Text.Readable

open Operand

variable {t u w outer after : Text} {h : Hit}

/-- The tokens and the numerals of a text stand at the beginnings of its tails. -/
theorem of_tails (htoken : ∀ u ∈ t.tails, ∀ found ∈ Token.split? u, (Index.read? found.1).isSome)
    (hnumeral : ∀ u ∈ t.tails, u.takeWhile isNumeric ≠ [] → (Decimal.read? (u.takeWhile isNumeric)).isSome) : t.Readable where
  token := by
    rintro digits hne hdigits ⟨before, after, ht⟩
    have hsuffix : '@' :: '/' :: (digits ++ '/' :: '@' :: after) <:+ t := ⟨before, by simp [← ht]⟩
    exact Option.isSome_iff_exists.1 (htoken _ ((List.mem_tails _ _).2 hsuffix) _ (Token.split?_digits hne hdigits after))
  numeral := by
    intro outer run after ht hrun
    have hsuffix : run ++ after <:+ t := ⟨outer, by simp [ht]⟩
    have hread := hnumeral _ ((List.mem_tails _ _).2 hsuffix)
    rw [takeWhile_numeral hrun.numeric hrun.right] at hread
    exact Option.isSome_iff_exists.1 (hread hrun.nonempty)

/-- In a readable text, the pattern of a token takes an index. -/
theorem exists_isIndex (hread : t.Readable) (hh : h ∈ Pattern.token.hits u) (hin : h.taken <:+: t) : ∃ x, IsIndex h.taken x := by
  obtain ⟨digits, hsplit, htaken, -⟩ := Pattern.split?_of_mem_hits_token hh
  obtain ⟨hne, hdigits⟩ := Token.digits_of_split? hsplit
  rw [htaken, Piece.text] at hin ⊢
  obtain ⟨i, hi⟩ := hread.token digits hne hdigits hin
  exact ⟨_, .token hne hdigits hi⟩

theorem exists_isIndex_named {name : String} (hread : t.Readable) (hh : h ∈ (Pattern.named name .token).hits u) (hin : h.taken <:+: t) :
    ∃ x, IsIndex h.taken x := by
  obtain ⟨k, hk, htaken⟩ := Pattern.exists_taken_named hh
  rw [htaken] at hin ⊢
  exact hread.exists_isIndex hk hin

/-- In a readable text, a numeral is a number. -/
theorem exists_isNumber (hread : t.Readable) (outer : Text) (ht : t = outer ++ w ++ after) (hw : IsNumeral outer w after) :
    ∃ x, IsNumber w x := by
  obtain ⟨x, hx⟩ := hread.numeral outer w after ht hw
  exact ⟨_, .numeral hw.nonempty hw.numeric hx⟩

end Text.Readable

/-- A run of digits is a number. -/
theorem Text.exists_isNumber_of_digits {w : Text} (hne : w ≠ []) (hdigits : ∀ c ∈ w, c.isDigit = true) : ∃ x, Operand.IsNumber w x := by
  obtain ⟨x, hx⟩ := DigitRun.exists_read? ⟨w, hne, hdigits⟩
  exact ⟨_, .numeral hne (fun c hc => Text.isNumeric_of_isDigit (hdigits c hc)) hx⟩

namespace Rule

open Operand

section
variable {t u before after : Text} {h : Hit}

/-- In a readable text, what the pattern of roots takes has the form of a root. -/
theorem exists_form_root (hread : t.Readable) (hh : h ∈ root.pattern.hits u) (hin : h.taken <:+: t) :
    ∃ operands, Form h.taken 0 none operands := by
  obtain ⟨k, hk, l, hl, htaken⟩ := Pattern.exists_taken_sequence hh
  obtain ⟨m, hm, n, hn, hk⟩ := Pattern.exists_taken_sequence hk
  rw [htaken, hk, (Pattern.mem_hits_literal hm).2.1] at hin ⊢
  obtain ⟨y, hy⟩ := hread.exists_isIndex_named hl ((List.suffix_append _ _).isInfix.trans hin)
  rcases Pattern.mem_hits_optional hn with hn | rfl
  · obtain ⟨k, hk, closing, hclosing, hn⟩ := Pattern.exists_taken_sequence hn
    obtain ⟨opening, hopening, degree, hdegree, hk⟩ := Pattern.exists_taken_sequence hk
    have htext : "\\sqrt".toList ++ n.taken ++ l.taken = "\\sqrt[".toList ++ degree.taken ++ "]".toList ++ l.taken := by
      simp [hn, hk, (Pattern.mem_hits_literal hopening).2.1, (Pattern.mem_hits_literal hclosing).2.1]
    rw [htext] at hin ⊢
    obtain ⟨x, hx⟩ := hread.exists_isIndex_named hdegree (List.IsInfix.trans ⟨"\\sqrt[".toList, "]".toList ++ l.taken, by simp⟩ hin)
    exact ⟨_, .root hx hy⟩
  · rw [List.append_nil]
    exact ⟨_, .squareRoot hy⟩

/-- In a readable text, what the pattern of fractions takes has the form of a fraction. -/
theorem exists_form_fraction (hread : t.Readable) (hh : h ∈ fraction.pattern.hits u) (hin : h.taken <:+: t) :
    ∃ operands, Form h.taken 1 none operands := by
  obtain ⟨k, hk, l, hl, htaken⟩ := Pattern.exists_taken_sequence hh
  obtain ⟨m, hm, n, hn, hk⟩ := Pattern.exists_taken_sequence hk
  rw [htaken, hk, (Pattern.mem_hits_literal hm).2.1] at hin ⊢
  obtain ⟨x, hx⟩ := hread.exists_isIndex_named hn (List.IsInfix.trans ⟨"\\frac".toList, l.taken, rfl⟩ hin)
  obtain ⟨y, hy⟩ := hread.exists_isIndex_named hl ((List.suffix_append _ _).isInfix.trans hin)
  exact ⟨_, .fraction hx hy⟩

/-- In a readable text, the pattern of a base takes the base of a logarithm. -/
theorem exists_isLogarithmBase (hread : t.Readable) (hh : h ∈ Pattern.hits (.either .token .numeral) u)
    (ht : t = before ++ "_".toList ++ h.taken ++ after) (hafter : ∀ c ∈ after.head?, Text.isNumeric c = false) :
    ∃ x, IsLogarithmBase h.taken x := by
  rw [Pattern.hits, List.mem_append] at hh
  rcases hh with hh | hh
  · obtain ⟨x, hx⟩ := hread.exists_isIndex hh ⟨_, _, ht.symm⟩
    exact ⟨x, .index hx⟩
  · obtain ⟨-, hne, -, -⟩ := Pattern.mem_hits_run hh
    have hbefore : ∀ c ∈ (before ++ "_".toList).getLast?, Text.isNumeric c = false :=
      Text.boundary_of_getLast? List.getLast?_concat (by decide)
    obtain ⟨x, hx⟩ := hread.exists_isNumber _ ht ⟨hne, Pattern.forall_mem_of_mem_hits_run hh, hbefore, hafter⟩
    exact ⟨x, .number hx⟩

/-- In a readable text, what the pattern of logarithms takes has the form of a logarithm. -/
theorem exists_form_logarithm (hread : t.Readable) (hh : h ∈ logarithm.pattern.hits u) (ht : t = before ++ h.taken ++ after) :
    ∃ selector operands, Form h.taken 2 selector operands := by
  have hin : h.taken <:+: t := ⟨before, after, ht.symm⟩
  obtain ⟨k, hk, l, hl, htaken⟩ := Pattern.exists_taken_sequence hh
  obtain ⟨m, hm, n, hn, hk⟩ := Pattern.exists_taken_sequence hk
  obtain ⟨f, hf, hword⟩ := Pattern.mem_hits_command hm
  rw [htaken, hk, hword] at hin ht ⊢
  obtain ⟨y, hy⟩ := hread.exists_isIndex_named hl ((List.suffix_append _ _).isInfix.trans hin)
  rcases Pattern.mem_hits_optional hn with hn | rfl
  · obtain ⟨sign, hsign, named, hnamed, hn⟩ := Pattern.exists_taken_sequence hn
    obtain ⟨base, hbase, hnamed⟩ := Pattern.exists_taken_named hnamed
    rw [hn, hnamed, (Pattern.mem_hits_literal hsign).2.1, ← List.append_assoc ("\\".toList ++ f.toList)] at ht ⊢
    -- the base stands between the sign and the token of the parameter
    have hright : ∀ c ∈ (l.taken ++ after).head?, Text.isNumeric c = false := by
      obtain ⟨rest, hrest⟩ := hy.exists_cons
      simp [hrest, Text.isNumeric]
    obtain ⟨x, hx⟩ := exists_isLogarithmBase hread hbase
      (show t = before ++ ("\\".toList ++ f.toList) ++ "_".toList ++ base.taken ++ (l.taken ++ after) by simpa using ht) hright
    exact ⟨_, _, .logarithmWithBase hf hx hy⟩
  · rw [List.append_nil]
    exact ⟨_, _, .logarithm hf hy⟩

/-- A function of one parameter is its command with a token. -/
theorem exists_command {words : List String} (hread : t.Readable) (hin : h.taken <:+: t)
    (hh : h ∈ Pattern.hits (.word "\\" ++ .named "function" (.anyWord words) ++ .named "parameter" .token) u) :
    ∃ f ∈ words, ∃ w x, h.taken = "\\".toList ++ f.toList ++ w ∧ IsIndex w x := by
  obtain ⟨k, hk, l, hl, htaken⟩ := Pattern.exists_taken_sequence hh
  obtain ⟨f, hf, hword⟩ := Pattern.mem_hits_command hk
  rw [htaken, hword] at hin
  obtain ⟨x, hx⟩ := hread.exists_isIndex_named hl ((List.suffix_append _ _).isInfix.trans hin)
  exact ⟨f, hf, l.taken, x, by rw [htaken, hword], hx⟩

/-- In a readable text, the tail of a power is a caret with an exponent. -/
theorem exists_isExponent (hread : t.Readable) (hh : h ∈ powerTail.hits u) (hin : h.taken <:+: t) :
    ∃ w x, h.taken = "^".toList ++ w ∧ h.parts = [("exponent", w)] ∧ IsExponent w x := by
  obtain ⟨k, hk, l, hl, rfl⟩ := Pattern.mem_hits_sequence hh
  obtain ⟨-, hsign, hparts⟩ := Pattern.mem_hits_literal hk
  obtain ⟨m, hm, rfl⟩ := Pattern.mem_hits_named hl
  rw [Pattern.hits, List.mem_append] at hm
  rcases hm with hm | hm
  · obtain ⟨x, hx⟩ := hread.exists_isIndex hm ((List.suffix_append _ _).isInfix.trans hin)
    obtain ⟨-, -, -, hnone⟩ := Pattern.split?_of_mem_hits_token hm
    exact ⟨m.taken, x, by rw [hsign], by simp [hparts, hnone], .index hx⟩
  · obtain ⟨c, hc, htaken, hnone, -⟩ := Pattern.mem_hits_oneOf hm
    obtain ⟨x, hx⟩ := Text.exists_isNumber_of_digits (w := [c]) (by simp) (by simpa using hc)
    exact ⟨[c], x, by rw [hsign, htaken], by simp [hparts, hnone, htaken], .digit hc hx⟩

/-- The base of a power has no named parts. -/
theorem parts_of_mem_hits_powerBase (hh : h ∈ powerBase.hits u) : h.parts = [] := by
  rcases mem_hits_powerBase hh with hh | hh | hh | hh
  · obtain ⟨-, -, -, hparts⟩ := Pattern.split?_of_mem_hits_token hh
    exact hparts
  · obtain ⟨k, hk, l, hl, rfl⟩ := Pattern.mem_hits_sequence hh
    obtain ⟨f, -, -, hparts⟩ := Pattern.mem_hits_anyWord hl
    simp [(Pattern.mem_hits_literal hk).2.2, hparts]
  · exact (Pattern.mem_hits_run hh).2.2.2
  · obtain ⟨c, -, -, hparts, -⟩ := Pattern.mem_hits_oneOf hh
    exact hparts

/-- In a readable text, the pattern of the base of a power takes one. -/
theorem exists_isPowerBase (hread : t.Readable) (hh : h ∈ powerBase.hits u) (ht : t = h.taken ++ '^' :: after) :
    ∃ x, IsPowerBase h.taken x := by
  rcases mem_hits_powerBase hh with hh | hh | hh | hh
  · obtain ⟨x, hx⟩ := hread.exists_isIndex hh ⟨[], '^' :: after, by simpa using ht.symm⟩
    exact ⟨x, .index hx⟩
  · obtain ⟨k, hk, l, hl, rfl⟩ := Pattern.mem_hits_sequence hh
    obtain ⟨f, hf, htaken, -⟩ := Pattern.mem_hits_anyWord hl
    rw [(Pattern.mem_hits_literal hk).2.1, htaken]
    simp only [List.mem_cons, List.not_mem_nil, or_false] at hf
    rcases hf with rfl | rfl | rfl
    · exact ⟨_, .pi⟩
    · exact ⟨_, .goldenRatio⟩
    · exact ⟨_, .omega⟩
  · obtain ⟨-, hne, -, -⟩ := Pattern.mem_hits_run hh
    obtain ⟨x, hx⟩ := hread.exists_isNumber [] ht
      ⟨hne, Pattern.forall_mem_of_mem_hits_run hh, by simp, by simp [Text.isNumeric]⟩
    exact ⟨x, .number hx⟩
  · obtain ⟨c, hc, htaken, -⟩ := Pattern.mem_hits_oneOf hh
    rw [htaken]
    exact ⟨_, .letter hc⟩

/-- A readable text that the pattern of powers takes whole has the form of a power. -/
theorem exists_form_power (hread : t.Readable) (hh : h ∈ power.pattern.hits u) (ht : t = h.taken) :
    ∃ operands, Form h.taken 5 none operands := by
  rw [hits_power, List.mem_flatMap] at hh
  obtain ⟨base, hbase, hh⟩ := hh
  obtain ⟨k, hk, rfl⟩ := List.mem_map.1 hh
  obtain ⟨w, y, htail, -, hy⟩ := exists_isExponent hread hk (by rw [ht]; exact (List.suffix_append _ _).isInfix)
  simp only [htail] at ht ⊢
  obtain ⟨x, hx⟩ := exists_isPowerBase hread hbase ht
  rw [← List.append_assoc]
  exact ⟨_, .power hx hy⟩

/-- A readable text that the pattern of numbers takes whole has the form of a number. -/
theorem exists_form_number (hread : t.Readable) (hh : h ∈ number.pattern.hits u) (ht : t = h.taken) :
    ∃ operands, Form h.taken 6 none operands := by
  obtain ⟨k, hk, htaken⟩ := Pattern.exists_taken_named hh
  obtain ⟨-, hne, -, -⟩ := Pattern.mem_hits_run hk
  rw [htaken] at ht ⊢
  have hwhole : t = [] ++ k.taken ++ [] := by rw [ht, List.append_nil, List.nil_append]
  obtain ⟨x, hx⟩ := hread.exists_isNumber [] hwhole ⟨hne, Pattern.forall_mem_of_mem_hits_run hk, by simp, by simp⟩
  exact ⟨_, .number hx⟩

/-- What the pattern of a rule takes in has a form of the rule. A power or a number has to be all of the text: elsewhere it may begin
inside of a numeral. -/
theorem exists_form {e : Nat × Rule} (he : e ∈ RuleSet.standard.numbered) (hread : t.Readable) (hh : h ∈ e.2.pattern.hits u)
    (ht : t = before ++ h.taken ++ after) (hwhole : 5 ≤ e.1 → t = h.taken) :
    ∃ selector operands, Form h.taken e.1 selector operands := by
  have hin : h.taken <:+: t := ⟨before, after, ht.symm⟩
  rcases RuleSet.mem_numbered_standard.1 he with rfl | rfl | rfl | rfl | rfl | rfl | rfl
  · exact ⟨_, exists_form_root hread hh hin⟩
  · exact ⟨_, exists_form_fraction hread hh hin⟩
  · exact exists_form_logarithm hread hh ht
  · obtain ⟨f, hf, w, x, htaken, hx⟩ := exists_command hread hin hh
    rw [htaken]
    exact ⟨_, _, .trigonometry hf hx⟩
  · obtain ⟨f, hf, w, x, htaken, hx⟩ := exists_command hread hin hh
    rw [htaken]
    exact ⟨_, _, .inverseTrigonometry hf hx⟩
  · exact ⟨_, exists_form_power hread hh (hwhole (by decide))⟩
  · exact ⟨_, exists_form_number hread hh (hwhole (by decide))⟩

end

end Rule

end FormulaDag
