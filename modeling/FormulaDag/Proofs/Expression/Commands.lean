import FormulaDag.Proofs.Expression.Sentence
import FormulaDag.Proofs.Rule.Numerals

/-!
# Commands and their rules

Every command of an expression belongs to one rule. The pattern of that rule matches the whole call wherever it stands, with its indices
as parts, and the patterns of the other commands do not match there at all.
-/

namespace FormulaDag

namespace Pattern

/-- A pattern prefers to match a text in front of another one, with the given parts. -/
def Takes (p : Pattern) (u t : Text) (parts : List (String × Text)) : Prop := p.first? (u ++ t) = some ⟨u, t, parts⟩

section
variable {p q : Pattern} {u v t : Text} {us vs : List (String × Text)}

/-- What two patterns take in a row, their sequence takes. -/
theorem Takes.sequence (hp : p.Takes u (v ++ t) us) (hq : q.Takes v t vs) : (Pattern.sequence p q).Takes (u ++ v) t (us ++ vs) := by
  obtain ⟨_, hp⟩ := List.head?_eq_some_iff.1 hp
  obtain ⟨_, hq⟩ := List.head?_eq_some_iff.1 hq
  rw [Takes, first?, hits, List.append_assoc, hp, List.flatMap_cons, hq]
  rfl

/-- A named pattern takes what the pattern takes, and has it as a part under its name. -/
theorem Takes.named (hp : p.Takes u t us) (name : String) : (Pattern.named name p).Takes u t ((name, u) :: us) := by
  obtain ⟨_, hp⟩ := List.head?_eq_some_iff.1 hp
  rw [Takes, first?, hits, hp]
  rfl

/-- A literal takes its own text. -/
theorem Takes.literal (w t : Text) : (Pattern.literal w).Takes w t [] := by
  rw [Takes, first?, hits, Text.isPrefixOf?_eq_some.2 rfl]
  rfl

/-- The pattern of a token takes a token. -/
theorem Takes.token (k : Nat) (t : Text) : Pattern.token.Takes (Index.token k) t [] := by
  rw [Takes, first?, hits_token_of_split? (Token.split?_token k t)]
  rfl

/-- An optional pattern takes what the pattern takes. -/
theorem Takes.optional (hp : p.Takes u t us) : (Pattern.optional p).Takes u t us := by
  obtain ⟨_, hp⟩ := List.head?_eq_some_iff.1 hp
  rw [Takes, first?, hits, hp]
  rfl

/-- An optional pattern takes nothing where the pattern has no hit. -/
theorem Takes.absent (hp : p.first? t = none) : (Pattern.optional p).Takes [] t [] := by
  rw [Takes, first?, hits, List.nil_append, List.head?_eq_none_iff.1 hp]
  rfl

/-- The first of two alternatives is taken when it has a hit. -/
theorem Takes.left (hp : p.Takes u t us) (q : Pattern) : (Pattern.either p q).Takes u t us := by
  obtain ⟨_, hp⟩ := List.head?_eq_some_iff.1 hp
  rw [Takes, first?, hits, hp]
  rfl

/-- A sequence has no hit where its first pattern has none. -/
theorem first?_sequence_eq_none (hp : p.first? t = none) (q : Pattern) : (Pattern.sequence p q).first? t = none := by
  rw [first?, hits, List.head?_eq_none_iff.1 hp]
  rfl

/-- A sequence behind a literal has no hit where the pattern has none behind that text. -/
theorem first?_literal_sequence (w : Text) (hp : p.first? t = none) : (Pattern.sequence (.literal w) p).first? (w ++ t) = none := by
  rw [first?, hits, hits, Text.isPrefixOf?_eq_some.2 rfl, List.flatMap_singleton, List.head?_eq_none_iff.1 hp]
  rfl

theorem first?_named_eq_none (hp : p.first? t = none) (name : String) : (Pattern.named name p).first? t = none := by
  rw [first?, hits, List.head?_eq_none_iff.1 hp]
  rfl

end

end Pattern

namespace NamedFunction

/-- The number of the rule that a function belongs to. -/
def rule : NamedFunction → Nat
  | lg | ln => 2
  | arcsin | arccos | arctan | arccot | arcsec | arccsc => 4
  | _ => 3

end NamedFunction

namespace Call

/-- The number of the rule that a call belongs to. -/
def rule : Call → Nat
  | squareRoot _ | root .. => 0
  | fraction .. => 1
  | logarithm .. => 2
  | application f _ => f.rule

/-- The parts of a call that have names. -/
def parts : Call → List (String × Text)
  | fraction k l => [("numerator", Index.token k), ("denominator", Index.token l)]
  | squareRoot k => [("value", Index.token k)]
  | root k l => [("degree", Index.token k), ("value", Index.token l)]
  | logarithm k l => [("function", "log".toList), ("base", Index.token k), ("parameter", Index.token l)]
  | application f k => [("function", f.word.toList), ("parameter", Index.token k)]

variable (c : Call)

/-- A command is written as a backslash, its word and its operands. -/
theorem text_line : c.line.text = '\\' :: (c.word.toList ++ c.operands.text) := by
  simp [line, Mark.text]

/-- The words of other rules do not begin a call. -/
theorem first?_word (u : Text) :
    (c.rule ≠ 0 → (Pattern.word "\\sqrt").first? ('\\' :: (c.word.toList ++ u)) = none) ∧
      (c.rule ≠ 1 → (Pattern.word "\\frac").first? ('\\' :: (c.word.toList ++ u)) = none) ∧
      (c.rule ≠ 2 → (Pattern.anyWord Rule.logarithmWords).first? (c.word.toList ++ u) = none) ∧
      (c.rule ≠ 3 → (Pattern.anyWord Rule.trigonometricWords).first? (c.word.toList ++ u) = none) ∧
      (c.rule ≠ 4 → (Pattern.anyWord Rule.inverseWords).first? (c.word.toList ++ u) = none) := by
  cases c with
  | application f k =>
    cases f <;> simp only [word, NamedFunction.word] <;> refine ⟨fun h => ?_, fun h => ?_, fun h => ?_, fun h => ?_, fun h => ?_⟩ <;>
      first | rfl | exact absurd rfl h
  | _ =>
    simp only [word]
    refine ⟨fun h => ?_, fun h => ?_, fun h => ?_, fun h => ?_, fun h => ?_⟩ <;> first | rfl | exact absurd rfl h

/-- The words of the rule of a function, before what cannot belong to a word. -/
theorem takes_word (f : NamedFunction) (k : Nat) (t : Text) :
    (f.rule = 2 → (Pattern.anyWord Rule.logarithmWords).Takes f.word.toList (Index.token k ++ t) []) ∧
      (f.rule = 3 → (Pattern.anyWord Rule.trigonometricWords).Takes f.word.toList (Index.token k ++ t) []) ∧
      (f.rule = 4 → (Pattern.anyWord Rule.inverseWords).Takes f.word.toList (Index.token k ++ t) []) := by
  cases f <;> simp only [NamedFunction.word] <;> refine ⟨fun h => ?_, fun h => ?_, fun h => ?_⟩ <;> first | rfl | cases h

/-! ### One rule after the other -/

/-- The pattern of roots takes the command of a root. -/
theorem takes_root (t : Text) (hc : c.rule = 0) : Rule.root.pattern.Takes c.line.text t c.parts := by
  cases c with
  | squareRoot k =>
    have htext : (squareRoot k).line.text = "\\sqrt".toList ++ [] ++ Index.token k := by simp [text_line, word, operands, Mark.text]
    have habsent : (Pattern.word "[" ++ .named "degree" .token ++ .word "]").first? (Index.token k ++ t) = none := rfl
    rw [htext]
    exact ((Pattern.Takes.literal _ _).sequence (.absent habsent)).sequence ((Pattern.Takes.token k t).named "value")
  | root k l =>
    have htext : (root k l).line.text = "\\sqrt".toList ++ ("[".toList ++ Index.token k ++ "]".toList) ++ Index.token l := by
      simp [text_line, word, operands, Mark.text]
    have hdegree := ((Pattern.Takes.literal "[".toList _).sequence ((Pattern.Takes.token k _).named "degree")).sequence
      (.literal "]".toList (Index.token l ++ t))
    rw [htext]
    exact ((Pattern.Takes.literal _ _).sequence hdegree.optional).sequence ((Pattern.Takes.token l t).named "value")
  | application f k => cases f <;> cases hc
  | _ => cases hc

/-- The pattern of fractions takes the command of a fraction. -/
theorem takes_fraction (t : Text) (hc : c.rule = 1) : Rule.fraction.pattern.Takes c.line.text t c.parts := by
  cases c with
  | fraction k l =>
    have htext : (fraction k l).line.text = "\\frac".toList ++ Index.token k ++ Index.token l := by
      simp [text_line, word, operands, Mark.text]
    rw [htext]
    exact ((Pattern.Takes.literal _ _).sequence ((Pattern.Takes.token k _).named "numerator")).sequence
      ((Pattern.Takes.token l t).named "denominator")
  | application f k => cases f <;> cases hc
  | _ => cases hc

/-- The application of a function is written as a backslash, its word and the token of its operand. -/
theorem text_application (f : NamedFunction) (k : Nat) :
    (application f k).line.text = "\\".toList ++ f.word.toList ++ Index.token k := by
  simp [text_line, word, operands, Mark.text]

/-- The pattern of logarithms takes the command of a logarithm. -/
theorem takes_logarithm (t : Text) (hc : c.rule = 2) : Rule.logarithm.pattern.Takes c.line.text t c.parts := by
  cases c with
  | logarithm k l =>
    have htext : (logarithm k l).line.text = "\\".toList ++ "log".toList ++ ("_".toList ++ Index.token k) ++ Index.token l := by
      simp [text_line, word, operands, Mark.text]
    have hword : (Pattern.anyWord Rule.logarithmWords).Takes "log".toList ("_".toList ++ Index.token k ++ (Index.token l ++ t)) [] := rfl
    have hbase := (Pattern.Takes.literal "_".toList _).sequence (((Pattern.Takes.token k (Index.token l ++ t)).left .numeral).named "base")
    rw [htext]
    exact (((Pattern.Takes.literal _ _).sequence (hword.named "function")).sequence hbase.optional).sequence
      ((Pattern.Takes.token l t).named "parameter")
  | application f k =>
    have hword : (Pattern.anyWord Rule.logarithmWords).Takes f.word.toList ([] ++ (Index.token k ++ t)) [] := (takes_word f k t).1 hc
    have habsent : (Pattern.word "_" ++ .named "base" (.either .token .numeral)).first? (Index.token k ++ t) = none := rfl
    rw [text_application, ← List.append_nil ("\\".toList ++ f.word.toList)]
    exact (((Pattern.Takes.literal _ _).sequence (hword.named "function")).sequence (.absent habsent)).sequence
      ((Pattern.Takes.token k t).named "parameter")
  | _ => cases hc

/-- The pattern of trigonometry takes the command of a trigonometric function. -/
theorem takes_trigonometry (t : Text) (hc : c.rule = 3) : Rule.trigonometry.pattern.Takes c.line.text t c.parts := by
  cases c with
  | application f k =>
    rw [text_application]
    exact ((Pattern.Takes.literal _ _).sequence (((takes_word f k t).2.1 hc).named "function")).sequence
      ((Pattern.Takes.token k t).named "parameter")
  | _ => cases hc

/-- The pattern of inverse trigonometry takes the command of an inverse function. -/
theorem takes_inverseTrigonometry (t : Text) (hc : c.rule = 4) : Rule.inverseTrigonometry.pattern.Takes c.line.text t c.parts := by
  cases c with
  | application f k =>
    rw [text_application]
    exact ((Pattern.Takes.literal _ _).sequence (((takes_word f k t).2.2 hc).named "function")).sequence
      ((Pattern.Takes.token k t).named "parameter")
  | _ => cases hc

end Call

namespace RuleSet

/-- The standard rules by their numbers. -/
theorem mem_numbered_standard {e : Nat × Rule} : e ∈ standard.numbered ↔ e = (0, Rule.root) ∨ e = (1, Rule.fraction) ∨
    e = (2, Rule.logarithm) ∨ e = (3, Rule.trigonometry) ∨ e = (4, Rule.inverseTrigonometry) ∨ e = (5, Rule.power) ∨
      e = (6, Rule.number) := by
  simp [numbered, rules, standard, Rule.standard]

end RuleSet

namespace Call

/-- A call is met by its rule and by no other rule of commands, wherever it stands. -/
theorem first?_rule (c : Call) {e : Nat × Rule} (he : e ∈ RuleSet.standard.numbered) (hcommand : e.1 < 5) (t : Text) :
    (c.rule = e.1 → e.2.pattern.Takes c.line.text t c.parts) ∧ (c.rule ≠ e.1 → e.2.pattern.first? (c.line.text ++ t) = none) := by
  obtain ⟨hroot, hfraction, hlogarithm, htrigonometry, hinverse⟩ := c.first?_word (c.operands.text ++ t)
  have htext : c.line.text ++ t = "\\".toList ++ (c.word.toList ++ (c.operands.text ++ t)) := by simp [text_line]
  have hfunction : ∀ {ws : List String}, (Pattern.anyWord ws).first? (c.word.toList ++ (c.operands.text ++ t)) = none →
      (Pattern.sequence (.word "\\") (.named "function" (.anyWord ws))).first?
        ("\\".toList ++ (c.word.toList ++ (c.operands.text ++ t))) = none :=
    fun hnone => Pattern.first?_literal_sequence _ (Pattern.first?_named_eq_none hnone "function")
  rcases RuleSet.mem_numbered_standard.1 he with rfl | rfl | rfl | rfl | rfl | rfl | rfl
  · refine ⟨c.takes_root t, fun hc => htext ▸ ?_⟩
    exact Pattern.first?_sequence_eq_none (Pattern.first?_sequence_eq_none (hroot hc) _) _
  · refine ⟨c.takes_fraction t, fun hc => htext ▸ ?_⟩
    exact Pattern.first?_sequence_eq_none (Pattern.first?_sequence_eq_none (hfraction hc) _) _
  · refine ⟨c.takes_logarithm t, fun hc => htext ▸ ?_⟩
    exact Pattern.first?_sequence_eq_none (Pattern.first?_sequence_eq_none (hfunction (hlogarithm hc)) _) _
  · refine ⟨c.takes_trigonometry t, fun hc => htext ▸ ?_⟩
    exact Pattern.first?_sequence_eq_none (hfunction (htrigonometry hc)) _
  · refine ⟨c.takes_inverseTrigonometry t, fun hc => htext ▸ ?_⟩
    exact Pattern.first?_sequence_eq_none (hfunction (hinverse hc)) _
  · exact absurd hcommand (by decide)
  · exact absurd hcommand (by decide)

/-- The function that a call names, if its rule has several. -/
def selector : Call → Option String
  | logarithm .. => some "log"
  | application f _ => some f.word
  | _ => none

/-- The operands of a call as its rule reads them. -/
def arguments : Call → List (Option Operand)
  | squareRoot k => [some (.literal 2.0), some (.index k)]
  | fraction k l | root k l | logarithm k l => [some (.index k), some (.index l)]
  | application f k => if f.rule = 2 then [none, some (.index k)] else [some (.index k)]

end Call

/-- A part that is a token is read as its index, in a slot that takes one. -/
theorem Slot.operand_token {slot : Slot} {rule : String} {parts : List (String × Text)} {k : Nat} (hk : k < Index.bound)
    (htakes : slot.takesIndex = true) (h : parts.lookup slot.name = some (Index.token k)) :
    slot.operand rule parts = .ok (some (.index k)) := by
  have hliteral : Slot.literal? (Index.token k) = none := Slot.literal?_eq_none (by simp [Index.token_eq])
  rw [operand, h]
  simp only [read, hliteral, htakes, if_true, Token.only?_token hk]
  rfl

namespace Call

/-- The rule of a command selects the word of it. -/
theorem selected_rule (c : Call) {e : Nat × Rule} (he : e ∈ RuleSet.standard.numbered) (hc : c.rule = e.1) (u t : Text) :
    e.2.selected ⟨u, t, c.parts⟩ = .ok c.selector := by
  rcases RuleSet.mem_numbered_standard.1 he with rfl | rfl | rfl | rfl | rfl | rfl | rfl
  all_goals
    cases c with
    | application f k => cases f <;> first | rfl | cases hc
    | _ => first | rfl | cases hc

/-- The rule of a command reads the operands of it. -/
theorem operands_rule (c : Call) {e : Nat × Rule} (he : e ∈ RuleSet.standard.numbered) (hc : c.rule = e.1)
    (hsmall : ∀ k, .ref k ∈ c.operands → k < Index.bound) : e.2.slots.mapM (Slot.operand e.2.name c.parts) = .ok c.arguments := by
  cases c with
  | squareRoot k =>
    rcases RuleSet.mem_numbered_standard.1 he with rfl | rfl | rfl | rfl | rfl | rfl | rfl <;> try cases hc
    have hdegree : Slot.operand "Sqrt" (squareRoot k).parts { name := "degree", absent := some 2.0 } = .ok (some (.literal 2.0)) := rfl
    have hvalue : Slot.operand "Sqrt" (squareRoot k).parts { name := "value" } = .ok (some (.index k)) :=
      Slot.operand_token (hsmall k (by simp [operands])) rfl rfl
    simp only [Rule.root, List.mapM_cons, List.mapM_nil, hdegree, hvalue]
    rfl
  | root k l =>
    rcases RuleSet.mem_numbered_standard.1 he with rfl | rfl | rfl | rfl | rfl | rfl | rfl <;> try cases hc
    have hdegree : Slot.operand "Sqrt" (root k l).parts { name := "degree", absent := some 2.0 } = .ok (some (.index k)) :=
      Slot.operand_token (hsmall k (by simp [operands])) rfl rfl
    have hvalue : Slot.operand "Sqrt" (root k l).parts { name := "value" } = .ok (some (.index l)) :=
      Slot.operand_token (hsmall l (by simp [operands])) rfl rfl
    simp only [Rule.root, List.mapM_cons, List.mapM_nil, hdegree, hvalue]
    rfl
  | fraction k l =>
    rcases RuleSet.mem_numbered_standard.1 he with rfl | rfl | rfl | rfl | rfl | rfl | rfl <;> try cases hc
    have hnumerator : Slot.operand "Fraction" (fraction k l).parts { name := "numerator" } = .ok (some (.index k)) :=
      Slot.operand_token (hsmall k (by simp [operands])) rfl rfl
    have hdenominator : Slot.operand "Fraction" (fraction k l).parts { name := "denominator" } = .ok (some (.index l)) :=
      Slot.operand_token (hsmall l (by simp [operands])) rfl rfl
    simp only [Rule.fraction, List.mapM_cons, List.mapM_nil, hnumerator, hdenominator]
    rfl
  | logarithm k l =>
    rcases RuleSet.mem_numbered_standard.1 he with rfl | rfl | rfl | rfl | rfl | rfl | rfl <;> try cases hc
    have hbase : Slot.operand "Logarithm" (logarithm k l).parts { name := "base", required := false } = .ok (some (.index k)) :=
      Slot.operand_token (hsmall k (by simp [operands])) rfl rfl
    have hparameter : Slot.operand "Logarithm" (logarithm k l).parts { name := "parameter" } = .ok (some (.index l)) :=
      Slot.operand_token (hsmall l (by simp [operands])) rfl rfl
    simp only [Rule.logarithm, List.mapM_cons, List.mapM_nil, hbase, hparameter]
    rfl
  | application f k =>
    have hparameter : ∀ rule, Slot.operand rule (application f k).parts { name := "parameter" } = .ok (some (.index k)) :=
      fun rule => Slot.operand_token (hsmall k (by simp [operands])) rfl rfl
    have hf : f.rule = e.1 := hc
    rcases RuleSet.mem_numbered_standard.1 he with rfl | rfl | rfl | rfl | rfl | rfl | rfl
    · cases f <;> cases hc
    · cases f <;> cases hc
    · have hbase : Slot.operand "Logarithm" (application f k).parts { name := "base", required := false } = .ok none := rfl
      simp only [Rule.logarithm, List.mapM_cons, List.mapM_nil, hbase, hparameter, arguments, hf]
      rfl
    · simp only [Rule.trigonometry, List.mapM_cons, List.mapM_nil, hparameter, arguments, hf]
      rfl
    · simp only [Rule.inverseTrigonometry, List.mapM_cons, List.mapM_nil, hparameter, arguments, hf]
      rfl
    · cases f <;> cases hc
    · cases f <;> cases hc

/-- The rule of a call accepts it, with its indices for operands. -/
theorem occurrence_rule (c : Call) {e : Nat × Rule} (he : e ∈ RuleSet.standard.numbered) (hc : c.rule = e.1)
    (hsmall : ∀ k, .ref k ∈ c.operands → k < Index.bound) (behind t : Text) :
    e.2.occurrence e.1 behind ⟨c.line.text, t, c.parts⟩ = .ok ⟨e.1, Text.byteSize behind,
      Text.byteSize behind + Text.byteSize c.line.text, c.line.text, c.selector, c.arguments⟩ := by
  rw [Rule.occurrence_eq, c.selected_rule he hc, c.operands_rule he hc hsmall]
  rfl

end Call

end FormulaDag
