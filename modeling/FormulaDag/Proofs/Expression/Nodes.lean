import FormulaDag.Dag.Basic
import FormulaDag.Proofs.Expression.Binding

/-!
# The nodes of an expression

How the context of a phrase over indices is evaluated: a letter is a variable; a command, a power or a number is described by its rule, with
the indices for operands; and everything else is a sum.
-/

namespace FormulaDag

namespace RuleSet
variable {s : RuleSet} {t : Text} {e : Nat × Rule}

/-- The numbers of rules ascend. -/
theorem pairwise_numbered (s : RuleSet) : s.numbered.Pairwise fun d e => d.1 < e.1 := by
  have hnumbers : s.numbered.map Prod.fst = List.range s.rules.length := by
    rw [numbered, List.map_map, List.range_eq_range']
    exact List.zipIdx_map_snd 0 s.rules
  rw [← List.pairwise_map (f := Prod.fst) (R := (· < ·)), hnumbers]
  exact List.pairwise_lt_range

theorem resolveWith_append {before after : List (Nat × Rule)} (h : ∀ d ∈ before, d.2.locate d.1 t = .ok none) :
    resolveWith t (before ++ after) = resolveWith t after := by
  induction before with
  | nil => rfl
  | cons d before ih =>
    obtain ⟨hd, hrest⟩ := List.forall_mem_cons.1 h
    rw [List.cons_append, resolveWith, Rule.findWhole, Rule.find, hd]
    exact ih hrest

/-- A text in which no rule finds anything is described by none. -/
theorem resolve_eq_none (h : ∀ d ∈ s.numbered, d.2.locate d.1 t = .ok none) : s.resolve t = .ok none := by
  rw [resolve, ← List.append_nil s.numbered, resolveWith_append h]
  rfl

/-- A text is described by the first rule that finds something in it, if that is all of the text. -/
theorem resolve_eq_some (he : e ∈ s.numbered) (hbefore : ∀ d ∈ s.numbered, d.1 < e.1 → d.2.locate d.1 t = .ok none)
    {taken : Text} {parts : List (String × Text)} (hsearch : e.2.search [] t = some ([], ⟨taken, [], parts⟩)) {o : Occurrence}
    (ho : e.2.occurrence e.1 [] ⟨taken, [], parts⟩ = .ok o) : s.resolve t = .ok (some o) := by
  obtain ⟨before, after, heq⟩ := List.append_of_mem he
  have hfirst : ∀ d ∈ before, d.2.locate d.1 t = .ok none := by
    intro d hd
    have hpairwise := s.pairwise_numbered
    rw [heq, List.pairwise_append] at hpairwise
    exact hbefore d (by simp [heq, hd]) (hpairwise.2.2 d hd e List.mem_cons_self)
  have hlocate : e.2.locate e.1 t = .ok (some ⟨[], o, []⟩) := by
    rw [Rule.locate, hsearch]
    simp only [ho]
    rfl
  have hwhole : o.isWhole t = true := (Rule.isWhole_iff (s.isAligned _ (mem_of_numbered he)) hlocate).2 ⟨rfl, rfl⟩
  have hfind : e.2.findWhole e.1 t = .ok (some o) := by
    rw [Rule.findWhole, Rule.find, hlocate]
    exact congrArg Except.ok (Option.filter_some_pos hwhole)
  rw [resolve, heq, resolveWith_append hfirst, resolveWith, hfind]

end RuleSet

/-! ## The rules of phrases -/

/-- A power of two indices is accepted. -/
theorem Rule.occurrence_power {j k : Nat} (hj : j < Index.bound) (hk : k < Index.bound) (behind taken t : Text) :
    power.occurrence 5 behind ⟨taken, t, [("value", Index.token j), ("exponent", Index.token k)]⟩ = .ok ⟨5, Text.byteSize behind,
      Text.byteSize behind + Text.byteSize taken, taken, none, [some (.index j), some (.index k)]⟩ := by
  have hslots : power.slots = [{ name := "value", takesText := true }, { name := "exponent" }] := rfl
  have hvalue : Slot.operand power.name [("value", Index.token j), ("exponent", Index.token k)] { name := "value", takesText := true } =
      .ok (some (.index j)) := Slot.operand_token hj rfl rfl
  have hexponent : Slot.operand power.name [("value", Index.token j), ("exponent", Index.token k)] { name := "exponent" } =
      .ok (some (.index k)) := Slot.operand_token hk rfl rfl
  rw [occurrence_eq, hslots]
  simp only [List.mapM_cons, List.mapM_nil, hvalue, hexponent]
  rfl

namespace Phrase

/-- The rule of a phrase, with its function and its operands. -/
def IsOccurrence (t : Text) (rule : Nat) (selector : Option String) (operands : List (Option Operand)) : Prop :=
  ∃ o, RuleSet.standard.resolve t = .ok (some o) ∧ o.rule = rule ∧ o.selector = selector ∧ o.operands = operands

variable {letters : List Char} {M : Nat → Expression → Prop} {l : Phrase} {e : Expression}

theorem append_cons_eq_singleton {l₁ l₂ : Phrase} {item item' : Item} (h : [item] = l₁ ++ item' :: l₂) :
    l₁ = [] ∧ item = item' ∧ l₂ = [] := by
  cases l₁ with
  | nil =>
    obtain ⟨rfl, hnil⟩ := List.cons.inj h
    exact ⟨rfl, rfl, hnil.symm⟩
  | cons a l₁ => simp at h

/-- A phrase without commands has nothing for the rules of commands. -/
theorem locate_command (hletters : ∀ c ∈ letters, c.isLower = true) (hfits : ∀ item ∈ l, item.Fits letters) {d : Nat × Rule}
    (hd : d ∈ RuleSet.standard.numbered) (hcommand : d.1 < 5) (hcalls : ∀ c, .call c ∈ l → c.rule ≠ d.1) :
    d.2.locate d.1 l.line.text = .ok none := by
  rcases search_command_cases hletters hd hcommand hfits with ⟨-, hnone⟩ | ⟨l₁, c, l₂, rfl, hc, -⟩
  · exact Rule.locate_of_search_eq_none hnone d.1
  · exact absurd hc (hcalls c (by simp))

/-- A command is described by its rule. -/
theorem isOccurrence_call (c : Call) (hsmall : ∀ k, .ref k ∈ c.operands → k < Index.bound) :
    IsOccurrence (line [.call c]).text c.rule c.selector c.arguments := by
  have hfits : ∀ item ∈ [Item.call c], item.Fits [] := by simp [Item.Fits]
  obtain ⟨e, he, hrule⟩ := (IsTaken.call c).exists_rule
  have hcommand : e.1 < 5 := hrule ▸ c.rule_lt
  rcases search_command_cases (by simp) he hcommand hfits with ⟨hfree, -⟩ | ⟨l₁, c', l₂, heq, -, hsearch⟩
  · exact absurd hrule.symm (hfree c (by simp))
  · obtain ⟨rfl, hitem, rfl⟩ := append_cons_eq_singleton heq
    obtain rfl := Item.call.inj hitem
    have hbefore : ∀ d ∈ RuleSet.standard.numbered, d.1 < e.1 → d.2.locate d.1 (line [.call c]).text = .ok none := fun d hd hlt =>
      locate_command (by simp) hfits hd (hlt.trans hcommand) (by simpa [hrule] using fun h => by omega)
    refine ⟨_, RuleSet.resolve_eq_some he hbefore hsearch (c.occurrence_rule he hrule.symm hsmall [] []), hrule, rfl, rfl⟩

section
variable (hletters : ∀ c ∈ letters, c.isLower = true)
include hletters

/-- The rule of powers finds nothing in a phrase without a caret. -/
theorem locate_power (h : Sentence letters M l e) {n : Nat} (hwithin : l.line.Within n) (hcaret : .sign '^' ∉ l) :
    Rule.power.locate 5 l.line.text = .ok none := by
  rcases h.search_power_cases hletters hwithin (fun hmem => absurd hmem hcaret) with ⟨-, hnone⟩ | ⟨u, item, k, v, rfl, -⟩
  · exact Rule.locate_of_search_eq_none hnone 5
  · simp at hcaret

/-- A number is described by its rule. -/
theorem isOccurrence_digits {run : DigitRun} (h : Sentence letters M [.digits run] e) {n : Nat} (hwithin : (line [.digits run]).Within n) :
    ∃ x, Decimal.read? run.text = some x ∧ IsOccurrence (line [.digits run]).text 6 none [some (.literal x)] := by
  obtain ⟨x, hx, ho⟩ := Rule.exists_occurrence_number run [] []
  refine ⟨x, hx, _, RuleSet.resolve_eq_some (e := (6, Rule.number)) (by simp [RuleSet.mem_numbered_standard]) (fun d hd hlt => ?_) ?_ ho,
    rfl, rfl, rfl⟩
  · by_cases hcommand : d.1 < 5
    · exact locate_command hletters h.fits hd hcommand (by simp)
    · rcases RuleSet.mem_numbered_standard.1 hd with rfl | rfl | rfl | rfl | rfl | rfl | rfl
      iterate 5 exact absurd (by decide) hcommand
      · exact locate_power hletters h hwithin (by simp)
      · exact absurd hlt (by decide)
  · rcases h.search_number_cases hletters hwithin with ⟨hfree, -⟩ | ⟨l₁, run', l₂, heq, hsearch⟩
    · exact absurd List.mem_cons_self (hfree run)
    · obtain ⟨rfl, hitem, rfl⟩ := append_cons_eq_singleton heq
      obtain rfl := Item.digits.inj hitem
      exact hsearch

/-- A power is described by its rule. -/
theorem isOccurrence_power {j k : Nat} (h : Sentence letters M [.ref j, .sign '^', .ref k] e)
    (hwithin : (line [.ref j, .sign '^', .ref k]).Within Index.bound) :
    IsOccurrence (line [.ref j, .sign '^', .ref k]).text 5 none [some (.index j), some (.index k)] := by
  have hrefs : j < Index.bound ∧ k < Index.bound := ⟨hwithin.refs j (by simp [Item.line]), hwithin.refs k (by simp [Item.line])⟩
  rcases h.search_power_cases hletters hwithin (by simp) with ⟨hfree, -⟩ | ⟨u, item, k', v, heq, -, -, hsearch⟩
  · simp at hfree
  · have hlengths := congrArg List.length heq
    simp only [List.length_append, List.length_cons, List.length_nil] at hlengths
    obtain rfl : u = [] := List.eq_nil_of_length_eq_zero (by omega)
    obtain rfl : v = [] := List.eq_nil_of_length_eq_zero (by omega)
    obtain ⟨rfl, rfl⟩ : Item.ref j = item ∧ k = k' := by simpa using heq
    have hbase : (Item.ref j).line.text = Index.token j := List.append_nil _
    rw [hbase] at hsearch
    have ho := Rule.occurrence_power hrefs.1 hrefs.2 [] (line [.ref j, .sign '^', .ref k]).text []
    exact ⟨_, RuleSet.resolve_eq_some (e := (5, Rule.power)) (by simp [RuleSet.mem_numbered_standard])
      (fun d hd hlt => locate_command hletters h.fits hd hlt (by simp)) hsearch ho, rfl, rfl, rfl⟩

/-- A sum is described by no rule. -/
theorem resolve_sum (h : Sentence letters M l e) {n : Nat} (hwithin : l.line.Within n) (hcalls : ∀ c, .call c ∉ l) (hcaret : .sign '^' ∉ l)
    (hdigits : ∀ run, .digits run ∉ l) : RuleSet.standard.resolve l.line.text = .ok none := by
  refine RuleSet.resolve_eq_none fun d hd => ?_
  by_cases hcommand : d.1 < 5
  · exact locate_command hletters h.fits hd hcommand fun c hc => absurd hc (hcalls c)
  rcases RuleSet.mem_numbered_standard.1 hd with rfl | rfl | rfl | rfl | rfl | rfl | rfl
  iterate 5 exact absurd (by decide) hcommand
  · exact locate_power hletters h hwithin hcaret
  · rcases h.search_number_cases hletters hwithin with ⟨-, hnone⟩ | ⟨l₁, run, l₂, rfl, -⟩
    · exact Rule.locate_of_search_eq_none hnone 6
    · exact absurd (by simp) (hdigits run)

end

/-- A node is a phrase without parentheses. -/
theorem Node.reads {leaves : List Char} (hleaves : leaves ⊆ letters) (h : Node letters leaves M l e) : Reads letters M .whole l e := by
  have hbase : ∀ {item a}, Item.Leaf leaves M item a → Reads letters M .base [item] a := by
    intro item a ha
    cases ha with
    | letter hc he => exact .baseOfAtom (.letter (hleaves hc) he)
    | ref hk => exact .reference hk
  cases h with
  | digits run => exact .wholeOfAtom (.digits run)
  | letter hc he => exact .wholeOfAtom (.letter hc he)
  | call hc => exact .wholeOfAtom (.call hc)
  | power ha hb => exact .wholeOfPower (.power (hbase ha) hb)
  | negation ha => exact .negation (.operandOfBase (hbase ha))
  | operation op ha hb =>
    refine .operation op (.operandOfBase (hbase ha)) (.operandOfBase (hbase hb)) fun _ run rest heq => ?_
    obtain ⟨rfl, -⟩ := List.cons.inj heq
    cases hb

end Phrase

/-! ## Nodes -/

namespace Dag

/-- A text that is not the letter of a variable is no variable. -/
theorem letterPosition?_text {letters : List Char} {s : Line} (h : s.letter? letters = none) : letterPosition? letters s.text = none := by
  by_contra hsome
  obtain ⟨i, hi⟩ := Option.ne_none_iff_exists'.1 hsome
  obtain ⟨c, htext, hc⟩ : ∃ c, s.text = [c] ∧ c ∈ letters := by
    unfold letterPosition? at hi
    split at hi
    · rename_i c htext
      exact ⟨c, htext, by_contra fun hc => by simp [hc] at hi⟩
    · cases hi
  cases s with
  | nil => cases htext
  | cons m s =>
    cases m with
    | ref k => simp [Mark.text, Index.token_eq] at htext
    | char d =>
      obtain ⟨rfl, hnil⟩ : d = c ∧ Line.text s = [] := by simpa [Mark.text] using htext
      obtain rfl : s = [] := by_contra fun hne => Line.text_ne_nil hne hnil
      rw [Line.letter?_eq_some.2 ⟨rfl, hc⟩] at h
      cases h

theorem nodeOf_text {r : RuleSet} {letters : List Char} {s : Line} (h : s.letter? letters = none) {found : Option Occurrence}
    (hfound : r.resolve s.text = .ok found) :
    nodeOf r letters s.text = .ok ⟨found.elim .sum .rule, s.text, Token.references s.text⟩ := by
  rw [nodeOf, kindOf, letterPosition?_text h]
  simp only [hfound]
  cases found <;> rfl

/-- The context of a variable has a node. -/
theorem exists_nodeOf_letterText {letters : List Char} {c : Char} (hc : c ∈ letters) :
    ∃ n, nodeOf .standard letters (Pool.letterText c) = .ok n := by
  rw [Pool.letterText]
  split
  · have haccepted : (RuleSet.standard.resolve Symbol.eulerNumber).toBool = true := by decide +kernel
    have hposition : letterPosition? letters Symbol.eulerNumber = none := rfl
    cases hresolve : RuleSet.standard.resolve Symbol.eulerNumber with
    | error fault =>
      rw [hresolve] at haccepted
      cases haccepted
    | ok found =>
      rw [nodeOf, kindOf, hposition]
      simp only [hresolve]
      cases found <;> exact ⟨_, rfl⟩
  · exact ⟨_, by rw [nodeOf, kindOf, letterPosition?, if_pos hc]; rfl⟩

end Dag

namespace Phrase

/-- How a phrase over indices is evaluated. -/
inductive HasKind (letters : List Char) (M : Nat → Expression → Prop) : Phrase → NodeKind → Expression → Prop where
  | letter {c : Char} (hc : c ∈ letters) : HasKind letters M [.letter c] (.variable (letters.idxOf c)) (.letter c)
  | digits {run : DigitRun} {x : Float} {o : Occurrence} (hx : Decimal.read? run.text = some x) (hrule : o.rule = 6)
    (hselector : o.selector = none) (hoperands : o.operands = [some (.literal x)]) :
    HasKind letters M [.digits run] (.rule o) (.digits run)
  | call {c : Call} {e : Expression} {o : Occurrence} (h : c.Reads M e) (hrule : o.rule = c.rule) (hselector : o.selector = c.selector)
    (hoperands : o.operands = c.arguments) : HasKind letters M [.call c] (.rule o) e
  | power {j k : Nat} {a b : Expression} {o : Occurrence} (ha : M j a) (hb : M k b) (hrule : o.rule = 5) (hselector : o.selector = none)
    (hoperands : o.operands = [some (.index j), some (.index k)]) :
    HasKind letters M [.ref j, .sign '^', .ref k] (.rule o) (.power a b)
  | negation {k : Nat} {a : Expression} (ha : M k a) : HasKind letters M [.sign '-', .ref k] .sum (.negation a)
  | operation (op : Operator) {j k : Nat} {a b : Expression} (ha : M j a) (hb : M k b) :
    HasKind letters M [.ref j, .sign op.char, .ref k] .sum (.operation op a b)

/-- Every phrase over indices has a node. -/
theorem Node.exists_kind {letters : List Char} {M : Nat → Expression → Prop} {l : Phrase} {e : Expression}
    (hletters : ∀ c ∈ letters, c.isLower = true) (h : Node letters [] M l e) (hM : ∀ k a, M k a → k < Index.bound) :
    ∃ kind, HasKind letters M l kind e ∧
      Dag.nodeOf .standard letters l.line.text = .ok ⟨kind, l.line.text, Token.references l.line.text⟩ := by
  have hwithin := (h.reads (List.nil_subset _)).within hletters hM
  have hsentence := h.sentence (List.nil_subset _)
  have hrule : ∀ {rule selector operands}, (∀ c, l ≠ [.letter c]) → IsOccurrence l.line.text rule selector operands →
      ∃ o, (o.rule = rule ∧ o.selector = selector ∧ o.operands = operands) ∧
        Dag.nodeOf .standard letters l.line.text = .ok ⟨.rule o, l.line.text, Token.references l.line.text⟩ :=
    fun hl ⟨o, ho, hfacts⟩ => ⟨o, hfacts, Dag.nodeOf_text (h.letter?_eq_none hletters hl) ho⟩
  have hsum : (∀ c, l ≠ [.letter c]) → (∀ c, .call c ∉ l) → .sign '^' ∉ l → (∀ run, .digits run ∉ l) →
      Dag.nodeOf .standard letters l.line.text = .ok ⟨.sum, l.line.text, Token.references l.line.text⟩ := fun hl hcalls hcaret hdigits =>
    Dag.nodeOf_text (h.letter?_eq_none hletters hl) (resolve_sum hletters hsentence hwithin hcalls hcaret hdigits)
  cases h with
  | @letter c hc he =>
    refine ⟨_, .letter hc, ?_⟩
    have hposition : Dag.letterPosition? letters (line [.letter c]).text = some (letters.idxOf c) := if_pos hc
    rw [Dag.nodeOf, Dag.kindOf, hposition]
    rfl
  | digits run =>
    obtain ⟨x, hx, hoccurrence⟩ := isOccurrence_digits hletters hsentence hwithin
    obtain ⟨o, ⟨hrule, hselector, hoperands⟩, hnode⟩ := hrule (by simp) hoccurrence
    exact ⟨_, .digits hx hrule hselector hoperands, hnode⟩
  | @call c _ hc =>
    have hsmall : ∀ k, .ref k ∈ c.operands → k < Index.bound := fun k hk => hwithin.refs k (by simp [Item.line, Call.line, hk])
    obtain ⟨o, ⟨hrule, hselector, hoperands⟩, hnode⟩ := hrule (by simp) (isOccurrence_call c hsmall)
    exact ⟨_, .call hc hrule hselector hoperands, hnode⟩
  | power ha hb =>
    cases ha with
    | letter hc => cases hc
    | ref ha =>
      obtain ⟨o, ⟨hrule, hselector, hoperands⟩, hnode⟩ := hrule (by simp) (isOccurrence_power hletters hsentence hwithin)
      exact ⟨_, .power ha hb hrule hselector hoperands, hnode⟩
  | negation ha =>
    cases ha with
    | letter hc => cases hc
    | ref ha => exact ⟨_, .negation ha, hsum (by simp) (by simp) (by simp) (by simp)⟩
  | operation op ha hb =>
    cases ha with
    | letter hc => cases hc
    | ref ha =>
      cases hb with
      | letter hc => cases hc
      | ref hb => exact ⟨_, .operation op ha hb, hsum (by simp) (by simp) (by simpa using op.char_facts.2.1.symm) (by simp)⟩

end Phrase

end FormulaDag
