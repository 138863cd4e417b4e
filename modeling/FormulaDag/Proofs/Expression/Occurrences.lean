import FormulaDag.Proofs.Decimal.Written
import FormulaDag.Proofs.Expression.Commands
import FormulaDag.Proofs.Rule.Letters

/-!
# What the rules find in sentences

A rule of commands finds the leftmost of its commands in a sentence, the rule of powers finds the leftmost power once the commands are
taken out, and the rule of numbers finds the leftmost number. No rule refuses what it finds.
-/

namespace FormulaDag

/-! ## Items -/

namespace Item

/-- Whether an item may stand in a sentence over the given variables. -/
def Fits (letters : List Char) : Item → Prop
  | letter c => c ∈ letters
  | sign c => c = '^' ∨ ∃ op : Operator, c = op.char
  | _ => True

theorem Reads.fits {letters : List Char} {M : Nat → Expression → Prop} {item : Item} {e : Expression} (h : item.Reads letters M e) :
    item.Fits letters := by
  cases h with
  | letter hc => exact hc
  | _ => trivial

/-- The characters of an item that is no call. -/
theorem char_mem_line {letters : List Char} {item : Item} (h : item.Fits letters) (hcall : ∀ c, item ≠ .call c) {d : Char}
    (hd : .char d ∈ item.line) : d.isDigit = true ∧ (∃ run, item = .digits run) ∨ d ∈ letters ∨ d = '^' ∨ ∃ op : Operator, d = op.char := by
  cases item with
  | digits run =>
    simp only [line, Line.ofText, List.mem_map, Mark.char.injEq, exists_eq_right] at hd
    exact .inl ⟨run.digits d hd, run, rfl⟩
  | letter c =>
    simp only [line, List.mem_singleton, Mark.char.injEq] at hd
    exact .inr (.inl (hd ▸ h))
  | call c => exact absurd rfl (hcall c)
  | ref k => simp [line] at hd
  | sign c =>
    simp only [line, List.mem_singleton, Mark.char.injEq] at hd
    exact .inr (.inr (hd ▸ h))

theorem line_ne_nil (item : Item) : item.line ≠ [] := by
  cases item with
  | digits run => simpa [line, Line.ofText] using run.nonempty
  | letter | call | ref | sign => simp [line, Call.line]

end Item

theorem Operator.char_facts (op : Operator) : op.char ≠ '\\' ∧ op.char ≠ '^' ∧ op.char ≠ '@' ∧ Text.isNumeric op.char = false ∧
    op.char.isAlpha = false ∧ op.char ≠ '_' := by
  cases op <;> decide

namespace Phrase

section
variable {letters : List Char} {M : Nat → Expression → Prop} {l : Phrase} {d : Expression}

theorem Factor.fits (h : Factor letters M l d) : ∀ item ∈ l, item.Fits letters := by
  cases h with
  | item h => simpa using h.fits
  | power ha hb => simpa [Item.Fits] using ha.fits

/-- The items of a sentence. -/
theorem Sentence.fits (h : Sentence letters M l d) : ∀ item ∈ l, item.Fits letters := by
  cases h with
  | factor h => exact h.fits
  | negation ha => exact List.forall_mem_cons.2 ⟨.inr ⟨.minus, rfl⟩, ha.fits⟩
  | operation op ha hb =>
    intro item hitem
    rcases List.mem_append.1 hitem with hitem | hitem
    · exact ha.fits item hitem
    · exact (List.forall_mem_cons.2 ⟨.inr ⟨op, rfl⟩, hb.fits⟩) item hitem

end

/-- The first item with some property. -/
theorem exists_first {p : Item → Prop} {l : Phrase} (h : ∃ item ∈ l, p item) :
    ∃ (l₁ : Phrase) (item : Item) (l₂ : Phrase), l = l₁ ++ item :: l₂ ∧ p item ∧ ∀ item ∈ l₁, ¬p item := by
  induction l with
  | nil => simp at h
  | cons x l ih =>
    by_cases hx : p x
    · exact ⟨[], x, l, rfl, hx, by simp⟩
    · obtain ⟨l₁, item, l₂, rfl, hitem, hfirst⟩ := ih (by simpa [hx] using h)
      exact ⟨x :: l₁, item, l₂, rfl, hitem, List.forall_mem_cons.2 ⟨hx, hfirst⟩⟩

end Phrase

/-! ## Commands -/

namespace Rule

/-- A search passes characters with which nothing begins. -/
theorem search_append {r : Rule} {accepts : Char → Bool} (hr : r.pattern.Begins accepts) {u : Text} (hu : ∀ c ∈ u, accepts c = false)
    (behind t : Text) : r.search behind (u ++ t) = r.search (u.reverse ++ behind) t := by
  refine search_passed fun x y hxy hy => ?_
  obtain ⟨c, y, rfl⟩ := List.exists_cons_of_ne_nil hy
  exact hitAt_of_hits (hr.hits_eq_nil (hu c (by simp [hxy])) _) _

theorem begins_command {e : Nat × Rule} (he : e ∈ RuleSet.standard.numbered) (hcommand : e.1 < 5) :
    (e.2.pattern.Begins fun c => c == '\\') ∧ e.2.admits = fun _ _ => true := by
  have hword : ∀ (w : Text) (q : Pattern), (Pattern.sequence (.literal ('\\' :: w)) q).Begins fun c => c == '\\' :=
    fun w q => .sequence (.literal rfl)
  rcases RuleSet.mem_numbered_standard.1 he with rfl | rfl | rfl | rfl | rfl | rfl | rfl
  · exact ⟨.sequence (hword _ _), rfl⟩
  · exact ⟨.sequence (hword _ _), rfl⟩
  · exact ⟨.sequence (.sequence (hword _ _)), rfl⟩
  · exact ⟨.sequence (hword _ _), rfl⟩
  · exact ⟨.sequence (hword _ _), rfl⟩
  · exact absurd hcommand (by decide)
  · exact absurd hcommand (by decide)

end Rule

namespace Phrase

section
variable {letters : List Char} {l : Phrase} {e : Nat × Rule} (hletters : ∀ c ∈ letters, c.isLower = true)
  (he : e ∈ RuleSet.standard.numbered) (hcommand : e.1 < 5)
include hletters he hcommand

/-- The rule of a command passes the commands of other rules and everything that is no command. -/
theorem search_command (hfits : ∀ item ∈ l, item.Fits letters) (hfree : ∀ c, .call c ∈ l → c.rule ≠ e.1) (behind t : Text) :
    e.2.search behind (l.line.text ++ t) = e.2.search (l.line.text.reverse ++ behind) t := by
  obtain ⟨hbegins, -⟩ := Rule.begins_command he hcommand
  induction l generalizing behind with
  | nil => rfl
  | cons item l ih =>
    obtain ⟨hitem, hfits⟩ := List.forall_mem_cons.1 hfits
    have hpass : e.2.search behind (item.line.text ++ ((line l).text ++ t)) =
        e.2.search (item.line.text.reverse ++ behind) ((line l).text ++ t) := by
      by_cases hcall : ∃ c, item = .call c
      · obtain ⟨c, rfl⟩ := hcall
        have hnone : e.2.hitAt behind (c.line.text ++ ((line l).text ++ t)) = none :=
          Rule.hitAt_of_first? ((c.first?_rule he hcommand _).2 (hfree c (by simp))) behind
        have hrest : ∀ d ∈ c.word.toList ++ c.operands.text, (d == '\\') = false := by
          intro d hd
          rw [beq_eq_false_iff_ne]
          rintro rfl
          rcases List.mem_append.1 hd with hd | hd
          · exact absurd (c.isAlpha_of_mem_word _ hd) (by decide)
          · refine Line.not_mem_text (by decide) (by decide) (by decide) ?_ hd
            cases c <;> simp [Call.operands]
        change e.2.search behind (c.line.text ++ _) = e.2.search (c.line.text.reverse ++ behind) _
        rw [c.text_line, List.cons_append] at hnone ⊢
        rw [Rule.search_cons_of_hitAt hnone, Rule.search_append hbegins hrest]
        simp
      · refine Rule.search_append hbegins (fun d hd => beq_eq_false_iff_ne.2 ?_) behind _
        rintro rfl
        refine Line.not_mem_text (by decide) (by decide) (by decide) (fun hmem => ?_) hd
        rcases Item.char_mem_line hitem (fun c hc => hcall ⟨c, hc⟩) hmem with ⟨h, -⟩ | h | h | ⟨op, h⟩
        · exact absurd h (by decide)
        · exact absurd (hletters _ h) (by decide)
        · exact absurd h (by decide)
        · exact op.char_facts.1 h.symm
    rw [line_cons, Line.text_append, List.append_assoc, hpass, ih hfits fun c hc => hfree c (List.mem_cons_of_mem _ hc)]
    simp

/-- The rule of a command finds the leftmost of its commands. -/
theorem search_command_cases (hfits : ∀ item ∈ l, item.Fits letters) :
    (∀ c, .call c ∈ l → c.rule ≠ e.1) ∧ e.2.search [] l.line.text = none ∨
      ∃ (l₁ : Phrase) (c : Call) (l₂ : Phrase), l = l₁ ++ .call c :: l₂ ∧ c.rule = e.1 ∧
        e.2.search [] l.line.text = some (l₁.line.text.reverse, ⟨c.line.text, l₂.line.text, c.parts⟩) := by
  obtain ⟨hbegins, hadmits⟩ := Rule.begins_command he hcommand
  by_cases howns : ∃ item ∈ l, ∃ c, item = .call c ∧ c.rule = e.1
  · obtain ⟨l₁, item, l₂, rfl, ⟨c, rfl, hc⟩, hfirst⟩ := exists_first howns
    refine .inr ⟨l₁, c, l₂, rfl, hc, ?_⟩
    have hhit : e.2.hitAt (l₁.line.text.reverse ++ []) (c.line.text ++ l₂.line.text) = some ⟨c.line.text, l₂.line.text, c.parts⟩ := by
      rw [Rule.hitAt, (c.first?_rule he hcommand _).1 hc, hadmits]
      rfl
    have hpass := search_command hletters he hcommand (l := l₁) (fun item hitem => hfits item (List.mem_append_left _ hitem))
      (fun c hcall hc => hfirst _ hcall ⟨c, rfl, hc⟩) [] (c.line.text ++ l₂.line.text)
    rw [line_append, line_cons, Line.text_append, Line.text_append, Item.line, hpass, Rule.search_of_hitAt hhit, List.append_nil]
  · have hfree : ∀ c, .call c ∈ l → c.rule ≠ e.1 := fun c hcall hc => howns ⟨_, hcall, c, rfl, hc⟩
    have hpass := search_command hletters he hcommand hfits hfree [] []
    have hnil : e.2.hitAt (l.line.text.reverse ++ []) [] = none := Rule.hitAt_of_hits hbegins.hits_nil _
    rw [List.append_nil] at hpass
    exact .inl ⟨hfree, hpass.trans (Rule.search_nil_of_hitAt hnil)⟩

end

end Phrase

/-! ## Numbers -/

/-- A run of digits and points has no sign and is no word. -/
theorem Decimal.read?_of_numeric {run : Text} (h : ∀ c ∈ run, Text.isNumeric c = true) : read? run = (magnitude? false run).map toFloat := by
  have hne : ∀ {c : Char} {rest : Text}, run = c :: rest → ∀ d : Char, Text.isNumeric d = false → c ≠ d := by
    rintro c rest rfl d hd rfl
    rw [h c List.mem_cons_self] at hd
    cases hd
  have hsign : splitSign run = (false, run) := by
    rw [splitSign]
    · exact fun t ht => hne ht '-' (by decide) rfl
    · exact fun t ht => hne ht '+' (by decide) rfl
  refine read?_of_splitSign hsign fun c hc => ?_
  have hnumeric := h c (List.mem_of_mem_head? hc)
  rwa [Text.isNumeric, Bool.or_eq_true, beq_iff_eq] at hnumeric

/-- Every run of digits is read as a number. -/
theorem DigitRun.exists_read? (run : DigitRun) : ∃ x, Decimal.read? run.text = some x := by
  rw [Decimal.read?_of_numeric fun c hc => Text.isNumeric_of_isDigit (run.digits c hc), Decimal.magnitude?]
  simp [List.takeWhile_eq_self_iff.2 run.digits, List.dropWhile_eq_nil_iff.2 run.digits, run.nonempty, Decimal.exponent?]

/-- In a run that is read as a number only digits follow the first point. -/
theorem Decimal.digits_of_read? {digits run : Text} {x : Float} (hdigits : ∀ c ∈ digits, c.isDigit = true)
    (hrun : ∀ c ∈ run, Text.isNumeric c = true) (h : read? (digits ++ '.' :: run) = some x) : ∀ c ∈ run, c.isDigit = true := by
  have hnumeric : ∀ c ∈ digits ++ '.' :: run, Text.isNumeric c = true := List.forall_mem_append.2
    ⟨fun c hc => Text.isNumeric_of_isDigit (hdigits c hc), List.forall_mem_cons.2 ⟨rfl, hrun⟩⟩
  have hrest : run.dropWhile Char.isDigit = [] := by
    rw [read?_of_numeric hnumeric, magnitude?, List.takeWhile_append_of_pos hdigits, List.dropWhile_append_of_pos hdigits] at h
    cases hdrop : run.dropWhile Char.isDigit with
    | nil => rfl
    | cons c rest =>
      -- what follows the digits would be another point
      have hdigit : c.isDigit = false := by
        have := List.head?_dropWhile_not Char.isDigit run
        rwa [hdrop] at this
      have hpoint : c = '.' := by
        have hc := hrun c ((List.dropWhile_suffix _).subset (hdrop ▸ List.mem_cons_self))
        simpa [Text.isNumeric, hdigit] using hc
      subst hpoint
      simp [hdrop, exponent?] at h
  exact List.dropWhile_eq_nil_iff.1 hrest

namespace Rule

/-- A search passes the marks of a line at which nothing is found. -/
theorem search_line_append {r : Rule} (hsep : r.Separate) {n : Nat} {a s : Line} (hs : Line.Within n (a ++ s)) {behind : Text}
    (hnone : ∀ (a₁ : Line) (m : Mark) (a₂ : Line), a = a₁ ++ m :: a₂ →
      r.hitAt (a₁.text.reverse ++ behind) (Line.text (m :: (a₂ ++ s))) = none) :
    r.search behind (Line.text (a ++ s)) = r.search (a.text.reverse ++ behind) s.text := by
  induction a generalizing behind with
  | nil => rfl
  | cons m a ih =>
    have hafter : ∀ (a₁ : Line) (m' : Mark) (a₂ : Line), a = a₁ ++ m' :: a₂ →
        r.hitAt (a₁.text.reverse ++ (m.text.reverse ++ behind)) (Line.text (m' :: (a₂ ++ s))) = none := fun a₁ m' a₂ ha => by
      have h := hnone (m :: a₁) m' a₂ (by rw [ha]; rfl)
      simpa using h
    have hrest := ih (hs.subset (List.subset_cons_self _ _)) hafter
    have hhere : r.hitAt behind (Line.text (m :: (a ++ s))) = none := hnone [] m a rfl
    have hmark := search_mark hsep (s := a ++ s) hs hhere
    change r.search behind (Line.text (m :: (a ++ s))) = _
    rw [hmark, hrest]
    simp

/-- A number begins with a numeric character. -/
theorem hitAt_number_eq_none {m : Mark} (hm : ∀ c, m = .char c → Text.isNumeric c = false) (behind t : Text) :
    number.hitAt behind (m.text ++ t) = none := by
  have hbegins : number.pattern.Begins Text.isNumeric := .named .run
  cases m with
  | char c => exact hitAt_of_hits (hbegins.hits_eq_nil (hm c rfl) t) behind
  | ref k =>
    rw [Mark.text, Index.token_eq, List.cons_append]
    exact hitAt_of_hits (hbegins.hits_eq_nil (by decide) _) behind

/-- A run of digits is found as a number where it begins, when it is no part of a longer number. -/
theorem hitAt_number {run t behind : Text} (hne : run ≠ []) (hrun : ∀ c ∈ run, Text.isNumeric c = true)
    (hright : ∀ c ∈ t.head?, Text.isNumeric c = false) (hadmits : numberAdmits behind (run ++ t) = true) :
    number.hitAt behind (run ++ t) = some ⟨run, t, [("value", run)]⟩ := by
  obtain ⟨c, cs, rfl⟩ := List.exists_cons_of_ne_nil hne
  have hhits : Pattern.numeral.hits (c :: cs ++ t) = [⟨c :: cs, t, []⟩] := by
    change Pattern.hits (.run Text.isNumeric) _ = _
    rw [Pattern.hits, Text.takeWhile_numeral hrun hright, Text.dropWhile_numeral hrun hright]
  have hfirst : number.pattern.first? (c :: cs ++ t) = some ⟨c :: cs, t, [("value", c :: cs)]⟩ := by
    change (Pattern.hits (.named "value" .numeral) _).head? = _
    rw [Pattern.hits, hhits]
    rfl
  rw [hitAt, hfirst]
  exact Option.filter_some_pos hadmits

end Rule

namespace Phrase

section
variable {letters : List Char} {M : Nat → Expression → Prop} {l : Phrase} {d : Expression}
  (hletters : ∀ c ∈ letters, c.isLower = true)

/-- Only numbers hold numeric characters. -/
theorem numeric_of_char_mem (hletters : ∀ c ∈ letters, c.isLower = true) (hfits : ∀ item ∈ l, item.Fits letters) {c : Char}
    (hc : .char c ∈ l.line) (hnumeric : Text.isNumeric c = true) : ∃ run, .digits run ∈ l := by
  obtain ⟨item, hitem, hc⟩ := List.mem_flatMap.1 hc
  have halpha := Text.not_isAlpha_of_isNumeric hnumeric
  by_cases hcall : ∃ call, item = .call call
  · obtain ⟨call, rfl⟩ := hcall
    rcases Call.char_mem_line hc with rfl | h | rfl | rfl | rfl
    · exact absurd hnumeric (by decide)
    · rw [halpha] at h
      cases h
    · exact absurd hnumeric (by decide)
    · exact absurd hnumeric (by decide)
    · exact absurd hnumeric (by decide)
  · rcases Item.char_mem_line (hfits item hitem) (fun c h => hcall ⟨c, h⟩) hc with ⟨-, run, rfl⟩ | h | rfl | ⟨op, rfl⟩
    · exact ⟨run, hitem⟩
    · have hlower := hletters c h
      simp [Char.isAlpha, hlower] at halpha
    · exact absurd hnumeric (by decide)
    · rw [op.char_facts.2.2.2.1] at hnumeric
      cases hnumeric

include hletters

/-- The rule of numbers finds the leftmost number. -/
theorem Sentence.search_number_cases (h : Sentence letters M l d) {n : Nat} (hwithin : l.line.Within n) :
    (∀ run, .digits run ∉ l) ∧ Rule.number.search [] l.line.text = none ∨
      ∃ (l₁ : Phrase) (run : DigitRun) (l₂ : Phrase), l = l₁ ++ .digits run :: l₂ ∧
        Rule.number.search [] l.line.text = some (l₁.line.text.reverse, ⟨run.text, l₂.line.text, [("value", run.text)]⟩) := by
  have hfits := h.fits
  have hpass : ∀ (l₁ : Phrase) (s : Line), (∀ item ∈ l₁, item.Fits letters) → (∀ run, .digits run ∉ l₁) → (l₁.line ++ s).Within n →
      Rule.number.search [] (Line.text (l₁.line ++ s)) = Rule.number.search l₁.line.text.reverse s.text := by
    intro l₁ s hfits hfree hs
    rw [Rule.search_line_append .number hs fun a₁ m a₂ ha => ?_, List.append_nil]
    rw [Line.text_cons]
    refine Rule.hitAt_number_eq_none (fun c hm => Bool.eq_false_iff.2 fun hnumeric => ?_) _ _
    obtain ⟨run, hrun⟩ := numeric_of_char_mem hletters hfits (c := c) (by rw [ha, hm]; simp) hnumeric
    exact hfree run hrun
  by_cases hdigits : ∃ item ∈ l, ∃ run, item = .digits run
  · obtain ⟨l₁, item, l₂, rfl, ⟨run, rfl⟩, hfirst⟩ := exists_first hdigits
    obtain ⟨-, hbefore, hafter, hstroke⟩ := h.isPart_item (by simp) (by simp)
    refine .inr ⟨l₁, run, l₂, rfl, ?_⟩
    rw [line_append] at hwithin
    have hsearch := hpass l₁ _ (fun item hitem => hfits item (List.mem_append_left _ hitem)) (fun run hmem => hfirst _ hmem ⟨run, rfl⟩)
      hwithin
    rw [line_append, hsearch, line_cons, Line.text_append, Item.line, Line.text_ofText]
    refine Rule.search_of_hitAt (Rule.hitAt_number run.nonempty (fun c hc => Text.isNumeric_of_isDigit (run.digits c hc)) ?_ ?_)
    · rcases hafter with rfl | ⟨c, l, rfl, hc, hpoint⟩
      · simp
      · simp [Item.line, Mark.text, Text.isNumeric, hc, hpoint]
    · rcases hbefore with rfl | ⟨u, op, rfl⟩
      · rfl
      · have hop := hstroke u run
        simp only [Rule.numberAdmits, line_append, line_cons, line_nil, Item.line, List.append_nil, Line.text_append, Line.text_cons,
          Line.text_nil, Mark.text, List.reverse_append, List.reverse_singleton, List.singleton_append, List.head?_cons, Option.any_some]
        cases op with
        | divide => exact absurd rfl (hop rfl)
        | plus | minus | times => rfl
  · have hfree : ∀ run, .digits run ∉ l := fun run hmem => hdigits ⟨_, hmem, run, rfl⟩
    have hsearch := hpass l [] hfits hfree (by rwa [List.append_nil])
    rw [List.append_nil] at hsearch
    exact .inl ⟨hfree, hsearch.trans rfl⟩

end

end Phrase

/-! ## Powers -/

namespace Rule

/-- The base and the sign of a power are found where the base begins. -/
theorem takes_power {base t : Text} {k : Nat} (hbase : powerBase.Takes base ("^".toList ++ (Index.token k ++ t)) []) :
    power.pattern.Takes (base ++ "^".toList ++ Index.token k) t [("value", base), ("exponent", Index.token k)] :=
  ((hbase.named "value").sequence (.literal "^".toList (Index.token k ++ t))).sequence
    (((Pattern.Takes.token k t).left (.oneOf Char.isDigit)).named "exponent")

/-- A token that a line begins with ends before any of its characters. -/
theorem length_token_le {n : Nat} {w s : Line} {c : Char} (hs : Line.Within n (w ++ .char c :: s)) {t digits rest : Text}
    (hsplit : Token.split? (Line.text (w ++ .char c :: s) ++ t) = some (digits, rest)) :
    (Piece.token digits).text.length ≤ w.text.length := by
  have hat : ∀ d, .char d ∈ w ++ .char c :: s → d ≠ '@' := fun d hd heq => hs.plain (heq ▸ hd)
  cases w with
  | nil =>
    rw [List.nil_append, Line.text_cons, Mark.text, List.cons_append, List.cons_append, Token.split?_of_ne (hat c (by simp))] at hsplit
    cases hsplit
  | cons m w =>
    cases m with
    | char d =>
      rw [List.cons_append, Line.text_cons, Mark.text, List.cons_append, List.cons_append, Token.split?_of_ne (hat d (by simp))] at hsplit
      cases hsplit
    | ref k =>
      rw [List.cons_append, Line.text_cons, Mark.text, List.append_assoc, Token.split?_token, Option.some.injEq, Prod.mk.injEq] at hsplit
      obtain ⟨rfl, -⟩ := hsplit
      simp [Mark.text, Piece.text, Index.token_eq]

/-- No base of a power holds an operator and something behind it. -/
theorem taken_ne_of_mem_hits_powerBase {n : Nat} {w s : Line} {op : Operator} (hs : Line.Within n (w ++ .char op.char :: s)) (hne : s ≠ [])
    {t : Text} {base : Hit} (hbase : base ∈ powerBase.hits (Line.text (w ++ .char op.char :: s) ++ t)) (z : Text) :
    base.taken ≠ Line.text (w ++ .char op.char :: s) ++ z := by
  intro hz
  obtain ⟨hslash, -, -, hnumeric, halpha, -⟩ := op.char_facts
  have hown : op.char ∈ base.taken := by simp [hz, Mark.text]
  have hlength : w.text.length + 2 ≤ base.taken.length := by
    have := List.length_pos_of_ne_nil (Line.text_ne_nil hne)
    simp only [hz, Line.text_append, Line.text_cons, Mark.text, List.length_append, List.length_singleton]
    omega
  rcases mem_hits_powerBase hbase with hbase | hbase | hbase | hbase
  · obtain ⟨digits, hsplit, htaken, -⟩ := Pattern.split?_of_mem_hits_token hbase
    have hshort := length_token_le hs hsplit
    rw [← htaken] at hshort
    omega
  · have hwordy : (Pattern.anyWord ["pi", "Phi", "Omega"]).Wordy := .anyWord (by simp)
    obtain ⟨word, hword, hletters⟩ := hwordy.exists_word hbase
    rw [hword] at hown
    rcases List.mem_cons.1 hown with h | h
    · exact hslash h
    · rw [hletters _ h] at halpha
      cases halpha
  · obtain ⟨htaken, -⟩ := Pattern.mem_hits_run hbase
    have h : Text.isNumeric op.char = true := List.all_eq_true.1 List.all_takeWhile _ (htaken ▸ hown)
    rw [h] at hnumeric
    cases hnumeric
  · obtain ⟨c, -, htaken, -⟩ := Pattern.mem_hits_oneOf hbase
    rw [htaken, List.length_singleton] at hlength
    omega

/-- There is no power at the beginning of a text whose first caret stands behind an operator and something more. -/
theorem hits_power_eq_nil {n : Nat} {w s : Line} {op : Operator} (hs : Line.Within n (w ++ .char op.char :: s)) (hne : s ≠ [])
    (hfree : .char '^' ∉ w ++ .char op.char :: s) (t : Text) :
    power.pattern.hits (Line.text (w ++ .char op.char :: s) ++ '^' :: t) = [] := by
  have hcaret : '^' ∉ Line.text (w ++ .char op.char :: s) := Line.not_mem_text (by decide) (by decide) (by decide) hfree
  rw [hits_power, List.flatMap_eq_nil_iff]
  intro base hbase
  rw [List.map_eq_nil_iff, List.eq_nil_iff_forall_not_mem]
  intro tail htail
  obtain ⟨sign, hsign, _, -, -⟩ := Pattern.mem_hits_sequence htail
  have hrest : base.rest = '^' :: sign.rest := (Pattern.mem_hits_literal hsign).1
  -- the base reaches up to the sign, so it holds the operator
  have htext := (isAligned_powerBase.hit hbase).1
  rw [hrest] at htext
  rcases List.append_eq_append_iff.1 htext with ⟨z, hz, -⟩ | ⟨z, hz, hz'⟩
  · exact taken_ne_of_mem_hits_powerBase hs hne hbase z hz
  · cases z with
    | nil => exact taken_ne_of_mem_hits_powerBase hs hne hbase [] (by rw [hz, List.append_nil, List.append_nil])
    | cons c z =>
      obtain ⟨rfl, -⟩ := List.cons.inj hz'
      exact absurd (hz ▸ by simp) hcaret

/-- The base of a power. -/
theorem takes_powerBase {letters : List Char} (hletters : ∀ c ∈ letters, c.isLower = true) {item : Item} (hfits : item.Fits letters)
    (hsign : ∀ c, item ≠ .sign c) (hcall : ∀ c, item ≠ .call c) (t : Text) : powerBase.Takes item.line.text ('^' :: t) [] := by
  cases item with
  | digits run =>
    rw [Item.line, Line.text_ofText, Pattern.Takes, Pattern.first?,
      hits_powerBase run.nonempty (fun c hc => Text.isNumeric_of_isDigit (run.digits c hc)) (by simp [Text.isNumeric])]
    rfl
  | letter c =>
    have halpha : c.isAlpha = true := by simp [Char.isAlpha, hletters c hfits]
    exact congrArg List.head? (hits_powerBase_letter halpha ('^' :: t))
  | ref k =>
    have hsplit := Token.split?_token k ('^' :: t)
    have htext : Line.text (Item.line (.ref k)) = Index.token k := by simp [Item.line, Mark.text]
    rw [htext, Pattern.Takes, Pattern.first?]
    rw [Index.token_eq, List.cons_append] at hsplit ⊢
    rw [hits_powerBase_at, Pattern.hits_token_of_split? hsplit]
    rfl
  | call c => exact absurd rfl (hcall c)
  | sign c => exact absurd rfl (hsign c)

end Rule

namespace Phrase

section
variable {letters : List Char} {M : Nat → Expression → Prop} {l : Phrase} {d : Expression}
  (hletters : ∀ c ∈ letters, c.isLower = true)
include hletters

/-- Only a sign is written with a caret. -/
theorem caret_mem (hfits : ∀ item ∈ l, item.Fits letters) (hc : .char '^' ∈ l.line) : .sign '^' ∈ l := by
  obtain ⟨item, hitem, hc⟩ := List.mem_flatMap.1 hc
  cases item with
  | sign c =>
    simp only [Item.line, List.mem_singleton, Mark.char.injEq] at hc
    exact hc ▸ hitem
  | call c => exact absurd (Call.char_mem_line hc) (by decide)
  | digits run =>
    simp only [Item.line, Line.ofText, List.mem_map, Mark.char.injEq, exists_eq_right] at hc
    exact absurd hc (run.not_mem (by decide))
  | letter c =>
    simp only [Item.line, List.mem_singleton, Mark.char.injEq] at hc
    exact absurd (hletters _ (hc ▸ hfits _ hitem)) (by decide)
  | ref k => simp [Item.line] at hc

omit hletters in
/-- The rule of powers passes what stands before an operand. -/
theorem IsBefore.search_power {u : Phrase} (hu : IsBefore u) {n : Nat} {b s : Line} (hs : (u.line ++ (b ++ .char '^' :: s)).Within n)
    (hb : b ≠ []) (hfree : .char '^' ∉ u.line ++ b) :
    Rule.power.search [] (u.line ++ (b ++ .char '^' :: s)).text =
      Rule.power.search u.line.text.reverse (b ++ .char '^' :: s).text := by
  rw [Rule.search_line_append .power hs fun a m a' ha => ?_, List.append_nil]
  rcases hu with rfl | ⟨u, op, rfl⟩
  · simp at ha
  obtain ⟨w, x, hw⟩ := (List.eq_nil_or_concat (m :: a')).resolve_left (by simp)
  rw [List.concat_eq_append] at hw
  have hline : line u ++ [Mark.char op.char] = (a ++ w) ++ [x] := by
    rw [List.append_assoc, ← hw, ← ha]
    simp [Item.line]
  obtain ⟨hwu, hx⟩ := List.append_inj' hline rfl
  obtain rfl := List.singleton_inj.1 hx
  have htext : Line.text (m :: (a' ++ (b ++ .char '^' :: s))) = Line.text (w ++ .char op.char :: b) ++ '^' :: s.text := by
    rw [← List.cons_append, hw]
    simp [Mark.text]
  have hsub : w ++ .char op.char :: b ⊆ line (u ++ [.sign op.char]) ++ b := by
    rw [line_append, hwu]
    intro y hy
    simp only [Item.line, line_cons, line_nil, List.mem_append, List.mem_cons, List.append_nil, List.not_mem_nil] at hy ⊢
    tauto
  have hwithin : Line.Within n (w ++ .char op.char :: b) := hs.subset fun y hy => by
    have := hsub hy
    simp only [List.mem_append] at this ⊢
    tauto
  rw [htext]
  exact Rule.hitAt_of_hits (Rule.hits_power_eq_nil hwithin hb (fun hmem => hfree (hsub hmem)) _) _

/-- The rule of powers finds the leftmost power when no commands are left beside it. -/
theorem Sentence.search_power_cases (h : Sentence letters M l d) {n : Nat} (hwithin : l.line.Within n)
    (hcalls : .sign '^' ∈ l → ∀ c, .call c ∉ l) :
    .sign '^' ∉ l ∧ Rule.power.search [] l.line.text = none ∨
      ∃ (u : Phrase) (item : Item) (k : Nat) (v : Phrase), l = u ++ ([item, .sign '^', .ref k] ++ v) ∧
        (∀ c, item ≠ .sign c) ∧ IsPart letters M u [item, .sign '^', .ref k] v d ∧ Rule.power.search [] l.line.text = some ((line u).text.reverse,
          ⟨(line [item, .sign '^', .ref k]).text, (line v).text, [("value", item.line.text), ("exponent", Index.token k)]⟩) := by
  have hfits := h.fits
  by_cases hcaret : ∃ item ∈ l, item = .sign '^'
  · obtain ⟨l₁, item, l₂, rfl, rfl, hfirst⟩ := exists_first hcaret
    have hcalls := hcalls (by simp)
    obtain ⟨u, item, k, v, rfl, rfl, hpart, hbefore, a, ha⟩ := h.isPart_power
    have hl : u ++ [item] ++ .sign '^' :: .ref k :: v = u ++ ([item, .sign '^', .ref k] ++ v) := by simp
    rw [hl] at hwithin hfits hcalls ⊢
    refine .inr ⟨u, item, k, v, rfl, ha.ne_sign, hpart, ?_⟩
    have hfree : .char '^' ∉ u.line ++ item.line := by
      have hline : u.line ++ item.line = line (u ++ [item]) := by simp
      rw [hline]
      exact fun hmem => hfirst _ (caret_mem hletters (fun x hx => hfits x (by simp at hx ⊢; tauto)) hmem) rfl
    have hline : line ([item, .sign '^', .ref k] ++ v) = item.line ++ .char '^' :: (.ref k :: line v) := rfl
    rw [line_append, hline] at hwithin
    have hpass := hbefore.search_power hwithin item.line_ne_nil hfree
    rw [← hline] at hpass
    have hadmits : Rule.powerAdmits u.line.text.reverse (line ([item, .sign '^', .ref k] ++ v)).text = true := by
      rcases hbefore with rfl | ⟨u', op, rfl⟩
      · simp [Rule.powerAdmits, Command.isInside]
      · obtain ⟨hslash, -, -, -, halpha, hunderscore⟩ := op.char_facts
        simp [Rule.powerAdmits, Command.isInside, Item.line, Mark.text, halpha, hslash, hunderscore]
    have hitemCall : ∀ c, item ≠ .call c := fun c hc => hcalls c (by simp [hc])
    have hbase := Rule.takes_powerBase hletters ha.fits ha.ne_sign hitemCall (Index.token k ++ (line v).text)
    have htext : (line [item, .sign '^', .ref k]).text = item.line.text ++ "^".toList ++ Index.token k := by simp [Item.line, Mark.text]
    have htakes : Rule.power.pattern.Takes (line [item, .sign '^', .ref k]).text (line v).text
        [("value", item.line.text), ("exponent", Index.token k)] := htext ▸ Rule.takes_power hbase
    rw [line_append, Line.text_append] at hadmits
    rw [line_append, hpass, line_append, Line.text_append]
    refine Rule.search_of_hitAt ?_
    rw [Rule.hitAt, htakes]
    exact Option.filter_some_pos hadmits
  · have hfree : .sign '^' ∉ l := fun hmem => hcaret ⟨_, hmem, rfl⟩
    refine .inl ⟨hfree, Option.eq_none_iff_forall_ne_some.2 fun found hsearch => hfree (caret_mem hletters hfits ?_)⟩
    obtain ⟨before, hit⟩ := found
    obtain ⟨u, v, htext, -, hfirst, -⟩ := Rule.search_eq_some hsearch
    have hmem : '^' ∈ v := by
      have hhit := List.mem_of_mem_head? hfirst
      rw [(Rule.isAligned_standard _ (by simp [Rule.standard])).hit hhit |>.1]
      rw [Rule.hits_power, List.mem_flatMap] at hhit
      obtain ⟨base, -, hhit⟩ := hhit
      obtain ⟨k, hk, rfl⟩ := List.mem_map.1 hhit
      obtain ⟨sign, hsign, _, -, hkeq⟩ := Pattern.mem_hits_sequence hk
      rw [hkeq, (Pattern.mem_hits_literal hsign).2.1]
      simp
    by_contra hnone
    exact Line.not_mem_text (by decide) (by decide) (by decide) hnone (htext ▸ List.mem_append_right _ hmem)

end

end Phrase

/-! ## All rules -/

namespace Rule

theorem exists_locate {r : Rule} {id : Nat} {t before : Text} {h : Hit} (hsearch : r.search [] t = some (before.reverse, h))
    (ho : ∃ o, r.occurrence id before.reverse h = .ok o) :
    ∃ o : Occurrence, o.text = h.taken ∧ r.locate id t = .ok (some ⟨before, o, h.rest⟩) := by
  obtain ⟨o, ho⟩ := ho
  refine ⟨o, (occurrence_eq_ok ho).2.2.2.1, ?_⟩
  rw [locate, hsearch]
  simp only [ho, Except.map, List.reverse_reverse]

theorem locate_of_search_eq_none {r : Rule} {t : Text} (hsearch : r.search [] t = none) (id : Nat) : r.locate id t = .ok none := by
  rw [locate, hsearch]

/-- A run of digits is a number. -/
theorem exists_occurrence_number (run : DigitRun) (behind t : Text) : ∃ x, Decimal.read? run.text = some x ∧
    number.occurrence 6 behind ⟨run.text, t, [("value", run.text)]⟩ = .ok ⟨6, Text.byteSize behind,
      Text.byteSize behind + Text.byteSize run.text, run.text, none, [some (.literal x)]⟩ := by
  obtain ⟨x, hx⟩ := run.exists_read?
  have hliteral : Slot.literal? run.text = some x := by
    rw [Slot.literal?, if_pos ⟨run.nonempty, List.all_eq_true.2 fun c hc => by rw [run.digits c hc, Bool.true_or]⟩, hx]
  have hvalue : Slot.operand number.name [("value", run.text)] { name := "value", takesIndex := false } = .ok (some (.literal x)) := by
    simp only [Slot.operand, List.lookup_cons_self, Slot.read, hliteral]
    rfl
  refine ⟨x, hx, ?_⟩
  have hslots : number.slots = [{ name := "value", takesIndex := false }] := rfl
  rw [occurrence_eq, hslots]
  simp only [List.mapM_cons, List.mapM_nil, hvalue]
  rfl

end Rule

theorem NamedFunction.rule_lt (f : NamedFunction) : f.rule < 5 := by
  cases f <;> decide

theorem Call.rule_lt (c : Call) : c.rule < 5 := by
  cases c with
  | application f k => exact f.rule_lt
  | _ => simp [rule]

namespace Phrase

/-- The parts of sentences that the rule with a number takes out. -/
inductive IsTaken : Nat → Phrase → Prop where
  | call (c : Call) : IsTaken c.rule [.call c]
  | power {item : Item} (k : Nat) (h : ∀ c, item ≠ .sign c) : IsTaken 5 [item, .sign '^', .ref k]
  | digits (run : DigitRun) : IsTaken 6 [.digits run]

section
variable {letters : List Char} {M : Nat → Expression → Prop} {l : Phrase} {d : Expression} {e : Nat × Rule}

/-- The rules find nothing in a sentence or a part that they take out, and do not refuse it. -/
theorem Sentence.locate_cases (hletters : ∀ c ∈ letters, c.isLower = true) (h : Sentence letters M l d)
    (he : e ∈ RuleSet.standard.numbered) (hwithin : l.line.Within Index.bound)
    (hready : e.1 = 5 → .sign '^' ∈ l → ∀ c, .call c ∉ l) :
    e.2.locate e.1 l.line.text = .ok none ∧ (∀ l₁ part l₂, IsTaken e.1 part → l ≠ l₁ ++ (part ++ l₂)) ∨
      ∃ (l₁ part l₂ : Phrase) (o : Occurrence), l = l₁ ++ (part ++ l₂) ∧ IsTaken e.1 part ∧ IsPart letters M l₁ part l₂ d ∧
        o.text = part.line.text ∧ e.2.locate e.1 l.line.text = .ok (some ⟨l₁.line.text, o, l₂.line.text⟩) := by
  by_cases hcommand : e.1 < 5
  · rcases search_command_cases hletters he hcommand h.fits with ⟨hfree, hnone⟩ | ⟨l₁, c, l₂, rfl, hc, hsearch⟩
    · refine .inl ⟨Rule.locate_of_search_eq_none hnone e.1, fun l₁ part l₂ htaken hl => ?_⟩
      generalize hid : e.1 = id at htaken hcommand
      cases htaken with
      | call c => exact hfree c (by simp [hl]) hid.symm
      | power => exact absurd hcommand (by decide)
      | digits => exact absurd hcommand (by decide)
    · have hsmall : ∀ k, .ref k ∈ c.operands → k < Index.bound := fun k hk =>
        hwithin.refs k (by simp [Item.line, Call.line, hk])
      obtain ⟨o, hotext, hlocate⟩ := Rule.exists_locate hsearch ⟨_, c.occurrence_rule he hc hsmall _ _⟩
      exact .inr ⟨l₁, [.call c], l₂, o, rfl, hc ▸ .call c, (h.isPart_item (by simp) (by simp)).1, by simpa [Item.line] using hotext, hlocate⟩
  rcases RuleSet.mem_numbered_standard.1 he with rfl | rfl | rfl | rfl | rfl | rfl | rfl
  iterate 5 exact absurd (by decide) hcommand
  · rcases h.search_power_cases hletters hwithin (hready rfl) with ⟨hfree, hnone⟩ | ⟨u, item, k, v, rfl, hsign, hpart, hsearch⟩
    · refine .inl ⟨Rule.locate_of_search_eq_none hnone 5, fun l₁ part l₂ htaken hl => ?_⟩
      generalize hid : 5 = id at htaken
      cases htaken with
      | call c => exact absurd (Nat.le_of_eq hid) (Nat.not_le_of_lt (Nat.lt_of_lt_of_le c.rule_lt (by decide)))
      | power => exact hfree (by simp [hl])
      | digits => cases hid
    · have hk : k < Index.bound := hwithin.refs k (by simp [Item.line])
      obtain ⟨o, hotext, hlocate⟩ := Rule.exists_locate hsearch ((Rule.exists_occurrence_power rfl 5 _).2
        ⟨_, Slot.operand_token hk rfl rfl⟩)
      exact .inr ⟨u, _, v, o, rfl, .power k hsign, hpart, hotext, hlocate⟩
  · rcases h.search_number_cases hletters hwithin with ⟨hfree, hnone⟩ | ⟨l₁, run, l₂, rfl, hsearch⟩
    · refine .inl ⟨Rule.locate_of_search_eq_none hnone 6, fun l₁ part l₂ htaken hl => ?_⟩
      generalize hid : 6 = id at htaken
      cases htaken with
      | call c => exact absurd (Nat.le_of_eq hid) (Nat.not_le_of_lt (Nat.lt_of_lt_of_le c.rule_lt (by decide)))
      | power => cases hid
      | digits run => exact hfree run (by simp [hl])
    · obtain ⟨x, -, hoccurrence⟩ := Rule.exists_occurrence_number run l₁.line.text.reverse l₂.line.text
      obtain ⟨o, hotext, hlocate⟩ := Rule.exists_locate hsearch ⟨_, hoccurrence⟩
      exact .inr ⟨l₁, [.digits run], l₂, o, rfl, .digits run, (h.isPart_item (by simp) (by simp)).1, by simpa [Item.line] using hotext, hlocate⟩

end

end Phrase

end FormulaDag
