import FormulaDag.Proofs.Expression.Meaning
import FormulaDag.Proofs.Pool.Grouping

/-!
# The groups of an expression

Taking groups apart turns a text into a line by replacing every group with the token of its inner line. `Turns` describes such a step in
any surroundings, so steps are put together as texts are. The braces of an expression are taken apart from left to right, and the line that
is left is a phrase that stands for the expression.
-/

namespace FormulaDag

namespace Pool

namespace Growth

/-- A line with characters of its own that stands in no parentheses becomes the token of its index. -/
theorem tokenFor_eq (g : Growth) {n : Nat} {s : Line} (hs : s.Within n) (hpos : 0 < s.charCount) (hunwrap : Text.unwrap s.text = s.text) :
    (g.tokenFor s.text).1.pool = (g.pool.intern s.text).pool ∧ (g.tokenFor s.text).2 = Index.token (g.pool.intern s.text).index := by
  have hnone : (Token.only? s.text).isSome = false := by
    rw [Option.isSome_eq_false_iff, Option.isNone_iff_eq_none]
    by_contra hsome
    obtain ⟨k, hk⟩ := Option.ne_none_iff_exists'.1 hsome
    obtain ⟨digits, hpieces, -⟩ := Token.pieces_of_only? hk
    rw [← hs.plainCount_eq, Token.plainCount, hpieces] at hpos
    simp at hpos
  rw [tokenFor, hunwrap, hnone, if_neg (by simp)]
  rcases intern_cases g.pool s.text with ⟨k, -, heq⟩ | ⟨-, heq⟩ <;> rw [heq] <;> exact ⟨rfl, rfl⟩

/-- Taking the groups of a text apart turns it into a line, whatever stands around it. `n` is the number of characters in the text that
are outside of tokens. -/
structure Turns (R : Reading) (opener closer : Char) (g : Growth) (t : Text) (n : Nat) (g' : Growth) (s : Line) : Prop where
  text : ∀ here around rest, replaceGroups opener closer g here around (t ++ rest) =
    replaceGroups opener closer g' (s.text.reverse ++ here) around rest
  later : Later R g.pool g'.pool
  extent : g'.pool.extent + s.charCount ≤ g.pool.extent + n

section
variable {R : Reading} {opener closer : Char} {g g' g'' : Growth} {t t' : Text} {n n' : Nat} {s s' : Line}

/-- Two texts in a row are turned one after the other. -/
theorem Turns.append (h : Turns R opener closer g t n g' s) (h' : Turns R opener closer g' t' n' g'' s') :
    Turns R opener closer g (t ++ t') (n + n') g'' (s ++ s') where
  text here around rest := by
    rw [List.append_assoc, h.text, h'.text, Line.text_append, List.reverse_append, List.append_assoc]
  later := h.later.trans h'.later
  extent := by
    have := h.extent
    have := h'.extent
    rw [Line.charCount_append]
    omega

/-- Taking a whole text apart. -/
theorem Turns.eq (h : Turns R opener closer g t n g' s) : replaceGroups opener closer g [] [] t = (g', s.text) := by
  have htext := h.text [] [] []
  rw [List.append_nil, List.append_nil] at htext
  rw [htext]
  simp [replaceGroups]

/-- Two texts in a row are turned with as many cells as characters at most. -/
theorem Turns.appendText (h : Turns R opener closer g t t.length g' s) (h' : Turns R opener closer g' t' t'.length g'' s') :
    Turns R opener closer g (t ++ t') (t ++ t').length g'' (s ++ s') :=
  List.length_append ▸ h.append h'

/-- A turn may be counted with more cells. -/
theorem Turns.mono (h : Turns R opener closer g t n g' s) (hn : n ≤ n') : Turns R opener closer g t n' g' s :=
  ⟨h.text, h.later, h.extent.trans (Nat.add_le_add_left hn _)⟩

/-- A line without groups of the kind stays as it is. -/
theorem Turns.plain (hpair : Source.openerOf? closer = some opener) (hg : g.pool.Sound) (hopener : .char opener ∉ s)
    (hcloser : .char closer ∉ s) : Turns R opener closer g s.text s.charCount g s where
  text here around rest := by
    obtain ⟨-, hdigit, hat, hslash⟩ := delimiter_facts hpair (c := opener) (by simp)
    obtain ⟨-, hdigit', hat', hslash'⟩ := delimiter_facts hpair (c := closer) (by simp)
    exact replaceGroups_plain (Line.not_mem_text hdigit hat hslash hopener) (Line.not_mem_text hdigit' hat' hslash' hcloser) g here
      around rest
  later := .refl hg
  extent := Nat.le_refl _

/-- A group becomes the token of an index that stands for what the group says. -/
theorem Turns.group (hR : R.Monotone) (hpair : Source.openerOf? closer = some opener) (h : Turns R opener closer g t n g' s)
    (hs : s.Within g'.pool.cells.length) (hpos : 0 < s.charCount) (hunwrap : Text.unwrap s.text = s.text) {e : Expression}
    (hsaid : g'.pool.Says R s e) :
    ∃ g'' k, Turns R opener closer g (opener :: t ++ [closer]) n g'' [.ref k] ∧ g''.pool.Means R k e := by
  have hne : s ≠ [] := by
    rintro rfl
    simp at hpos
  obtain ⟨hpool, htoken⟩ := g'.tokenFor_eq hs hpos hunwrap
  have hholding := h.later.sound.holding hs hne
  rw [← hpool] at hholding
  refine ⟨(g'.tokenFor s.text).1, (g'.pool.intern s.text).index, ⟨fun here around rest => ?_, ?_, ?_⟩, hholding.means_index hR hsaid⟩
  · rw [List.append_assoc, List.cons_append, replaceGroups_opener, h.text, List.singleton_append,
      replaceGroups_closer (Source.opener_ne_closer hpair hpair).symm, List.append_nil, List.reverse_reverse, htoken]
    simp [Mark.text]
  · exact h.later.trans (hholding.later hR hsaid)
  · have hextent := extent_intern_le h.later.sound hs hpos
    have := h.extent
    rw [hpool, Line.charCount_ref, Line.charCount_nil]
    omega

end

end Growth

end Pool

namespace Expression

open Pool Phrase

/-- The place of the grammar that an expression fits as it is written. -/
def category (stroke : Bool) : Expression → Category
  | digits _ => if stroke then .base else .atom
  | negation _ | operation .. => .whole
  | power .. => .power
  | _ => .atom

section
variable {letters : List Char} {M : Nat → Expression → Prop} {l : Phrase} {e a : Expression} {stroke : Bool}

omit M in
/-- A base is an operand. -/
theorem isOperand_of_isBase (h : e.isBase = true) : e.isOperand = true := by
  cases e with
  | negation | operation | power => cases h
  | _ => rfl

/-- What is read as any category is read as a whole. -/
theorem reads_whole (h : Reads letters M (e.category false) l e) : Reads letters M .whole l e := by
  cases e with
  | negation | operation => exact h
  | power => exact .wholeOfPower h
  | _ => exact .wholeOfAtom h

/-- A base is read as a base. -/
theorem reads_base (he : e.isBase = true) (h : Reads letters M (e.category stroke) l e) : Reads letters M .base l e := by
  cases e with
  | negation | operation | power => cases he
  | digits run =>
    cases stroke with
    | false => exact .baseOfAtom h
    | true => exact h
  | _ => exact .baseOfAtom h

/-- An operand is read as an operand. -/
theorem reads_operand (he : e.isOperand = true) (h : Reads letters M (e.category stroke) l e) : Reads letters M .operand l e := by
  cases e with
  | negation | operation => cases he
  | power => exact .operandOfPower h
  | digits run => exact .operandOfBase (reads_base rfl h)
  | _ => exact .operandOfBase (.baseOfAtom h)

/-- The braces of an expression can be taken apart wherever it is written. -/
def Splits (letters : List Char) (e : Expression) : Prop :=
  ∀ (stroke : Bool) (g : Growth), g.pool.Sound → ∃ (g' : Growth) (l : Phrase),
    g.Turns (.whole letters) '{' '}' (e.writeAfter stroke) (e.writeAfter stroke).length g' l.line ∧
      Reads letters (g'.pool.Means (.whole letters)) (e.category stroke) l e ∧
      (stroke = true → e.isOperand = true → ∀ run rest, l ≠ .digits run :: rest)

section
variable (hletters : ∀ c ∈ letters, c.isLower = true)
include hletters

omit hletters in
variable (letters) in
/-- A text without braces is turned to itself. -/
theorem turns_plain {g : Growth} (hg : g.pool.Sound) {t : Text} (hopen : '{' ∉ t) (hclose : '}' ∉ t) :
    g.Turns (.whole letters) '{' '}' t t.length g (Line.ofText t) := by
  have h : g.Turns (.whole letters) '{' '}' (Line.ofText t).text (Line.ofText t).charCount g (Line.ofText t) :=
    .plain rfl hg (by simpa [Line.ofText] using hopen) (by simpa [Line.ofText] using hclose)
  rwa [Line.text_ofText, Line.charCount_ofText] at h

/-- An expression in braces becomes the token of an index that means it. -/
theorem Splits.exists_braced (ha : a.Splits letters) {g : Growth} (hg : g.pool.Sound) :
    ∃ (g' : Growth) (k : Nat), g.Turns (.whole letters) '{' '}' (braced (a.writeAfter false)) (braced (a.writeAfter false)).length g'
      [.ref k] ∧ g'.pool.Means (.whole letters) k a := by
  obtain ⟨g', l, hturns, hreads, -⟩ := ha false g hg
  have hwhole := reads_whole hreads
  have hwithin := hwhole.within hletters fun _ _ hk => hk.lt (Reading.monotone_whole letters)
  obtain ⟨g'', k, hturns', hmeans⟩ := hturns.group (Reading.monotone_whole letters) rfl hwithin hwhole.charCount_pos
    (hwhole.unwrap hletters) ⟨l, rfl, hwhole⟩
  refine ⟨g'', k, hturns'.mono ?_, hmeans⟩
  rw [braced, List.length_append, List.length_cons]
  omega

omit hletters in
/-- An expression in parentheses is turned to a base that means it. -/
theorem Splits.exists_parenthesized (ha : a.Splits letters) {g : Growth} (hg : g.pool.Sound) :
    ∃ (g' : Growth) (l : Phrase), g.Turns (.whole letters) '{' '}' (parenthesized (a.writeAfter false))
      (parenthesized (a.writeAfter false)).length g' l.line ∧ Reads letters (g'.pool.Means (.whole letters)) .base l a ∧
        ∀ run rest, l ≠ .digits run :: rest := by
  obtain ⟨g', l, hturns, hreads, -⟩ := ha false g hg
  have hopen := turns_plain letters hg (t := ['(']) (by simp) (by simp)
  have hclose := turns_plain letters hturns.later.sound (t := [')']) (by simp) (by simp)
  refine ⟨g', .sign '(' :: l ++ [.sign ')'], ?_, .parentheses (reads_whole hreads), fun _ _ heq => by cases heq⟩
  have h := (hopen.appendText hturns).appendText hclose
  have hline : line (.sign '(' :: l ++ [.sign ')']) = Line.ofText ['('] ++ l.line ++ Line.ofText [')'] := by
    simp [Item.line, Line.ofText]
  rwa [hline]

omit hletters in
/-- What passes a test is written bare, and anything else in parentheses. The test asks for operands that belong to a category as they are
written; parentheses belong to it as well. -/
theorem Splits.exists_written (ha : a.Splits letters) (stroke : Bool) {bare : Bool} {category : Category}
    (hbare : bare = true → a.isOperand = true ∧ ∀ {M l}, Reads letters M (a.category stroke) l a → Reads letters M category l a)
    (hbase : ∀ {M l}, Reads letters M .base l a → Reads letters M category l a) {g : Growth} (hg : g.pool.Sound) :
    ∃ (g' : Growth) (l : Phrase),
      g.Turns (.whole letters) '{' '}' (if bare then a.writeAfter stroke else parenthesized (a.writeAfter false))
        (if bare then a.writeAfter stroke else parenthesized (a.writeAfter false)).length g' l.line ∧
      Reads letters (g'.pool.Means (.whole letters)) category l a ∧ (stroke = true → ∀ run rest, l ≠ .digits run :: rest) := by
  cases bare with
  | true =>
    obtain ⟨hoperand, hreading⟩ := hbare rfl
    obtain ⟨g', l, hturns, hreads, hdigits⟩ := ha stroke g hg
    exact ⟨g', l, hturns, hreading hreads, fun hs => hdigits hs hoperand⟩
  | false =>
    obtain ⟨g', l, hturns, hreads, hdigits⟩ := ha.exists_parenthesized hg
    exact ⟨g', l, hturns, hbase hreads, fun _ => hdigits⟩

omit hletters in
/-- A command has no braces. -/
theorem brace_not_mem_command {w : String} (hw : ∀ c ∈ w.toList, c.isAlpha = true) : '{' ∉ command w ∧ '}' ∉ command w := by
  constructor <;>
  · intro hmem
    rcases List.mem_cons.1 hmem with hc | hc
    · exact absurd hc (by decide)
    · exact absurd (hw _ hc) (by decide)

/-- A command with one operand in braces. -/
theorem Splits.exists_call {c : Nat → Call} {w : String} (hw : ∀ c ∈ w.toList, c.isAlpha = true) (ha : a.Splits letters)
    (hc : ∀ M k, M k a → (c k).Reads M e) (hline : ∀ k, (c k).line = Line.ofText (command w) ++ [.ref k]) {g : Growth}
    (hg : g.pool.Sound) :
    ∃ (g' : Growth) (l : Phrase), g.Turns (.whole letters) '{' '}' (command w ++ braced (a.writeAfter false))
      (command w ++ braced (a.writeAfter false)).length g' l.line ∧ Reads letters (g'.pool.Means (.whole letters)) .atom l e ∧
        ∀ run rest, l ≠ .digits run :: rest := by
  obtain ⟨hopen, hclose⟩ := brace_not_mem_command hw
  obtain ⟨g', k, hturns, hmeans⟩ := ha.exists_braced hletters hg
  refine ⟨g', [.call (c k)], ?_, .call (hc _ _ hmeans), fun _ _ heq => by cases heq⟩
  rw [line_cons, line_nil, List.append_nil, Item.line, hline]
  exact (turns_plain letters hg hopen hclose).appendText hturns

/-- A command with two operands in braces and signs before each of them. -/
theorem Splits.exists_call₂ {c : Nat → Nat → Call} {w : String} {t u : Text} {b : Expression} (hw : ∀ c ∈ w.toList, c.isAlpha = true)
    (ht : '{' ∉ t ∧ '}' ∉ t) (hu : '{' ∉ u ∧ '}' ∉ u) (ha : a.Splits letters) (hb : b.Splits letters)
    (hc : ∀ M k l, M k a → M l b → (c k l).Reads M e)
    (hline : ∀ k l, (c k l).line = Line.ofText (command w) ++ ((Line.ofText t ++ [.ref k]) ++ (Line.ofText u ++ [.ref l]))) {g : Growth}
    (hg : g.pool.Sound) :
    ∃ (g' : Growth) (l : Phrase),
      g.Turns (.whole letters) '{' '}' (command w ++ (t ++ braced (a.writeAfter false)) ++ (u ++ braced (b.writeAfter false)))
        (command w ++ (t ++ braced (a.writeAfter false)) ++ (u ++ braced (b.writeAfter false))).length g' l.line ∧
      Reads letters (g'.pool.Means (.whole letters)) .atom l e ∧ ∀ run rest, l ≠ .digits run :: rest := by
  obtain ⟨hopen, hclose⟩ := brace_not_mem_command hw
  obtain ⟨g', k, hturns, hmeans⟩ := ha.exists_braced hletters hg
  obtain ⟨g'', k', hturns', hmeans'⟩ := hb.exists_braced hletters hturns.later.sound
  refine ⟨g'', [.call (c k k')], ?_, .call (hc _ _ _ (hturns'.later.means _ _ hmeans) hmeans'), fun _ _ heq => by cases heq⟩
  rw [line_cons, line_nil, List.append_nil, Item.line, hline, ← List.append_assoc (Line.ofText (command w))]
  exact ((turns_plain letters hg hopen hclose).appendText ((turns_plain letters hg ht.1 ht.2).appendText hturns)).appendText
    ((turns_plain letters hturns.later.sound hu.1 hu.2).appendText hturns')

/-- Every expression is taken apart into a phrase that stands for it. -/
theorem splits (e : Expression) (he : ∀ c ∈ e.letters, c ∈ letters ∧ c ≠ 'e') : e.Splits letters := by
  induction e with
  | digits run =>
    have hbraces : '{' ∉ run.text ∧ '}' ∉ run.text := ⟨run.not_mem (by decide), run.not_mem (by decide)⟩
    intro stroke g hg
    cases stroke with
    | false =>
      refine ⟨g, [.digits run], ?_, .digits run, by simp⟩
      rw [line_cons, line_nil, List.append_nil]
      exact turns_plain letters hg hbraces.1 hbraces.2
    | true =>
      refine ⟨g, .sign '(' :: [.digits run] ++ [.sign ')'], ?_, .parentheses (.wholeOfAtom (.digits run)), by simp⟩
      have h := turns_plain letters hg (t := Expression.parenthesized run.text)
        (by simpa [Expression.parenthesized] using hbraces.1) (by simpa [Expression.parenthesized] using hbraces.2)
      have hline : line (.sign '(' :: [.digits run] ++ [.sign ')']) = Line.ofText (Expression.parenthesized run.text) := by
        simp [Item.line, Line.ofText, Expression.parenthesized]
      rwa [hline]
  | letter c =>
    intro stroke g hg
    obtain ⟨hc, hne⟩ := he c (by simp [Expression.letters])
    have hbraces : '{' ∉ [c] ∧ '}' ∉ [c] := by
      constructor <;>
      · rw [List.mem_singleton]
        rintro rfl
        exact absurd (hletters _ hc) (by decide)
    exact ⟨g, [.letter c], turns_plain letters hg hbraces.1 hbraces.2, .letter hc hne, by simp⟩
  | negation a iha =>
    intro stroke g hg
    obtain ⟨g', l, hturns, hreads, -⟩ := (iha he).exists_written false (fun h => ⟨h, reads_operand h⟩) .operandOfBase hg
    exact ⟨g', .sign '-' :: l, (turns_plain letters hg (t := ['-']) (by simp) (by simp)).appendText hturns, .negation hreads,
      fun _ hop => by cases hop⟩
  | operation op a b iha ihb =>
    intro stroke g hg
    obtain ⟨hea, heb⟩ := List.forall_mem_append.1 he
    obtain ⟨g', l, hturns, hreads, -⟩ := (iha hea).exists_written false (fun h => ⟨h, reads_operand h⟩) .operandOfBase hg
    obtain ⟨g'', l', hturns', hreads', hdigits⟩ := (ihb heb).exists_written (op == .divide) (fun h => ⟨h, reads_operand h⟩) .operandOfBase
      hturns.later.sound
    have hsign := turns_plain letters hturns.later.sound (t := [op.char]) (by cases op <;> decide) (by cases op <;> decide)
    refine ⟨g'', l ++ .sign op.char :: l', ?_, .operation op (hreads.mono hturns'.later.means) hreads' fun hop => hdigits (by simp [hop]),
      fun _ hop => by cases hop⟩
    rw [line_append, line_cons, Expression.writeAfter]
    exact hturns.appendText (hsign.appendText hturns')
  | fraction a b iha ihb =>
    intro stroke g hg
    obtain ⟨hea, heb⟩ := List.forall_mem_append.1 he
    obtain ⟨g', l, hturns, hreads, hdigits⟩ := Splits.exists_call₂ hletters (w := "frac") (t := []) (u := []) (c := .fraction)
      (e := .fraction a b) (by simp) (by simp) (by simp) (iha hea) (ihb heb) (fun _ _ _ ha hb => .fraction ha hb) (fun _ _ => rfl) hg
    exact ⟨g', l, hturns, hreads, fun _ _ => hdigits⟩
  | squareRoot a iha =>
    intro stroke g hg
    obtain ⟨g', l, hturns, hreads, hdigits⟩ := Splits.exists_call hletters (w := "sqrt") (c := .squareRoot) (e := .squareRoot a) (by simp)
      (iha he) (fun _ _ ha => .squareRoot ha) (fun _ => rfl) hg
    exact ⟨g', l, hturns, hreads, fun _ _ => hdigits⟩
  | root degree a ihd iha =>
    intro stroke g hg
    obtain ⟨hed, hea⟩ := List.forall_mem_append.1 he
    obtain ⟨g', l, hturns, hreads, hdigits⟩ := Splits.exists_call₂ hletters (w := "sqrt") (t := ['[']) (u := [']']) (c := .root)
      (e := .root degree a) (by simp) (by simp) (by simp) (ihd hed) (iha hea) (fun _ _ _ ha hb => .root ha hb) (fun _ _ => rfl) hg
    exact ⟨g', l, hturns, hreads, fun _ _ => hdigits⟩
  | logarithm base a ihb iha =>
    intro stroke g hg
    obtain ⟨heb, hea⟩ := List.forall_mem_append.1 he
    obtain ⟨g', l, hturns, hreads, hdigits⟩ := Splits.exists_call₂ hletters (w := "log") (t := ['_']) (u := []) (c := .logarithm)
      (e := .logarithm base a) (by simp) (by simp) (by simp) (ihb heb) (iha hea) (fun _ _ _ ha hb => .logarithm ha hb) (fun _ _ => rfl) hg
    exact ⟨g', l, hturns, hreads, fun _ _ => hdigits⟩
  | application f a iha =>
    intro stroke g hg
    obtain ⟨g', l, hturns, hreads, hdigits⟩ := Splits.exists_call hletters (w := f.word) (c := .application f) (e := .application f a)
      f.isAlpha_of_mem_word (iha he) (fun _ _ ha => .application f ha) (fun _ => rfl) hg
    exact ⟨g', l, hturns, hreads, fun _ _ => hdigits⟩
  | power base exponent ihb ihe =>
    intro stroke g hg
    obtain ⟨heb, hee⟩ := List.forall_mem_append.1 he
    obtain ⟨g', l, hturns, hreads, hdigits⟩ := (ihb heb).exists_written stroke (fun h => ⟨isOperand_of_isBase h, reads_base h⟩) id hg
    have hsign := turns_plain letters hturns.later.sound (t := ['^']) (by simp) (by simp)
    obtain ⟨g'', k, hturns', hmeans⟩ := (ihe hee).exists_braced hletters hturns.later.sound
    refine ⟨g'', l ++ [Item.sign '^', Item.ref k], ?_, .power (hreads.mono hturns'.later.means) hmeans,
      fun hs _ => append_ne_digits hreads.ne_nil (hdigits hs)⟩
    rw [line_append, Expression.writeAfter]
    exact hturns.appendText (hsign.appendText hturns')

end

end

end Expression

end FormulaDag
