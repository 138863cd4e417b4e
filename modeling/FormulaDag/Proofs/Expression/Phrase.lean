import FormulaDag.Proofs.Expression.Basic
import FormulaDag.Proofs.Pool.Slack
import FormulaDag.Proofs.Source.Nesting

/-!
# Phrases

While the source text of an expression is taken apart, the lines of the pool keep a simple form: they are phrases of digits, letters,
commands applied to indices, indices and signs. `Reads` says which expressions a phrase stands for when the indices stand for
expressions. A phrase that is an atom, a base or an operand may stand where the grammar asks for one.
-/

namespace FormulaDag

/-- A command with the indices that it is applied to. -/
inductive Call where
  | fraction (k l : Nat)
  | squareRoot (k : Nat)
  | root (k l : Nat)
  | logarithm (k l : Nat)
  | application (f : NamedFunction) (k : Nat)
deriving DecidableEq

namespace Call

/-- The command word. -/
def word : Call → String
  | fraction .. => "frac"
  | squareRoot _ | root .. => "sqrt"
  | logarithm .. => "log"
  | application f _ => f.word

/-- What stands behind the command word. -/
def operands : Call → Line
  | fraction k l => [.ref k, .ref l]
  | squareRoot k | application _ k => [.ref k]
  | root k l => [.char '[', .ref k, .char ']', .ref l]
  | logarithm k l => [.char '_', .ref k, .ref l]

/-- A call as it is written. -/
def line (c : Call) : Line := .char '\\' :: (Line.ofText c.word.toList ++ c.operands)

/-- A call with its indices replaced. -/
def relabel (f : Nat → Nat) : Call → Call
  | fraction k l => fraction (f k) (f l)
  | squareRoot k => squareRoot (f k)
  | root k l => root (f k) (f l)
  | logarithm k l => logarithm (f k) (f l)
  | application g k => application g (f k)

/-- What a call stands for when the indices stand for expressions. -/
inductive Reads (M : Nat → Expression → Prop) : Call → Expression → Prop where
  | fraction {k l : Nat} {a b : Expression} (ha : M k a) (hb : M l b) : Reads M (fraction k l) (.fraction a b)
  | squareRoot {k : Nat} {a : Expression} (ha : M k a) : Reads M (squareRoot k) (.squareRoot a)
  | root {k l : Nat} {a b : Expression} (ha : M k a) (hb : M l b) : Reads M (root k l) (.root a b)
  | logarithm {k l : Nat} {a b : Expression} (ha : M k a) (hb : M l b) : Reads M (logarithm k l) (.logarithm a b)
  | application (f : NamedFunction) {k : Nat} {a : Expression} (ha : M k a) : Reads M (application f k) (.application f a)

/-- A command that is read over some meanings of indices is read over more of them. -/
theorem Reads.mono {M M' : Nat → Expression → Prop} (hsub : ∀ k e, M k e → M' k e) {c : Call} {e : Expression} (h : c.Reads M e) :
    c.Reads M' e := by
  cases h with
  | fraction ha hb => exact .fraction (hsub _ _ ha) (hsub _ _ hb)
  | squareRoot ha => exact .squareRoot (hsub _ _ ha)
  | root ha hb => exact .root (hsub _ _ ha) (hsub _ _ hb)
  | logarithm ha hb => exact .logarithm (hsub _ _ ha) (hsub _ _ hb)
  | application f ha => exact .application f (hsub _ _ ha)

/-- Only the indices of a call matter for what it stands for. -/
theorem Reads.restrict {M : Nat → Expression → Prop} {S : Nat → Prop} {c : Call} {e : Expression} (hS : ∀ k, .ref k ∈ c.line → S k)
    (h : c.Reads M e) : c.Reads (fun k e => S k ∧ M k e) e := by
  cases h with
  | fraction ha hb => exact .fraction ⟨hS _ (by simp [line, operands]), ha⟩ ⟨hS _ (by simp [line, operands]), hb⟩
  | squareRoot ha => exact .squareRoot ⟨hS _ (by simp [line, operands]), ha⟩
  | root ha hb => exact .root ⟨hS _ (by simp [line, operands]), ha⟩ ⟨hS _ (by simp [line, operands]), hb⟩
  | logarithm ha hb => exact .logarithm ⟨hS _ (by simp [line, operands]), ha⟩ ⟨hS _ (by simp [line, operands]), hb⟩
  | application f ha => exact .application f ⟨hS _ (by simp [line, operands]), ha⟩

/-- A command is read when its indices are relabelled along with the meanings. -/
theorem Reads.relabel {M M' : Nat → Expression → Prop} {f : Nat → Nat} (hf : ∀ k e, M k e → M' (f k) e) {c : Call} {e : Expression}
    (h : c.Reads M e) : (c.relabel f).Reads M' e := by
  cases h with
  | fraction ha hb => exact .fraction (hf _ _ ha) (hf _ _ hb)
  | squareRoot ha => exact .squareRoot (hf _ _ ha)
  | root ha hb => exact .root (hf _ _ ha) (hf _ _ hb)
  | logarithm ha hb => exact .logarithm (hf _ _ ha) (hf _ _ hb)
  | application f ha => exact .application f (hf _ _ ha)

/-- A relabelled command is written with the new labels. -/
theorem line_relabel (f : Nat → Nat) (c : Call) : (c.relabel f).line = c.line.map (Mark.relabel f) := by
  have hword : ∀ t : Text, (Line.ofText t).map (Mark.relabel f) = Line.ofText t := by
    intro t
    simp [Line.ofText, Mark.relabel]
  cases c <;> simp [line, relabel, word, operands, hword, Mark.relabel]

end Call

/-! ## Lines of phrases -/

namespace NamedFunction

/-- The word of a function has letters only. -/
theorem isAlpha_of_mem_word (f : NamedFunction) : ∀ c ∈ f.word.toList, c.isAlpha = true := by
  rw [← List.all_eq_true]
  cases f <;> rfl

end NamedFunction

namespace Call

/-- The word of a command has letters only. -/
theorem isAlpha_of_mem_word (c : Call) : ∀ d ∈ c.word.toList, d.isAlpha = true := by
  cases c with
  | application f k => exact f.isAlpha_of_mem_word
  | _ => simp [word]

/-- The characters of a call are its command word, brackets and an underscore. -/
theorem char_mem_line {c : Call} {d : Char} (h : .char d ∈ c.line) :
    d = '\\' ∨ d.isAlpha = true ∨ d = '[' ∨ d = ']' ∨ d = '_' := by
  have hword := c.isAlpha_of_mem_word
  simp only [line, Line.ofText, List.mem_cons, List.mem_append, List.mem_map, Mark.char.injEq, exists_eq_right] at h
  rcases h with rfl | h | h
  · exact .inl rfl
  · exact .inr (.inl (hword d h))
  · cases c <;> simp [operands] at h <;> tauto

/-- A command that is read has references with a meaning only. -/
theorem Reads.lt {M : Nat → Expression → Prop} {n : Nat} (hM : ∀ k e, M k e → k < n) {c : Call} {e : Expression} (h : c.Reads M e)
    {k : Nat} (hk : .ref k ∈ c.line) : k < n := by
  have hsplit : .ref k ∈ c.operands := by simpa [line, Line.ofText] using hk
  cases h with
  | fraction ha hb | logarithm ha hb =>
    simp only [operands, List.mem_cons, Mark.ref.injEq, reduceCtorEq, List.not_mem_nil, or_false, false_or] at hsplit
    rcases hsplit with rfl | rfl
    · exact hM _ _ ha
    · exact hM _ _ hb
  | root ha hb =>
    simp only [operands, List.mem_cons, Mark.ref.injEq, reduceCtorEq, List.not_mem_nil, or_false, false_or] at hsplit
    rcases hsplit with rfl | rfl
    · exact hM _ _ ha
    · exact hM _ _ hb
  | squareRoot ha | application _ ha =>
    simp only [operands, List.mem_singleton, Mark.ref.injEq] at hsplit
    exact hsplit ▸ hM _ _ ha

end Call

/-- A part of a phrase. -/
inductive Item where
  | digits (run : DigitRun)
  | letter (c : Char)
  | call (c : Call)
  | ref (k : Nat)
  | sign (c : Char)

namespace Item

/-- An item as it is written. -/
def line : Item → Line
  | digits run => Line.ofText run.text
  | letter c | sign c => [.char c]
  | call c => c.line
  | ref k => [.ref k]

/-- An item with its indices replaced. -/
def relabel (f : Nat → Nat) : Item → Item
  | call c => call (c.relabel f)
  | ref k => ref (f k)
  | item => item

/-- A relabelled item is written with the new labels. -/
theorem line_relabel (f : Nat → Nat) (item : Item) : (item.relabel f).line = item.line.map (Mark.relabel f) := by
  cases item with
  | digits run => simp [relabel, line, Line.ofText, Mark.relabel]
  | call c => exact c.line_relabel f
  | letter c => rfl
  | ref k => rfl
  | sign c => rfl

end Item

/-- A line item by item. -/
abbrev Phrase := List Item

namespace Phrase

/-- A phrase as it is written. -/
def line (l : Phrase) : Line := l.flatMap Item.line

@[simp] theorem line_nil : line [] = [] := rfl

@[simp] theorem line_cons (item : Item) (l : Phrase) : line (item :: l) = item.line ++ line l := rfl

/-- Two phrases in a row are written one behind the other. -/
@[simp] theorem line_append (l l' : Phrase) : line (l ++ l') = line l ++ line l' := List.flatMap_append

/-- A run of digits has digits only. -/
theorem char_not_mem_digits (run : DigitRun) {c : Char} (hc : c.isDigit = false) : .char c ∉ line [.digits run] := by
  simpa [Item.line, Line.ofText] using run.not_mem hc

/-- A letter is written as itself. -/
theorem char_not_mem_letter {d c : Char} (hd : d.isLower = true) (hc : c.isLower = false) : .char c ∉ line [.letter d] := by
  simp only [line_cons, line_nil, List.append_nil, Item.line, List.mem_singleton, Mark.char.injEq]
  rintro rfl
  rw [hd] at hc
  cases hc

/-- A command is written with a backslash, letters, brackets and an underscore only. -/
theorem char_not_mem_call (call : Call) {c : Char} (hc : ¬(c = '\\' ∨ c.isAlpha = true ∨ c = '[' ∨ c = ']' ∨ c = '_')) :
    .char c ∉ line [.call call] := by
  rw [line_cons, line_nil, List.append_nil]
  exact fun hmem => hc (Call.char_mem_line hmem)

/-- A relabelled phrase is written with the new labels. -/
theorem line_map_relabel (f : Nat → Nat) (l : Phrase) : line (l.map (Item.relabel f)) = (line l).map (Mark.relabel f) := by
  induction l with
  | nil => rfl
  | cons item l ih => rw [List.map_cons, line_cons, line_cons, List.map_append, Item.line_relabel, ih]

/-- The places of the grammar. -/
inductive Category where
  | atom
  | power
  | base
  | operand
  | whole

/-- What a phrase stands for when the indices stand for expressions. The letters are those of the variables. -/
inductive Reads (letters : List Char) (M : Nat → Expression → Prop) : Category → Phrase → Expression → Prop where
  | digits (run : DigitRun) : Reads letters M .atom [.digits run] (.digits run)
  | letter {c : Char} (hc : c ∈ letters) (he : c ≠ 'e') : Reads letters M .atom [.letter c] (.letter c)
  | call {c : Call} {e : Expression} (h : c.Reads M e) : Reads letters M .atom [.call c] e
  | reference {k : Nat} {e : Expression} (h : M k e) : Reads letters M .base [.ref k] e
  | parentheses {l : Phrase} {e : Expression} (h : Reads letters M .whole l e) :
    Reads letters M .base (.sign '(' :: l ++ [.sign ')']) e
  | baseOfAtom {l : Phrase} {e : Expression} (h : Reads letters M .atom l e) : Reads letters M .base l e
  | power {l : Phrase} {k : Nat} {a b : Expression} (ha : Reads letters M .base l a) (hb : M k b) :
    Reads letters M .power (l ++ [.sign '^', .ref k]) (.power a b)
  | operandOfBase {l : Phrase} {e : Expression} (h : Reads letters M .base l e) : Reads letters M .operand l e
  | operandOfPower {l : Phrase} {e : Expression} (h : Reads letters M .power l e) : Reads letters M .operand l e
  | wholeOfAtom {l : Phrase} {e : Expression} (h : Reads letters M .atom l e) : Reads letters M .whole l e
  | wholeOfPower {l : Phrase} {e : Expression} (h : Reads letters M .power l e) : Reads letters M .whole l e
  | negation {l : Phrase} {a : Expression} (ha : Reads letters M .operand l a) :
    Reads letters M .whole (.sign '-' :: l) (.negation a)
  | operation (op : Operator) {l l' : Phrase} {a b : Expression} (ha : Reads letters M .operand l a)
    (hb : Reads letters M .operand l' b) (hdigits : op = .divide → ∀ run rest, l' ≠ .digits run :: rest) :
    Reads letters M .whole (l ++ .sign op.char :: l') (.operation op a b)

section
variable {letters : List Char} {M M' : Nat → Expression → Prop} {g : Category} {l : Phrase} {e : Expression}

/-- A phrase that is read over some meanings of indices is read over more of them. -/
theorem Reads.mono (hsub : ∀ k e, M k e → M' k e) (h : Reads letters M g l e) : Reads letters M' g l e := by
  induction h with
  | digits run => exact .digits run
  | letter hc he => exact .letter hc he
  | call h => exact .call (h.mono hsub)
  | reference h => exact .reference (hsub _ _ h)
  | parentheses _ ih => exact .parentheses ih
  | baseOfAtom _ ih => exact .baseOfAtom ih
  | power _ hb ih => exact .power ih (hsub _ _ hb)
  | operandOfBase _ ih => exact .operandOfBase ih
  | operandOfPower _ ih => exact .operandOfPower ih
  | wholeOfAtom _ ih => exact .wholeOfAtom ih
  | wholeOfPower _ ih => exact .wholeOfPower ih
  | negation _ ih => exact .negation ih
  | operation op _ _ hdigits iha ihb => exact .operation op iha ihb hdigits

/-- Only the indices of a phrase matter for what it stands for. -/
theorem Reads.restrict {S : Nat → Prop} (hS : ∀ k, .ref k ∈ l.line → S k) (h : Reads letters M g l e) :
    Reads letters (fun k e => S k ∧ M k e) g l e := by
  induction h with
  | digits run => exact .digits run
  | letter hc he => exact .letter hc he
  | call h => exact .call (h.restrict fun k hk => hS k (by simpa [Item.line] using hk))
  | reference h => exact .reference ⟨hS _ (by simp [Item.line]), h⟩
  | parentheses _ ih => exact .parentheses (ih fun k hk => hS k (by simp [hk]))
  | baseOfAtom _ ih => exact .baseOfAtom (ih hS)
  | power _ hb ih => exact .power (ih fun k hk => hS k (by simp [hk])) ⟨hS _ (by simp [Item.line]), hb⟩
  | operandOfBase _ ih => exact .operandOfBase (ih hS)
  | operandOfPower _ ih => exact .operandOfPower (ih hS)
  | wholeOfAtom _ ih => exact .wholeOfAtom (ih hS)
  | wholeOfPower _ ih => exact .wholeOfPower (ih hS)
  | negation _ ih => exact .negation (ih fun k hk => hS k (by simp [hk]))
  | operation op _ _ hdigits iha ihb =>
    exact .operation op (iha fun k hk => hS k (by simp [hk])) (ihb fun k hk => hS k (by simp [hk])) hdigits

/-- Indices may be replaced by others that stand for the same. -/
theorem Reads.relabel {f : Nat → Nat} (hf : ∀ k e, M k e → M (f k) e) (h : Reads letters M g l e) :
    Reads letters M g (l.map (Item.relabel f)) e := by
  induction h with
  | digits run => exact .digits run
  | letter hc he => exact .letter hc he
  | call h => exact .call (h.relabel hf)
  | reference h => exact .reference (hf _ _ h)
  | parentheses _ ih =>
    rw [List.map_append]
    exact .parentheses ih
  | baseOfAtom _ ih => exact .baseOfAtom ih
  | power _ hb ih =>
    rw [List.map_append]
    exact .power ih (hf _ _ hb)
  | operandOfBase _ ih => exact .operandOfBase ih
  | operandOfPower _ ih => exact .operandOfPower ih
  | wholeOfAtom _ ih => exact .wholeOfAtom ih
  | wholeOfPower _ ih => exact .wholeOfPower ih
  | negation _ ih => exact .negation ih
  | operation op _ _ hdigits iha ihb =>
    rw [List.map_append]
    refine .operation op iha ihb fun hop run rest heq => ?_
    obtain ⟨item, rest', rfl, hitem, -⟩ := List.map_eq_cons_iff.1 heq
    cases item with
    | digits run' => exact hdigits hop run' rest' rfl
    | letter c => cases hitem
    | call c => cases hitem
    | ref k => cases hitem
    | sign c => cases hitem

/-- A phrase that is read has at least one item. -/
theorem Reads.ne_nil (h : Reads letters M g l e) : l ≠ [] := by
  induction h with
  | baseOfAtom _ ih | operandOfBase _ ih | operandOfPower _ ih | wholeOfAtom _ ih | wholeOfPower _ ih => exact ih
  | _ => simp

/-- A phrase begins with digits when its first part does. -/
theorem append_ne_digits {l l' : Phrase} (hne : l ≠ []) (h : ∀ run rest, l ≠ .digits run :: rest) (run : DigitRun) (rest : Phrase) :
    l ++ l' ≠ .digits run :: rest := by
  intro heq
  obtain ⟨item, more, rfl⟩ := List.exists_cons_of_ne_nil hne
  rw [List.cons_append, List.cons.injEq] at heq
  exact h run more (heq.1 ▸ rfl)

theorem ne_digits_of_append {l l' : Phrase} (h : ∀ run rest, l ++ l' ≠ .digits run :: rest) (run : DigitRun) (rest : Phrase) :
    l ≠ .digits run :: rest := by
  rintro rfl
  exact h run (rest ++ l') rfl

/-- The indices of a phrase are below a bound when what stands for something is, and no character begins a token. -/
theorem Reads.within {n : Nat} (hletters : ∀ c ∈ letters, c.isLower = true) (hM : ∀ k e, M k e → k < n)
    (h : Reads letters M g l e) : l.line.Within n := by
  have hsign : ∀ c, c ≠ '@' → Line.Within n [.char c] := fun c hc => ⟨by simpa using Ne.symm hc, by simp⟩
  have href : ∀ {k e}, M k e → Line.Within n [.ref k] := fun hk => .ref (hM _ _ hk)
  induction h with
  | digits run =>
    rw [line_cons, line_nil, List.append_nil]
    exact .ofText (run.not_mem (by decide))
  | @letter c hc he =>
    refine hsign c fun heq => ?_
    exact absurd (hletters c hc) (heq ▸ by decide)
  | @call c e hc =>
    rw [line_cons, line_nil, List.append_nil]
    refine ⟨fun hat => ?_, fun k hk => hc.lt hM hk⟩
    rcases Call.char_mem_line hat with h | h | h | h | h <;> exact absurd h (by decide)
  | reference hk => exact href hk
  | parentheses _ ih =>
    rw [List.cons_append, line_cons, line_append]
    exact (hsign '(' (by decide)).append (ih.append (hsign ')' (by decide)))
  | power _ hb ih =>
    rw [line_append]
    exact ih.append ((hsign '^' (by decide)).append (href hb))
  | negation _ ih => exact (hsign '-' (by decide)).append ih
  | operation op _ _ _ iha ihb =>
    rw [line_append, line_cons]
    exact iha.append ((hsign op.char (by cases op <;> decide)).append ihb)
  | baseOfAtom _ ih | operandOfBase _ ih | operandOfPower _ ih | wholeOfAtom _ ih | wholeOfPower _ ih => exact ih

/-- The phrase of a cell is not a mere index. -/
theorem Reads.charCount_pos (h : Reads letters M .whole l e) : 0 < l.line.charCount := by
  have hatom : ∀ {l e}, Reads letters M .atom l e → 0 < l.line.charCount := by
    intro l e h
    cases h with
    | digits run => simpa [Item.line] using List.length_pos_of_ne_nil run.nonempty
    | letter => simp [Item.line]
    | call => simp [Item.line, Call.line]
  cases h with
  | wholeOfAtom h => exact hatom h
  | wholeOfPower h =>
    cases h with
    | power => simp [Item.line]
  | negation => simp [Item.line]
  | operation => simp [Item.line]

/-! ### Parentheses -/

/-- A text after which as many parentheses are open as before it. -/
def Balanced (t : Text) : Prop := ∀ depth u, Text.balancedFrom depth (t ++ u) = Text.balancedFrom depth u

/-- A line without parentheses is balanced. -/
theorem balanced_of_not_mem {s : Line} (h : .char '(' ∉ s) (h' : .char ')' ∉ s) : Balanced s.text :=
  Line.balancedFrom_of_not_mem (Line.not_mem_text (by decide) (by decide) (by decide) h)
    (Line.not_mem_text (by decide) (by decide) (by decide) h')

/-- Two balanced texts in a row are balanced. -/
theorem Balanced.append {t u : Text} (ht : Balanced t) (hu : Balanced u) : Balanced (t ++ u) := by
  intro depth v
  rw [List.append_assoc, ht, hu]

/-- A sign other than a parenthesis is balanced. -/
theorem balanced_sign {c : Char} (h : c ≠ '(') (h' : c ≠ ')') : Balanced [c] :=
  fun depth u => Line.balancedFrom_other h h' depth u

/-- A phrase closes the parentheses that it opens. -/
theorem Reads.balanced (hletters : ∀ c ∈ letters, c.isLower = true) (h : Reads letters M g l e) : Balanced l.line.text := by
  induction h with
  | digits run => exact balanced_of_not_mem (char_not_mem_digits run (by decide)) (char_not_mem_digits run (by decide))
  | letter hc he =>
    have hlower := hletters _ hc
    exact balanced_of_not_mem (char_not_mem_letter hlower (by decide)) (char_not_mem_letter hlower (by decide))
  | @call c e hc => exact balanced_of_not_mem (char_not_mem_call c (by decide)) (char_not_mem_call c (by decide))
  | reference => exact balanced_of_not_mem (by simp [Item.line]) (by simp [Item.line])
  | @parentheses l e _ ih =>
    intro depth u
    have htext : (line (.sign '(' :: l ++ [.sign ')'])).text ++ u = '(' :: (l.line.text ++ ')' :: u) := by
      simp [Item.line, Mark.text]
    rw [htext, Line.balancedFrom_opener, ih, Line.balancedFrom_closer]
  | power _ _ ih =>
    rw [line_append, Line.text_append]
    exact ih.append (balanced_of_not_mem (by simp [Item.line]) (by simp [Item.line]))
  | negation _ ih => exact (balanced_sign (c := '-') (by decide) (by decide)).append ih
  | operation op _ _ _ iha ihb =>
    rw [line_append, Line.text_append]
    exact iha.append ((balanced_sign (by cases op <;> decide) (by cases op <;> decide)).append ihb)
  | baseOfAtom _ ih | operandOfBase _ ih | operandOfPower _ ih | wholeOfAtom _ ih | wholeOfPower _ ih => exact ih

/-- A text that begins with a group is not in parentheses as a whole when something follows the group. -/
theorem inside?_of_balanced {t u : Text} (ht : Balanced t) (hu : u ≠ []) : Text.inside? ('(' :: (t ++ ')' :: u)) = none := by
  rw [Text.inside?, if_neg]
  rintro ⟨-, -, hbalanced⟩
  rw [List.dropLast_append_of_ne_nil (by simp), List.dropLast_cons_of_ne_nil hu, Text.balanced, ht] at hbalanced
  simp [Text.balancedFrom] at hbalanced

/-- A text that does not begin with a parenthesis has no pair around it. -/
theorem inside?_of_head {t : Text} (h : t.head? ≠ some '(') : Text.inside? t = none := by
  cases t with
  | nil => rfl
  | cons c t =>
    rw [Text.inside?, if_neg]
    rintro ⟨rfl, -⟩
    exact h rfl

/-- A text that does not end with a parenthesis has no pair around it. -/
theorem inside?_of_getLast {t : Text} (h : t.getLast? ≠ some ')') : Text.inside? t = none := by
  cases t with
  | nil => rfl
  | cons c t =>
    rw [Text.inside?, if_neg]
    rintro ⟨-, hlast, -⟩
    exact h (by rw [List.getLast?_cons, hlast, Option.getD_some])

/-- An atom begins with no parenthesis. -/
theorem Reads.head_of_atom (hletters : ∀ c ∈ letters, c.isLower = true) (h : Reads letters M .atom l e) :
    l.line.text.head? ≠ some '(' ∧ l.line.text ≠ [] := by
  cases h with
  | digits run =>
    obtain ⟨c, rest, hrun⟩ := List.exists_cons_of_ne_nil run.nonempty
    have hc := run.digits c (by simp [hrun])
    simp only [line_cons, line_nil, List.append_nil, Item.line, Line.text_ofText, hrun, List.head?_cons, ne_eq, Option.some.injEq,
      reduceCtorEq, not_false_eq_true, and_true]
    rintro rfl
    exact absurd hc (by decide)
  | letter hc he =>
    refine ⟨fun h => ?_, by simp [Item.line, Mark.text]⟩
    simp only [line_cons, line_nil, List.append_nil, Item.line, Line.text_cons, Line.text_nil, Mark.text, List.head?_cons,
      Option.some.injEq] at h
    exact absurd (hletters _ hc) (h ▸ by decide)
  | call => simp [Item.line, Call.line, Mark.text]

/-- A phrase begins with a group or with no parenthesis. -/
theorem Reads.group_or_head (hletters : ∀ c ∈ letters, c.isLower = true) (h : Reads letters M g l e) :
    l.line.text.head? ≠ some '(' ∧ l.line.text ≠ [] ∨ ∃ t u, Balanced t ∧ l.line.text = '(' :: (t ++ ')' :: u) := by
  have hextend : ∀ {t v : Text}, (t.head? ≠ some '(' ∧ t ≠ [] ∨ ∃ u w, Balanced u ∧ t = '(' :: (u ++ ')' :: w)) →
      (t ++ v).head? ≠ some '(' ∧ t ++ v ≠ [] ∨ ∃ u w, Balanced u ∧ t ++ v = '(' :: (u ++ ')' :: w) := by
    rintro t v (⟨hhead, hne⟩ | ⟨u, w, hu, rfl⟩)
    · refine .inl ⟨?_, by simp [hne]⟩
      cases t with
      | nil => exact absurd rfl hne
      | cons c t => exact hhead
    · exact .inr ⟨u, w ++ v, hu, by simp⟩
  induction h with
  | digits run => exact .inl ((Reads.digits (M := M) run).head_of_atom hletters)
  | letter hc he => exact .inl ((Reads.letter (M := M) hc he).head_of_atom hletters)
  | call hc => exact .inl ((Reads.call hc).head_of_atom hletters)
  | reference => exact .inl (by simp [Item.line, Mark.text, Index.token_eq])
  | parentheses h =>
    exact .inr ⟨_, [], h.balanced hletters, by simp [Item.line, Mark.text]⟩
  | power _ _ ih =>
    rw [line_append, Line.text_append]
    exact hextend ih
  | negation => exact .inl (by simp [Item.line, Mark.text])
  | operation op _ _ _ iha =>
    rw [line_append, Line.text_append]
    exact hextend iha
  | baseOfAtom _ ih | operandOfBase _ ih | operandOfPower _ ih | wholeOfAtom _ ih | wholeOfPower _ ih => exact ih

/-- The phrase of a cell is in no parentheses as a whole. -/
theorem Reads.unwrap (hletters : ∀ c ∈ letters, c.isLower = true) (h : Reads letters M .whole l e) :
    Text.unwrap l.line.text = l.line.text := by
  suffices hinside : Text.inside? l.line.text = none by
    rw [Text.unwrap]
    split
    · rename_i inner hsome
      rw [hinside] at hsome
      cases hsome
    · rfl
  cases h with
  | wholeOfAtom h => exact inside?_of_head (h.head_of_atom hletters).1
  | wholeOfPower h =>
    cases h with
    | power => exact inside?_of_getLast (by simp [Item.line, Mark.text, Index.token_eq, List.getLast?_cons])
  | negation => exact inside?_of_head (by simp [Item.line, Mark.text])
  | operation op ha =>
    rw [line_append, Line.text_append]
    rcases ha.group_or_head hletters with ⟨hhead, hne⟩ | ⟨t, u, ht, heq⟩
    · refine inside?_of_head ?_
      rwa [List.head?_append_of_ne_nil _ hne]
    · rw [heq, List.cons_append, List.append_assoc, List.cons_append]
      exact inside?_of_balanced ht (by simp [Item.line, Mark.text])

end

end Phrase

end FormulaDag
