import FormulaDag.Proofs.Contexts.Expansion
import FormulaDag.Proofs.Expression.Basic
import FormulaDag.Proofs.Source.Doubling

/-!
# Written expressions are well-formed

An expression is written with signs, digits, declared letters and reserved command words, each of which stands before a sign, and its groups
are nested. A text that is put together in this way passes all checks on a source text, and has no white space to be taken away.
-/

namespace FormulaDag

theorem zip_replicate_length {α β : Type} (l : List α) (b : β) : l.zip (List.replicate l.length b) = l.map (·, b) := by
  induction l with
  | nil => rfl
  | cons a l ih => rw [List.length_cons, List.replicate_succ, List.zip_cons_cons, ih, List.map_cons]

namespace Source

/-- Texts that are put together from signs, digits, declared letters, command words before signs, and groups. -/
inductive Formed (letters : List Char) : Text → Prop where
  | nil : Formed letters []
  | char {c : Char} {t : Text} (hsource : isSourceChar c = true) (hbackslash : c ≠ '\\') (hdelimiter : isDelimiter c = false)
    (hletter : c.isAlpha = true → c ∈ letters) (ht : Formed letters t) : Formed letters (c :: t)
  | command {w : String} {c : Char} {t : Text} (hw : w ∈ Command.reservedWords) (hsign : c.isAlpha = false) (ht : Formed letters (c :: t)) :
    Formed letters ('\\' :: (w.toList ++ c :: t))
  | group {o c : Char} {inner t : Text} (hpair : openerOf? c = some o) (hne : inner ≠ []) (hinner : Formed letters inner)
    (ht : Formed letters t) : Formed letters (o :: (inner ++ c :: t))

/-- Reserved words have letters only. -/
theorem isAlpha_of_mem_reserved {w : String} (hw : w ∈ Command.reservedWords) : ∀ c ∈ w.toList, c.isAlpha = true := by
  have hall : Command.reservedWords.all (fun w => w.toList.all Char.isAlpha) = true := by rfl
  exact List.all_eq_true.1 (List.all_eq_true.1 hall w hw)

/-- A character of a source is no blank. -/
theorem not_isBlank_of_isSourceChar {c : Char} (h : isSourceChar c = true) : Text.isBlank c = false := by
  rw [Source.isSourceChar, Bool.or_eq_true, List.contains_iff_mem, Char.isAlphanum, Bool.or_eq_true] at h
  rcases h with (halpha | hdigit) | hsign
  · exact not_isBlank_of_isAlpha halpha
  · simp only [Char.isDigit, ge_iff_le, Bool.and_eq_true, decide_eq_true_eq, UInt32.le_iff_toNat_le] at hdigit
    simp only [Text.isBlank, Char.toNat, Bool.or_eq_false_iff, Bool.and_eq_false_iff, decide_eq_false_iff_not, beq_eq_false_iff_ne]
    simp at hdigit ⊢
    omega
  · fin_cases hsign <;> decide

theorem ne_nil_of_mem_reserved {w : String} (hw : w ∈ Command.reservedWords) : w.toList ≠ [] := by
  have hall : Command.reservedWords.all (fun w => w.toList ≠ []) = true := by rfl
  simpa using List.all_eq_true.1 hall w hw

/-- The letters of a command word before a sign are protected. -/
theorem commandMask_word {w : Text} {c : Char} {t : Text} (hne : w ≠ []) (hw : ∀ d ∈ w, d.isAlpha = true) (hc : c.isAlpha = false) :
    commandMask false ('\\' :: (w ++ c :: t)) = List.replicate (w.length + 1) true ++ commandMask false (c :: t) := by
  have hword : ∀ v : Text, (∀ d ∈ v, d.isAlpha = true) →
      commandMask true (v ++ c :: t) = List.replicate v.length true ++ commandMask false (c :: t) := by
    intro v hv
    induction v with
    | nil => exact commandMask_true_eq (by simp [hc])
    | cons d v ih =>
      obtain ⟨hd, hv⟩ := List.forall_mem_cons.1 hv
      have hbackslash : d ≠ '\\' := by
        rintro rfl
        exact absurd hd (by decide)
      rw [List.cons_append, commandMask, if_neg hbackslash, hd, Bool.and_self, if_pos rfl, ih hv]
      rfl
  obtain ⟨d, v, rfl⟩ := List.exists_cons_of_ne_nil hne
  rw [commandMask, if_pos rfl, hword _ hw]
  simp [hw d List.mem_cons_self, List.replicate_succ]

namespace Formed
variable {letters : List Char} {t u : Text}

/-- Two formed texts in a row are formed. -/
theorem append (ht : Formed letters t) (hu : Formed letters u) : Formed letters (t ++ u) := by
  induction ht with
  | nil => exact hu
  | char hsource hbackslash hdelimiter hletter _ ih => exact .char hsource hbackslash hdelimiter hletter ih
  | command hw hsign _ ih =>
    rw [List.cons_append, List.append_assoc]
    exact .command hw hsign ih
  | group hpair hne hinner _ _ ih =>
    rw [List.cons_append, List.append_assoc]
    exact .group hpair hne hinner ih

/-- Delimiters are characters of a source, and neither backslashes nor letters. -/
theorem delimiter_facts {o c : Char} (h : openerOf? c = some o) : (isSourceChar o = true ∧ o ≠ '\\' ∧ o.isAlpha = false) ∧
    isSourceChar c = true ∧ c ≠ '\\' ∧ c.isAlpha = false := by
  rcases openerOf?_eq_some h with ⟨rfl, rfl⟩ | ⟨rfl, rfl⟩ | ⟨rfl, rfl⟩ <;> decide

/-- A formed text has characters of a source only. -/
theorem isSourceChar (h : Formed letters t) : ∀ c ∈ t, isSourceChar c = true := by
  induction h with
  | nil => simp
  | char hsource _ _ _ _ ih => exact List.forall_mem_cons.2 ⟨hsource, ih⟩
  | command hw _ _ ih =>
    refine List.forall_mem_cons.2 ⟨by decide, List.forall_mem_append.2 ⟨fun d hd => ?_, ih⟩⟩
    simp [Source.isSourceChar, Char.isAlphanum, isAlpha_of_mem_reserved hw d hd]
  | group hpair _ _ _ ihinner ih =>
    obtain ⟨⟨ho, -⟩, hc, -⟩ := delimiter_facts hpair
    exact List.forall_mem_cons.2 ⟨ho, List.forall_mem_append.2 ⟨ihinner, List.forall_mem_cons.2 ⟨hc, ih⟩⟩⟩

/-- The groups of a formed text are nested. -/
theorem nested (h : Formed letters t) : (Line.ofText t).Nested := by
  have hmark : ∀ {c : Char} {s : Line}, isDelimiter c = false → s.Nested → Line.Nested (Mark.char c :: s) := fun hc hs =>
    .mark (fun d hd => Mark.char.inj hd ▸ hc) hs
  induction h with
  | nil => exact .nil
  | char _ _ hdelimiter _ _ ih => exact hmark hdelimiter ih
  | @command w c t hw _ _ ih =>
    have hword : ∀ v : Text, (∀ d ∈ v, d.isAlpha = true) → (Line.ofText (v ++ c :: t)).Nested := by
      intro v hv
      induction v with
      | nil => exact ih
      | cons d v ihv =>
        obtain ⟨hd, hv⟩ := List.forall_mem_cons.1 hv
        exact hmark (isDelimiter_of_isAlphanum (by simp [Char.isAlphanum, hd])) (ihv hv)
    exact hmark (c := '\\') (by decide) (hword _ (isAlpha_of_mem_reserved hw))
  | group hpair hne _ _ ihinner ih =>
    have h := Line.Nested.group hpair (by simpa [Line.ofText] using hne) ihinner ih
    simpa [Line.ofText] using h

/-- The commands are reserved. -/
theorem words (h : Formed letters t) (hu : ∀ w ∈ Command.words u, w ≠ [] ∧ Command.isReserved w = true) :
    ∀ w ∈ Command.words (t ++ u), w ≠ [] ∧ Command.isReserved w = true := by
  induction h generalizing u with
  | nil => exact hu
  | char _ hbackslash _ _ _ ih =>
    rw [List.cons_append, Command.words, if_neg hbackslash]
    exact ih hu
  | @command w c t hw hsign _ ih =>
    have halpha := isAlpha_of_mem_reserved hw
    have htake : (w.toList ++ c :: (t ++ u)).takeWhile Char.isAlpha = w.toList := by
      rw [List.takeWhile_append_of_pos halpha, List.takeWhile_cons_of_neg (by simp [hsign]), List.append_nil]
    have hrest : ∀ v : Text, (∀ d ∈ v, d.isAlpha = true) → Command.words (v ++ c :: (t ++ u)) = Command.words (c :: (t ++ u)) := by
      intro v hv
      induction v with
      | nil => rfl
      | cons d v ihv =>
        obtain ⟨hd, hv⟩ := List.forall_mem_cons.1 hv
        have hne : d ≠ '\\' := by
          rintro rfl
          exact absurd hd (by decide)
        rw [List.cons_append, Command.words, if_neg hne, ihv hv]
    have hown : w.toList ≠ [] ∧ Command.isReserved w.toList = true :=
      ⟨ne_nil_of_mem_reserved hw, List.any_eq_true.2 ⟨w, hw, by simp⟩⟩
    rw [List.cons_append, List.append_assoc, List.cons_append, Command.words, if_pos rfl, htake, hrest _ halpha]
    exact List.forall_mem_cons.2 ⟨hown, ih hu⟩
  | group hpair _ _ _ ihinner ih =>
    obtain ⟨⟨-, ho, -⟩, -, hc, -⟩ := delimiter_facts hpair
    rw [List.cons_append, Command.words, if_neg ho, List.append_assoc]
    refine ihinner ?_
    rw [List.cons_append, Command.words, if_neg hc]
    exact ih hu

/-- The letters that are no part of a command are declared. -/
theorem marked (h : Formed letters t) (hu : ∀ e ∈ marked [] u, e.1.isAlpha = true → e.2 = false → e.1 ∈ letters) :
    ∀ e ∈ Source.marked [] (t ++ u), e.1.isAlpha = true → e.2 = false → e.1 ∈ letters := by
  have hcons : ∀ {c : Char} {v : Text}, c ≠ '\\' → Source.marked [] (c :: v) = (c, false) :: Source.marked [] v := by
    intro c v hc
    simp [Source.marked, protection, commandMask, hc]
  induction h generalizing u with
  | nil => exact hu
  | char _ hbackslash _ hletter _ ih =>
    rw [List.cons_append, hcons hbackslash]
    exact List.forall_mem_cons.2 ⟨fun halpha _ => hletter halpha, ih hu⟩
  | @command w c t hw hsign _ ih =>
    have hmarked : Source.marked [] ('\\' :: (w.toList ++ c :: t) ++ u) =
        ('\\', true) :: w.toList.map (·, true) ++ Source.marked [] (c :: t ++ u) := by
      have hmask := commandMask_word (t := t ++ u) (ne_nil_of_mem_reserved hw) (isAlpha_of_mem_reserved hw) hsign
      simp only [Source.marked, protection, List.foldl_nil, List.cons_append, List.append_assoc]
      rw [hmask, List.replicate_succ, List.cons_append, List.zip_cons_cons, List.zip_append (by simp), zip_replicate_length]
    rw [hmarked]
    refine List.forall_mem_append.2 ⟨?_, ih hu⟩
    simp
  | group hpair _ _ _ ihinner ih =>
    obtain ⟨⟨-, ho, hletter⟩, -, hc, hletter'⟩ := delimiter_facts hpair
    rw [List.cons_append, hcons ho, List.append_assoc]
    refine List.forall_mem_cons.2 ⟨fun halpha => by simp [hletter] at halpha, ihinner ?_⟩
    rw [List.cons_append, hcons hc]
    exact List.forall_mem_cons.2 ⟨fun halpha => by simp [hletter'] at halpha, ih hu⟩

/-- A text that is put together in this way has no fault. -/
theorem fault? (h : Formed letters t) (hne : t ≠ []) : Source.fault? .standard letters t = none := by
  have hsource : t.find? (fun c => !Source.isSourceChar c) = none := by
    rw [List.find?_eq_none]
    exact fun c hc => by simp [h.isSourceChar c hc]
  have hgroups : groupFault [] none t = none := by
    obtain ⟨c, -, heq⟩ := groupFault_nested h.nested (by simpa [Line.ofText] using hne) (by simp [Line.ofText]) [] none
    simpa [groupFault] using heq []
  have hwords := h.words (u := []) (by simp [Command.words])
  rw [List.append_nil] at hwords
  have hbare : (Command.words t).contains [] = false := by
    rw [← Bool.not_eq_true, List.contains_iff_mem]
    exact fun hnil => (hwords [] hnil).1 rfl
  have hsupported : unsupported .standard t = [] := by
    rw [unsupported, List.map_eq_nil_iff, List.filter_eq_nil_iff]
    exact fun w hw => by simp [RuleSet.isCommand, (hwords w hw).2]
  have hletters : undeclared? .standard letters t = none := by
    have hmarked := h.marked (u := []) (by simp [Source.marked])
    rw [List.append_nil] at hmarked
    rw [undeclared?, Option.map_eq_none_iff, List.find?_eq_none]
    rintro ⟨c, flag⟩ he
    have := hmarked _ he
    simp only [Bool.and_eq_true, Bool.not_eq_true', not_and, Bool.not_eq_false, List.contains_iff_mem] at this ⊢
    exact fun hc => this hc.1 hc.2
  simp only [Source.fault?, if_neg hne, hsource, hgroups, hbare, hsupported, hletters, ne_eq, not_true_eq_false, if_false,
    Bool.false_eq_true]

/-- There is no white space in a text that is put together in this way. -/
theorem stripBlanks_eq (h : Formed letters t) (names : List Text) : stripBlanks names t = t :=
  stripBlanks_eq_self names fun _ hc => not_isBlank_of_isSourceChar (h.isSourceChar _ hc)

end Formed

end Source

namespace NamedFunction

/-- The word of a function is reserved. -/
theorem word_mem_reservedWords (f : NamedFunction) : f.word ∈ Command.reservedWords := by
  cases f <;> decide

end NamedFunction

namespace Expression

open Source

variable {letters : List Char}

/-- A formed text behind a sign is formed. -/
theorem formed_sign {c : Char} {t : Text} (hc : c ∈ "+-*/^_".toList) (ht : Formed letters t) : Formed letters (c :: t) := by
  have hfacts : isSourceChar c = true ∧ c ≠ '\\' ∧ isDelimiter c = false ∧ c.isAlpha = false := by
    fin_cases hc <;> decide
  exact .char hfacts.1 hfacts.2.1 hfacts.2.2.1 (fun h => by simp [hfacts.2.2.2] at h) ht

/-- A formed text in braces is formed. -/
theorem formed_braced {t : Text} (ht : Formed letters t) (hne : t ≠ []) : Formed letters (braced t) :=
  .group (by rfl) hne ht .nil

/-- A formed text in parentheses is formed. -/
theorem formed_parenthesized {t : Text} (ht : Formed letters t) (hne : t ≠ []) : Formed letters (parenthesized t) :=
  .group (by rfl) hne ht .nil

/-- A run of digits is formed. -/
theorem formed_digits (run : DigitRun) : Formed letters run.text := by
  have hall := run.digits
  generalize run.text = t at hall
  induction t with
  | nil => exact .nil
  | cons c t ih =>
    obtain ⟨hc, ht⟩ := List.forall_mem_cons.1 hall
    have halphanum : c.isAlphanum = true := by simp [Char.isAlphanum, hc]
    have hbackslash : c ≠ '\\' := by
      rintro rfl
      exact absurd hc (by decide)
    exact .char (by simp [isSourceChar, halphanum]) hbackslash (isDelimiter_of_isAlphanum halphanum)
      (fun halpha => by simp [Text.not_isAlpha_of_isDigit hc] at halpha) (ih ht)

/-- A command before a formed text is formed, when no letter follows its word. -/
theorem formed_command {w : String} (hw : w ∈ Command.reservedWords) {c : Char} (hsign : c.isAlpha = false) {t : Text}
    (ht : Formed letters (c :: t)) : Formed letters (command w ++ c :: t) :=
  .command hw hsign ht

/-- An expression is written with signs, digits, its letters and command words. -/
theorem formed_writeAfter (hletters : ∀ c ∈ letters, c.isLower = true) {e : Expression} (he : ∀ c ∈ e.letters, c ∈ letters)
    (stroke : Bool) : Formed letters (e.writeAfter stroke) ∧ e.writeAfter stroke ≠ [] := by
  have hoperand : ∀ {e : Expression} {bare : Bool}, (∀ stroke, Formed letters (e.writeAfter stroke) ∧ e.writeAfter stroke ≠ []) →
      ∀ stroke, Formed letters (if bare then e.writeAfter stroke else parenthesized (e.writeAfter false)) := by
    intro e bare he stroke
    split
    · exact (he stroke).1
    · exact formed_parenthesized (he false).1 (he false).2
  have hgroups : ∀ {t u : Text}, Formed letters t ∧ t ≠ [] → Formed letters u ∧ u ≠ [] → Formed letters (braced t ++ braced u) :=
    fun ht hu => (formed_braced ht.1 ht.2).append (formed_braced hu.1 hu.2)
  induction e generalizing stroke with
  | digits run =>
    rw [writeAfter]
    split
    · exact ⟨formed_parenthesized (formed_digits run) run.nonempty, by simp [parenthesized]⟩
    · exact ⟨formed_digits run, run.nonempty⟩
  | letter c =>
    have hc := he c (by simp [Expression.letters])
    have hlower := hletters c hc
    have halphanum : c.isAlphanum = true := by simp [Char.isAlphanum, Char.isAlpha, hlower]
    have hbackslash : c ≠ '\\' := by
      rintro rfl
      exact absurd hlower (by decide)
    exact ⟨.char (by simp [isSourceChar, halphanum]) hbackslash (isDelimiter_of_isAlphanum halphanum) (fun _ => hc) .nil,
      by simp [writeAfter]⟩
  | negation a ih =>
    exact ⟨formed_sign (by decide) (hoperand (ih he) false), by simp [writeAfter]⟩
  | operation op a b iha ihb =>
    obtain ⟨hea, heb⟩ := List.forall_mem_append.1 he
    have hop : op.char ∈ "+-*/^_".toList := by cases op <;> decide
    refine ⟨(hoperand (iha hea) false).append (formed_sign hop ?_), by simp [writeAfter]⟩
    split
    · exact (ihb heb _).1
    · exact formed_parenthesized (ihb heb _).1 (ihb heb _).2
  | fraction a b iha ihb =>
    obtain ⟨hea, heb⟩ := List.forall_mem_append.1 he
    refine ⟨?_, by simp [writeAfter, command]⟩
    rw [writeAfter, List.append_assoc]
    exact formed_command (by decide) (by decide) (hgroups (iha hea false) (ihb heb false))
  | squareRoot a ih =>
    exact ⟨formed_command (by decide) (by decide) (formed_braced (ih he false).1 (ih he false).2), by simp [writeAfter, command]⟩
  | root degree a ihdegree iha =>
    obtain ⟨hedegree, hea⟩ := List.forall_mem_append.1 he
    have hdegree := formed_braced (ihdegree hedegree false).1 (ihdegree hedegree false).2
    refine ⟨?_, by simp [writeAfter, command]⟩
    rw [writeAfter, List.append_assoc, List.cons_append]
    exact formed_command (by decide) (by decide)
      (.group (by rfl) (by simp [braced]) hdegree (formed_braced (iha hea false).1 (iha hea false).2))
  | logarithm base a ihbase iha =>
    obtain ⟨hebase, hea⟩ := List.forall_mem_append.1 he
    refine ⟨?_, by simp [writeAfter, command]⟩
    rw [writeAfter, List.append_assoc, List.cons_append]
    exact formed_command (by decide) (by decide) (formed_sign (by decide) (hgroups (ihbase hebase false) (iha hea false)))
  | application f a ih =>
    exact ⟨formed_command f.word_mem_reservedWords (by decide) (formed_braced (ih he false).1 (ih he false).2),
      by simp [writeAfter, command]⟩
  | power base exponent ihbase ihexponent =>
    obtain ⟨hebase, heexponent⟩ := List.forall_mem_append.1 he
    exact ⟨(hoperand (ihbase hebase) stroke).append (formed_sign (by decide)
      (formed_braced (ihexponent heexponent false).1 (ihexponent heexponent false).2)), by simp [writeAfter]⟩

/-- A written expression has no fault, and no white space to be taken away. -/
theorem write_facts (hletters : ∀ c ∈ letters, c.isLower = true) {e : Expression} (he : ∀ c ∈ e.letters, c ∈ letters) :
    fault? .standard letters e.write = none ∧ ∀ names, stripBlanks names e.write = e.write := by
  obtain ⟨hformed, hne⟩ := formed_writeAfter hletters he false
  exact ⟨hformed.fault? hne, hformed.stripBlanks_eq⟩

end Expression

end FormulaDag
