import FormulaDag.Proofs.Contexts.Expansion
import FormulaDag.Proofs.Source.Delimiters
import FormulaDag.Proofs.Source.Doubling

/-!
# Taking white space away

A text without its white space is the text with braces put around the operands that white space set off. The relation `Strips` describes
the text part by part, and everything that stripping keeps is seen along it: the characters, the nesting and the command words.
-/

namespace FormulaDag

namespace Source

/-- A text put into braces here and there: the second text is the first one with pairs of braces added around some of its parts. -/
inductive Braced : Text → Text → Prop where
  | nil : Braced [] []
  | char {t u : Text} (c : Char) (h : Braced t u) : Braced (c :: t) (c :: u)
  | pair {inner inner' t u : Text} (hinner : Braced inner inner') (h : Braced t u) : Braced (inner ++ t) ('{' :: inner' ++ '}' :: u)

/-- What an operand set off by white space is, before a text: a letter, or a name with the group that follows it. -/
inductive IsOperand (names : List Text) : Text → Text → Prop where
  | letter {c : Char} {t : Text} (hc : c.isAlpha = true) : IsOperand names [c] t
  | call {name inner t : Text} {opener closer : Char} (hname : name ∈ names) (h : openerOf? closer = some opener)
      (hclose : closingLength opener closer 1 (inner ++ closer :: t) = some (inner.length + 1)) :
      IsOperand names (name ++ opener :: inner ++ [closer]) t

/-- The text without its white space, part by part. -/
inductive Strips (names : List Text) : Text → Text → Prop where
  | nil : Strips names [] []
  | blank {c : Char} {t u : Text} (hc : Text.isBlank c = true) (h : Strips names t u) : Strips names (c :: t) u
  | char {c : Char} {t u : Text} (hc : Text.isBlank c = false) (hslash : c ≠ '\\') (h : Strips names t u) : Strips names (c :: t) (c :: u)
  | word {word t u : Text} (hword : ∀ d ∈ word, d.isAlpha = true) (hend : t.head?.any Char.isAlpha = false)
      (hnext : word ≠ [] → (t.dropWhile Text.isBlank).head?.any Char.isAlpha = false) (h : Strips names t u) :
      Strips names ('\\' :: word ++ t) ('\\' :: word ++ u)
  | operand {word blanks operand t inner u : Text} (hword : ∀ d ∈ word, d.isAlpha = true) (hblanks : ∀ d ∈ blanks, Text.isBlank d = true)
      (hne : blanks ≠ []) (hoperand : IsOperand names operand t) (hinner : Strips names operand inner) (h : Strips names t u) :
      Strips names ('\\' :: word ++ (blanks ++ (operand ++ t))) ('\\' :: word ++ '{' :: inner ++ '}' :: u)

section
variable {names : List Text} {name word after operand more t u : Text} {opener closer : Char} {opened opened' outer : List Char}

/-! ## Operands -/

/-- The closing length leads to a closing delimiter. -/
theorem exists_of_closingLength {depth n : Nat} (h : closingLength opener closer depth t = some n) :
    ∃ inner rest, t = inner ++ closer :: rest ∧ n = inner.length + 1 := by
  induction t generalizing depth n with
  | nil => cases h
  | cons c t ih =>
    have hmore : ∀ {depth}, (closingLength opener closer depth t).map (· + 1) = some n →
        ∃ inner rest, c :: t = inner ++ closer :: rest ∧ n = inner.length + 1 := by
      intro depth h
      obtain ⟨m, hm, rfl⟩ := Option.map_eq_some_iff.1 h
      obtain ⟨inner, rest, rfl, rfl⟩ := ih hm
      exact ⟨c :: inner, rest, rfl, rfl⟩
    rw [closingLength] at h
    split at h
    · exact hmore h
    · split at h
      · rename_i hcloser
        split at h
        · rw [hcloser]
          exact ⟨[], t, rfl, (Option.some.inj h).symm⟩
        · exact hmore h
      · exact hmore h

/-- The length of a group is that of a pair of delimiters with what stands between. -/
theorem exists_of_groupLength {n : Nat} (h : groupLength t = some n) : ∃ opener closer inner rest, openerOf? closer = some opener ∧
    t = opener :: (inner ++ closer :: rest) ∧ n = inner.length + 2 ∧
      closingLength opener closer 1 (inner ++ closer :: rest) = some (inner.length + 1) := by
  have hgroup : ∀ {opener closer rest}, closingLength opener closer 0 (opener :: rest) = some n → ∃ inner rest',
      opener :: rest = opener :: (inner ++ closer :: rest') ∧ n = inner.length + 2 ∧
        closingLength opener closer 1 (inner ++ closer :: rest') = some (inner.length + 1) := by
    intro opener closer rest h
    rw [closingLength, if_pos rfl] at h
    obtain ⟨m, hm, rfl⟩ := Option.map_eq_some_iff.1 h
    obtain ⟨inner, rest', rfl, rfl⟩ := exists_of_closingLength hm
    exact ⟨inner, rest', rfl, rfl, hm⟩
  unfold groupLength at h
  split at h
  · obtain ⟨inner, rest, heq, hn, hclose⟩ := hgroup h
    exact ⟨'(', ')', inner, rest, rfl, heq, hn, hclose⟩
  · obtain ⟨inner, rest, heq, hn, hclose⟩ := hgroup h
    exact ⟨'\x7b', '\x7d', inner, rest, rfl, heq, hn, hclose⟩
  · cases h

/-- The length of a call is that of an operand. -/
theorem isOperand_of_callLength {n : Nat} (hname : name ∈ names) (h : callLength t name = some n) :
    IsOperand names (t.take n) (t.drop n) := by
  rw [callLength] at h
  split at h
  · rename_i rest hprefix
    obtain ⟨m, hm, rfl⟩ := Option.map_eq_some_iff.1 h
    obtain ⟨opener, closer, inner, rest, hpair, rfl, rfl, hclose⟩ := exists_of_groupLength hm
    rw [Text.isPrefixOf?_eq_some.1 hprefix]
    have hsplit : name ++ opener :: (inner ++ closer :: rest) = (name ++ opener :: inner ++ [closer]) ++ rest := by simp
    have hlength : name.length + (inner.length + 2) = (name ++ opener :: inner ++ [closer]).length := by simp
    rw [hsplit, hlength, List.take_left, List.drop_left]
    exact .call hname hpair hclose
  · cases h

/-- What is set off by white space is an operand. -/
theorem isOperand_of_separated? (h : separated? names word after = some (operand, more)) : IsOperand names operand more := by
  simp only [separated?, Option.ite_none_right_eq_some, Option.some.injEq, Prod.mk.injEq] at h
  obtain ⟨⟨-, -, hletter⟩, rfl, rfl⟩ := h
  rw [operandLength]
  cases hmax : (names.filterMap (callLength (after.dropWhile Text.isBlank))).max? with
  | none =>
    obtain ⟨c, hc, hletter⟩ := (Option.any_eq_true _ _).1 hletter
    obtain ⟨rest, hrest⟩ := List.head?_eq_some_iff.1 hc
    rw [hrest]
    exact .letter hletter
  | some n =>
    obtain ⟨name, hname, hn⟩ := List.mem_filterMap.1 (List.max?_mem hmax)
    exact isOperand_of_callLength hname hn

/-- Stripping goes through a text part by part. -/
theorem strips_stripBlanks (names : List Text) (t : Text) : Strips names t (stripBlanks names t) := by
  have hword : ∀ rest : Text, ∀ d ∈ rest.takeWhile Char.isAlpha, d.isAlpha = true := fun rest d hd =>
    List.all_eq_true.1 List.all_takeWhile d hd
  induction t using stripBlanks.induct names with
  | case1 =>
    rw [stripBlanks]
    exact .nil
  | case2 c rest hblank ih =>
    rw [stripBlanks, if_pos hblank]
    exact .blank hblank ih
  | case3 rest operand more hsep hblank ih₁ ih₂ =>
    have hset := hsep
    simp only [separated?, Option.ite_none_right_eq_some] at hset
    have hsplit : rest.takeWhile Char.isAlpha ++ ((rest.dropWhile Char.isAlpha).takeWhile Text.isBlank ++ (operand ++ more)) = rest := by
      rw [eq_of_separated? hsep, List.takeWhile_append_dropWhile, List.takeWhile_append_dropWhile]
    have hne : (rest.dropWhile Char.isAlpha).takeWhile Text.isBlank ≠ [] := by
      intro hnil
      have hlength := congrArg List.length (List.takeWhile_append_dropWhile (p := Text.isBlank) (l := rest.dropWhile Char.isAlpha))
      rw [hnil, List.nil_append] at hlength
      omega
    have := Strips.operand (hword rest) (fun d hd => List.all_eq_true.1 List.all_takeWhile d hd) hne (isOperand_of_separated? hsep) ih₁ ih₂
    rw [List.cons_append, hsplit] at this
    rw [stripBlanks_command, hsep]
    exact this
  | case4 rest hsep hblank ih =>
    have hend : (rest.dropWhile Char.isAlpha).head?.any Char.isAlpha = false := by
      cases hhead : (rest.dropWhile Char.isAlpha).head? with
      | none => rfl
      | some d => simpa [hhead] using List.head?_dropWhile_not Char.isAlpha rest
    have hnext : rest.takeWhile Char.isAlpha ≠ [] →
        ((rest.dropWhile Char.isAlpha).dropWhile Text.isBlank).head?.any Char.isAlpha = false := by
      intro hne
      rw [← Bool.not_eq_true]
      intro hletter
      by_cases hshort : ((rest.dropWhile Char.isAlpha).dropWhile Text.isBlank).length < (rest.dropWhile Char.isAlpha).length
      · simp only [separated?] at hsep
        rw [if_pos ⟨hne, hshort, hletter⟩] at hsep
        cases hsep
      · rw [(List.dropWhile_suffix _).eq_of_length_le (Nat.le_of_not_lt hshort), hend] at hletter
        cases hletter
    have := Strips.word (hword rest) hend hnext ih
    rw [List.cons_append, List.takeWhile_append_dropWhile] at this
    rw [stripBlanks_command, hsep]
    exact this
  | case5 c rest hblank hslash ih =>
    rw [stripBlanks, if_neg hblank, if_neg hslash]
    exact .char (by simpa using hblank) hslash ih

/-! ## What stripping keeps -/

/-- A stripped text has no blanks. -/
theorem Strips.not_isBlank (h : Strips names t u) : ∀ c ∈ u, Text.isBlank c = false := by
  have hletters : ∀ {word : Text}, (∀ d ∈ word, d.isAlpha = true) → ∀ c ∈ '\\' :: word, Text.isBlank c = false := by
    intro word hword
    exact List.forall_mem_cons.2 ⟨rfl, fun c hc => not_isBlank_of_isAlpha (hword c hc)⟩
  induction h with
  | nil => simp
  | blank _ _ ih => exact ih
  | char hc _ _ ih => exact List.forall_mem_cons.2 ⟨hc, ih⟩
  | word hword _ _ _ ih => exact List.forall_mem_append.2 ⟨hletters hword, ih⟩
  | operand hword _ _ _ _ _ ihinner ih =>
    rw [List.append_assoc, List.cons_append]
    exact List.forall_mem_append.2 ⟨hletters hword, List.forall_mem_cons.2 ⟨rfl, List.forall_mem_append.2 ⟨ihinner,
      List.forall_mem_cons.2 ⟨rfl, ih⟩⟩⟩⟩

/-- Braces may be put around operands behind a common front. -/
theorem Braced.append (v : Text) (h : Braced t u) : Braced (v ++ t) (v ++ u) := by
  induction v with
  | nil => exact h
  | cons c v ih => exact .char c ih

/-- Nothing but pairs of braces is added to what is not white space. -/
theorem Strips.braced (h : Strips names t u) : Braced (t.filter fun c => !Text.isBlank c) u := by
  have hletters : ∀ {word t : Text}, (∀ d ∈ word, d.isAlpha = true) →
      ('\\' :: word ++ t).filter (fun c => !Text.isBlank c) = '\\' :: word ++ t.filter fun c => !Text.isBlank c := by
    intro word t hword
    rw [List.filter_append, List.filter_eq_self.2]
    exact List.forall_mem_cons.2 ⟨rfl, fun c hc => by simp [not_isBlank_of_isAlpha (hword c hc)]⟩
  induction h with
  | nil => exact .nil
  | blank hc _ ih => rwa [List.filter_cons_of_neg (by simp [hc])]
  | @char c _ _ hc _ _ ih =>
    rw [List.filter_cons_of_pos (by simp [hc])]
    exact .char c ih
  | word hword _ _ _ ih =>
    rw [hletters hword]
    exact ih.append _
  | operand hword hblanks _ _ _ _ ihinner ih =>
    rw [hletters hword, List.filter_append, List.filter_append, List.filter_eq_nil_iff.2 fun d hd => by simp [hblanks d hd],
      List.nil_append, List.append_assoc]
    exact (Braced.pair ihinner ih).append _

/-! ## Nesting -/

/-- A text without delimiters is matched. -/
theorem matched_of_plain (h : ∀ c ∈ t, isDelimiter c = false) : Matched t := by
  induction t with
  | nil => exact .nil
  | cons c t ih =>
    obtain ⟨hc, ht⟩ := List.forall_mem_cons.1 h
    exact .plain hc (ih ht)

/-- Letters are matched. -/
theorem matched_of_letters (h : ∀ c ∈ t, c.isAlpha = true) : Matched t :=
  matched_of_plain fun c hc => isDelimiter_of_isAlphanum (by simp [Char.isAlphanum, h c hc])

/-- Blanks are matched. -/
theorem matched_of_blanks (h : ∀ c ∈ t, Text.isBlank c = true) : Matched t := by
  refine matched_of_plain fun c hc => ?_
  rw [← Bool.not_eq_true]
  intro hdelimiter
  have hblank := h c hc
  rw [isDelimiter, Bool.or_eq_true, Option.isSome_iff_exists] at hdelimiter
  rcases hdelimiter with hopener | ⟨opener, hopener⟩
  · simp only [isOpener, Bool.or_eq_true, beq_iff_eq] at hopener
    rcases hopener with (rfl | rfl) | rfl <;> exact absurd hblank (by decide)
  · rcases openerOf?_eq_some hopener with ⟨-, rfl⟩ | ⟨-, rfl⟩ | ⟨-, rfl⟩ <;> exact absurd hblank (by decide)

/-- Counting delimiters of one kind finds the end of a group in a text that goes on to match: the count is one more than the number of
open delimiters of that kind inside of the group. -/
theorem openAfter_of_closingLength {inner : List Char} {last : List Char} {n : Nat} (hpair : openerOf? closer = some opener)
    (hopen : openAfter (inner ++ opener :: outer) t = some last)
    (h : closingLength opener closer (inner.count opener + 1) t = some n) : openAfter (inner ++ [opener]) (t.take n) = some [] := by
  induction t generalizing inner n with
  | nil => cases h
  | cons c t ih =>
    rw [openAfter_cons, Option.bind_eq_some_iff] at hopen
    obtain ⟨between, hturn, hopen⟩ := hopen
    have hgo : ∀ {inner' : List Char}, between = inner' ++ opener :: outer → turn (inner ++ [opener]) c = some (inner' ++ [opener]) →
        (closingLength opener closer (inner'.count opener + 1) t).map (· + 1) = some n →
          openAfter (inner ++ [opener]) ((c :: t).take n) = some [] := by
      intro inner' hbetween hturn' h
      obtain ⟨m, hm, rfl⟩ := Option.map_eq_some_iff.1 h
      rw [List.take_succ_cons, openAfter_cons, hturn', Option.bind_some]
      exact ih (hbetween ▸ hopen) hm
    rw [closingLength] at h
    rcases turn_eq_some hturn with ⟨hc, rfl⟩ | ⟨hc, rfl⟩ | ⟨o, hc, heq⟩
    · have hopener : c ≠ opener := by
        rintro rfl
        simp [isDelimiter, isOpener_iff.2 ⟨_, hpair⟩] at hc
      have hcloser : c ≠ closer := by
        rintro rfl
        simp [isDelimiter, hpair] at hc
      rw [if_neg hopener, if_neg hcloser] at h
      exact hgo rfl (turn_plain hc) h
    · obtain ⟨d, hd⟩ := isOpener_iff.1 hc
      rw [if_neg (opener_ne_closer hd hpair)] at h
      by_cases hopener : c = opener
      · subst hopener
        rw [if_pos rfl, ← List.count_cons_self] at h
        exact hgo (List.cons_append ..).symm (turn_opener hc) h
      · rw [if_neg hopener, ← List.count_cons_of_ne hopener] at h
        exact hgo (List.cons_append ..).symm (turn_opener hc) h
    · rw [if_neg (opener_ne_closer hpair hc).symm] at h
      by_cases hcloser : c = closer
      · obtain rfl : o = opener := Option.some.inj (hc.symm.trans (hcloser ▸ hpair))
        rw [if_pos hcloser] at h
        cases inner with
        | nil =>
          rw [List.count_nil, if_pos (Nat.le_refl 1), Option.some.injEq] at h
          rw [← h]
          simp [openAfter_cons, turn_closer hc]
        | cons d inner =>
          obtain ⟨rfl, hbetween⟩ := List.cons.inj heq
          rw [List.count_cons_self, if_neg (by omega)] at h
          exact hgo hbetween.symm (turn_closer hc) h
      · have hother : o ≠ opener := fun ho => hcloser (closer_unique (ho ▸ hc) hpair)
        rw [if_neg hcloser] at h
        cases inner with
        | nil => exact absurd (List.cons.inj heq).1.symm hother
        | cons d inner =>
          obtain ⟨rfl, hbetween⟩ := List.cons.inj heq
          rw [List.count_cons_of_ne hother] at h
          exact hgo hbetween.symm (turn_closer hc) h

/-- An operand of a text that goes on to match matches. -/
theorem IsOperand.matched (hnames : ∀ name ∈ names, ∀ c ∈ name, c.isAlpha = true) (h : IsOperand names operand t)
    (hopen : openAfter opened (operand ++ t) = some opened') : Matched operand := by
  cases h with
  | letter hc => exact matched_of_letters (by simpa using hc)
  | @call name inner _ opener closer hname hpair hclose =>
    have hletters := matched_of_letters (hnames name hname)
    rw [List.append_assoc, List.append_assoc, openAfter_append, hletters.openAfter, Option.bind_some, List.cons_append, openAfter_cons,
      turn_opener (isOpener_iff.2 ⟨closer, hpair⟩), Option.bind_some, List.singleton_append] at hopen
    have hgroup : openAfter ([] ++ [opener]) _ = some [] := openAfter_of_closingLength hpair hopen hclose
    rw [List.append_assoc]
    refine hletters.append (matched_iff.2 ?_)
    rw [List.cons_append, openAfter_cons, turn_opener (isOpener_iff.2 ⟨closer, hpair⟩), Option.bind_some]
    simpa [List.take_append, List.take_of_length_le] using hgroup

/-- A matched text in braces is matched. -/
theorem Matched.braces (h : Matched t) : Matched ('{' :: t ++ ['}']) := .group (by rfl) h .nil

/-- Stripping leaves the open delimiters as they are. -/
theorem Strips.openAfter (hnames : ∀ name ∈ names, ∀ c ∈ name, c.isAlpha = true) (h : Strips names t u)
    (hopen : openAfter opened t = some opened') : openAfter opened u = some opened' := by
  have hcommand : ∀ {word : Text}, (∀ d ∈ word, d.isAlpha = true) → Matched ('\\' :: word) := fun hword =>
    .plain (by decide) (matched_of_letters hword)
  induction h generalizing opened opened' with
  | nil => exact hopen
  | blank hc _ ih =>
    have hblank := matched_of_blanks (t := [_]) (by simpa using hc)
    rw [← List.singleton_append, openAfter_append, hblank.openAfter, Option.bind_some] at hopen
    exact ih hopen
  | char _ _ _ ih =>
    rw [openAfter_cons, Option.bind_eq_some_iff] at hopen ⊢
    obtain ⟨between, hturn, hopen⟩ := hopen
    exact ⟨between, hturn, ih hopen⟩
  | word hword _ _ _ ih =>
    rw [openAfter_append, (hcommand hword).openAfter, Option.bind_some] at hopen ⊢
    exact ih hopen
  | @operand word _ _ _ inner u hword hblanks _ hoperand _ _ ihinner ih =>
    rw [openAfter_append, (hcommand hword).openAfter, Option.bind_some, openAfter_append, (matched_of_blanks hblanks).openAfter,
      Option.bind_some] at hopen
    have hmatched := hoperand.matched hnames hopen
    rw [openAfter_append, hmatched.openAfter, Option.bind_some] at hopen
    have hinner := matched_iff.2 (ihinner (hmatched.openAfter []))
    have hparts : '\\' :: word ++ '{' :: inner ++ '}' :: u = '\\' :: word ++ (('{' :: inner ++ ['}']) ++ u) := by simp
    rw [hparts, openAfter_append, (hcommand hword).openAfter, Option.bind_some, openAfter_append, hinner.braces.openAfter, Option.bind_some]
    exact ih hopen

/-! ## Command words -/

/-- A command before something other than a letter is the first word. -/
theorem words_command (hword : ∀ d ∈ word, d.isAlpha = true) (hend : t.head?.any Char.isAlpha = false) :
    Command.words ('\\' :: word ++ t) = word :: Command.words t := by
  have hrest : Command.words (word ++ t) = Command.words t := by
    induction word with
    | nil => rfl
    | cons d word ih =>
      obtain ⟨hd, hword⟩ := List.forall_mem_cons.1 hword
      rw [List.cons_append, Command.words, if_neg (by rintro rfl; simp at hd), ih hword]
  have hnone : t.takeWhile Char.isAlpha = [] := by
    cases t with
    | nil => rfl
    | cons c t => exact List.takeWhile_cons_of_neg (by simpa using hend)
  rw [List.cons_append, Command.words, if_pos rfl, List.takeWhile_append_of_pos hword, hnone, List.append_nil, hrest]

/-- Blanks before a text do not change its words. -/
theorem words_blanks {blanks : Text} (hblanks : ∀ d ∈ blanks, Text.isBlank d = true) (t : Text) :
    Command.words (blanks ++ t) = Command.words t := by
  induction blanks with
  | nil => rfl
  | cons d blanks ih =>
    obtain ⟨hd, hblanks⟩ := List.forall_mem_cons.1 hblanks
    rw [List.cons_append, Command.words, if_neg (by rintro rfl; exact absurd hd (by decide)), ih hblanks]

/-- No command word of an operand goes on behind it. -/
theorem IsOperand.words (h : IsOperand names operand t) : Command.words (operand ++ t) = Command.words operand ++ Command.words t := by
  cases h with
  | @letter c _ hc =>
    have hslash : c ≠ '\\' := by
      rintro rfl
      simp at hc
    simp [Command.words, hslash]
  | @call name inner _ opener closer _ hpair _ =>
    have hsign : closer.isAlpha = false ∧ closer ≠ '\\' := by
      rcases openerOf?_eq_some hpair with ⟨-, rfl⟩ | ⟨-, rfl⟩ | ⟨-, rfl⟩ <;> decide
    rw [List.append_assoc, List.singleton_append, words_append_sign hsign.1 hsign.2, words_append_sign hsign.1 hsign.2, Command.words,
      List.append_nil]

/-- The text goes on with the first character that is not white space. -/
theorem Strips.head? (h : Strips names t u) : u.head? = (t.dropWhile Text.isBlank).head? := by
  induction h with
  | nil => rfl
  | blank hc _ ih => rwa [List.dropWhile_cons_of_pos hc]
  | char hc => rw [List.dropWhile_cons_of_neg (by simp [hc])]; rfl
  | word => rfl
  | operand => rfl

/-- Stripping keeps the command words, unless it moves letters to a backslash. -/
theorem Strips.words (h : Strips names t u) (hbare : ∀ c, ['\\', c] <:+: t → Text.isBlank c = false) :
    Command.words u = Command.words t := by
  induction h with
  | nil => rfl
  | @blank c t u hc _ ih =>
    have hslash : c ≠ '\\' := by
      rintro rfl
      exact absurd hc (by decide)
    rw [Command.words, if_neg hslash]
    exact ih fun d hd => hbare d (hd.trans (List.suffix_cons _ _).isInfix)
  | @char c t u hc hslash _ ih =>
    rw [Command.words, Command.words, if_neg hslash, if_neg hslash]
    exact ih fun d hd => hbare d (hd.trans (List.suffix_cons _ _).isInfix)
  | @word word t u hword hend hnext h ih =>
    have hsuffix : t <:+: '\\' :: word ++ t := (List.suffix_append _ _).isInfix
    have hu : u.head?.any Char.isAlpha = false := by
      rw [h.head?]
      by_cases hne : word = []
      · subst hne
        -- what follows the backslash is no white space
        cases t with
        | nil => rfl
        | cons c t =>
          have hc := hbare c (List.prefix_append ['\\', c] t).isInfix
          rwa [List.dropWhile_cons_of_neg (by simp [hc])]
      · exact hnext hne
    rw [words_command hword hu, words_command hword hend, ih fun d hd => hbare d (hd.trans hsuffix)]
  | @operand word blanks operand t inner u hword hblanks hne hoperand _ _ ihinner ih =>
    have hrest : operand ++ t <:+: '\\' :: word ++ (blanks ++ (operand ++ t)) := by
      rw [← List.append_assoc]
      exact (List.suffix_append _ _).isInfix
    have hblank : (blanks ++ (operand ++ t)).head?.any Char.isAlpha = false := by
      obtain ⟨d, blanks, rfl⟩ := List.exists_cons_of_ne_nil hne
      have hd := hblanks d List.mem_cons_self
      rw [List.cons_append, List.head?_cons, Option.any_some, ← Bool.not_eq_true]
      intro hletter
      rw [not_isBlank_of_isAlpha hletter] at hd
      cases hd
    have hparts : '\\' :: word ++ '{' :: inner ++ '}' :: u = '\\' :: word ++ ([] ++ '{' :: (inner ++ '}' :: u)) := by simp
    rw [words_command hword hblank, words_blanks hblanks, hoperand.words, hparts, words_command hword (by rfl),
      words_append_sign (by decide) (by decide), words_append_sign (by decide) (by decide),
      ihinner fun d hd => hbare d (hd.trans ((List.prefix_append _ _).isInfix.trans hrest)),
      ih fun d hd => hbare d (hd.trans ((List.suffix_append _ _).isInfix.trans hrest))]
    rfl

end

/-- A text without its white space has no white space, is the text up to white space and added pairs of braces, matches when the text does,
and is stripped already. It has the command words of the text, unless white space stands right behind a backslash. -/
theorem stripBlanks_keeps (functions : List UserFunction) (t : Text) :
    let names := functions.map UserFunction.name
    (∀ c ∈ stripBlanks names t, Text.isBlank c = false) ∧
    Braced (t.filter fun c => !Text.isBlank c) (stripBlanks names t) ∧
    (Matched t → Matched (stripBlanks names t)) ∧
    stripBlanks names (stripBlanks names t) = stripBlanks names t ∧
    ((∀ c, ['\\', c] <:+: t → Text.isBlank c = false) → Command.words (stripBlanks names t) = Command.words t) := by
  intro names
  have hnames : ∀ name ∈ names, ∀ c ∈ name, c.isAlpha = true := by
    intro name hname
    obtain ⟨f, -, rfl⟩ := List.mem_map.1 hname
    exact List.all_eq_true.1 f.letters
  have hstrips := strips_stripBlanks names t
  refine ⟨hstrips.not_isBlank, hstrips.braced, fun hmatched => ?_, stripBlanks_eq_self names hstrips.not_isBlank, hstrips.words⟩
  exact matched_iff.2 (hstrips.openAfter hnames (hmatched.openAfter []))

example : stripBlanks ["fib".toList] "2 \\pm fib(\\pi x)".toList = "2\\pm\x7bfib(\\pi\x7bx\x7d)\x7d".toList := by decide +kernel

end Source

end FormulaDag
