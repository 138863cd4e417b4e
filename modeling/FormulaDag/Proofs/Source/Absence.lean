import FormulaDag.Proofs.Rule.Alignment
import FormulaDag.Proofs.Source.Protection
import FormulaDag.Source.Spacing
import FormulaDag.Source.WellFormed

/-!
# Names that a text lacks

A function of the user whose name occurs nowhere in a source text has no influence on how the text is read: on where white space is taken
away, on which letters are protected, and on the faults that the source and its variables may have. A name is a run of letters, so texts
that lack it may be taken apart anywhere and put together again at any other character.
-/

namespace FormulaDag

namespace Text

/-- A word occurs nowhere in a text. -/
def Lacks (word t : Text) : Prop := ¬ word <:+: t

/-- A word that may be the name of a function: a nonempty run of letters. -/
structure IsName (word : Text) : Prop where
  nonempty : word ≠ []
  letters : ∀ c ∈ word, c.isAlpha = true

/-- A word that is absent from a text is absent from its parts. -/
theorem Lacks.part {word t u : Text} (h : Lacks word t) (hu : u <:+: t) : Lacks word u := fun hw => h (hw.trans hu)

/-- A text that lacks a word has no suffix that begins with it. -/
theorem Lacks.isPrefixOf? {word t : Text} (h : Lacks word t) : word.isPrefixOf? t = none := by
  cases hp : word.isPrefixOf? t with
  | none => rfl
  | some rest => exact absurd ⟨[], rest, by rw [List.nil_append, Text.isPrefixOf?_eq_some.1 hp]⟩ h

section
variable {word : Text} (hword : IsName word)
include hword

/-- A name is absent from the empty text. -/
theorem IsName.lacks_nil : Lacks word [] := fun h => hword.nonempty (List.infix_nil.1 h)

/-- A name is absent from a text without letters. -/
theorem IsName.lacks_of_no_letter {t : Text} (h : ∀ c ∈ t, c.isAlpha = false) : Lacks word t := by
  intro hw
  obtain ⟨c, rest, rfl⟩ := List.exists_cons_of_ne_nil hword.nonempty
  have hletter := hword.letters c (by simp)
  rw [h c (hw.subset (by simp))] at hletter
  cases hletter

/-- No name reaches across a character that is no letter. -/
theorem IsName.lacks_join {x y : Text} (hx : Lacks word x) (hy : Lacks word y) {c : Char} (hc : c.isAlpha = false) :
    Lacks word (x ++ c :: y) := by
  have hmem : c ∉ word := by
    intro hmem
    rw [hword.letters c hmem] at hc
    cases hc
  rintro ⟨a, b, hab⟩
  rw [List.append_eq_append_iff] at hab
  rcases hab with ⟨w, hxw, -⟩ | ⟨w, haw, hyw⟩
  · exact hx ⟨a, w, hxw.symm⟩
  · cases w with
    | nil => exact hx ⟨a, [], by simpa using haw⟩
    | cons d w =>
      obtain ⟨rfl, rfl⟩ := List.cons.inj hyw
      rw [List.append_eq_append_iff] at haw
      rcases haw with ⟨v, -, hv⟩ | ⟨v, -, hv⟩
      · exact hmem (by simp [hv])
      · cases v with
        | nil => exact hmem (by rw [← hv.trans (List.nil_append _)]; simp)
        | cons e v =>
          obtain ⟨-, rfl⟩ := List.cons.inj hv
          exact hy ⟨v, b, by simp⟩

end

end Text

namespace Source

section
variable {name : Text} {before after : List Text}

/-! ## White space -/

/-- An absent name does not change the length of the operand. -/
theorem operandLength_insert {t : Text} (h : name.Lacks t) : operandLength (before ++ name :: after) t = operandLength (before ++ after) t := by
  have hcall : callLength t name = none := by
    rw [callLength, h.isPrefixOf?]
  simp only [operandLength, List.filterMap_append, List.filterMap_cons_none hcall]

/-- An absent name does not change what is separated from a command. -/
theorem separated?_insert {word t : Text} (h : name.Lacks t) :
    separated? (before ++ name :: after) word t = separated? (before ++ after) word t := by
  have hnext : name.Lacks (t.dropWhile Text.isBlank) := h.part (List.dropWhile_suffix _).isInfix
  simp only [separated?, operandLength_insert hnext]

/-- What is separated stands in the text after the word. -/
theorem infix_of_separated? {names : List Text} {word t operand rest : Text} (h : separated? names word t = some (operand, rest)) :
    operand <:+: t ∧ rest <:+: t := by
  simp only [separated?, Option.ite_none_right_eq_some, Option.some.injEq, Prod.mk.injEq] at h
  obtain ⟨-, rfl, rfl⟩ := h
  have hnext : t.dropWhile Text.isBlank <:+: t := (List.dropWhile_suffix _).isInfix
  exact ⟨(List.take_prefix _ _).isInfix.trans hnext, (List.drop_suffix _ _).isInfix.trans hnext⟩

/-- Blanks behind a command are stripped by what is separated from it. -/
theorem stripBlanks_command (names : List Text) (rest : Text) : stripBlanks names ('\\' :: rest) =
    match separated? names (rest.takeWhile Char.isAlpha) (rest.dropWhile Char.isAlpha) with
    | some (operand, after) =>
      '\\' :: rest.takeWhile Char.isAlpha ++ '{' :: stripBlanks names operand ++ '}' :: stripBlanks names after
    | none => '\\' :: rest.takeWhile Char.isAlpha ++ stripBlanks names (rest.dropWhile Char.isAlpha) := by
  rw [stripBlanks, if_neg (by decide), if_pos rfl]
  split
  · rename_i hsep
    rw [hsep]
  · rename_i hsep
    rw [hsep]

/-- White space is taken away in the same way. -/
theorem stripBlanks_insert {t : Text} (h : name.Lacks t) : stripBlanks (before ++ name :: after) t = stripBlanks (before ++ after) t := by
  induction t using stripBlanks.induct (before ++ after) with
  | case1 => rw [stripBlanks, stripBlanks]
  | case2 c rest hblank ih =>
    rw [stripBlanks, stripBlanks, if_pos hblank, if_pos hblank, ih (h.part (List.suffix_cons _ _).isInfix)]
  | case3 rest operand more hsep hblank ih₁ ih₂ =>
    have hrest : name.Lacks (rest.dropWhile Char.isAlpha) :=
      h.part ((List.dropWhile_suffix _).trans (List.suffix_cons _ _)).isInfix
    obtain ⟨hoperand, hmore⟩ := infix_of_separated? hsep
    rw [stripBlanks_command, stripBlanks_command, separated?_insert hrest, hsep]
    simp only
    rw [ih₁ (hrest.part hoperand), ih₂ (hrest.part hmore)]
  | case4 rest hsep hblank ih =>
    have hrest : name.Lacks (rest.dropWhile Char.isAlpha) :=
      h.part ((List.dropWhile_suffix _).trans (List.suffix_cons _ _)).isInfix
    rw [stripBlanks_command, stripBlanks_command, separated?_insert hrest, hsep]
    simp only
    rw [ih hrest]
  | case5 c rest hblank hslash ih =>
    rw [stripBlanks, stripBlanks, if_neg hblank, if_neg hblank, if_neg hslash, if_neg hslash,
      ih (h.part (List.suffix_cons _ _).isInfix)]

/-! ## Protected letters -/

/-- The mask of a name that does not occur. -/
theorem nameMask_of_lacks {t : Text} (h : name.Lacks t) : nameMask name 0 t = t.map fun _ => false := by
  induction t with
  | nil => rfl
  | cons c rest ih =>
    have hfront : name.isPrefixOf (c :: rest) = false := by
      rw [Bool.eq_false_iff, Ne, List.isPrefixOf_iff_prefix]
      exact fun hp => h hp.isInfix
    rw [nameMask, hfront, ih (h.part (List.suffix_cons _ _).isInfix)]
    rfl

/-- A mask joined with one of nothing stays as it is. -/
theorem zipWith_or_false {t : Text} {mask : List Bool} (h : mask.length = t.length) :
    mask.zipWith (· || ·) (t.map fun _ => false) = mask := by
  induction mask generalizing t with
  | nil => rfl
  | cons b mask ih =>
    cases t with
    | nil => simp at h
    | cons c t =>
      rw [List.map_cons, List.zipWith_cons_cons, ih (by simpa using h), Bool.or_false]

/-- An absent name does not change what is protected. -/
theorem protection_insert {t : Text} (h : name.Lacks t) : protection (before ++ name :: after) t = protection (before ++ after) t := by
  have hlength : (protection before t).length = t.length := length_protection before t
  rw [protection] at hlength
  rw [protection, protection, List.foldl_append, List.foldl_append, List.foldl_cons, nameMask_of_lacks h, zipWith_or_false hlength]

/-- The same letters are protected. -/
theorem marked_insert {t : Text} (h : name.Lacks t) : marked (before ++ name :: after) t = marked (before ++ after) t := by
  rw [marked, marked, protection_insert h]

end

/-! ## Faults -/

/-- The words of commands stand in the text. -/
theorem infix_of_mem_words {t word : Text} (h : word ∈ Command.words t) : word <:+: t := by
  induction t with
  | nil => simp [Command.words] at h
  | cons c rest ih =>
    rw [Command.words] at h
    split at h
    · rcases List.mem_cons.1 h with rfl | h
      · exact (List.takeWhile_prefix _).isInfix.trans (List.suffix_cons _ _).isInfix
      · exact (ih h).trans (List.suffix_cons _ _).isInfix
    · exact (ih h).trans (List.suffix_cons _ _).isInfix

section
variable {s s' : RuleSet} {f : UserFunction} {before after : List UserFunction} (hs : s.functions = before ++ after)
  (hs' : s'.functions = before ++ f :: after)
include hs hs'

/-- A function with an absent name does not change how blanks are stripped. -/
theorem stripBlanks_functionNames {t : Text} (h : f.name.Lacks t) : stripBlanks s'.functionNames t = stripBlanks s.functionNames t := by
  rw [RuleSet.functionNames, RuleSet.functionNames, hs, hs', List.map_append, List.map_append, List.map_cons, stripBlanks_insert h]

/-- A function with an absent name does not change which characters are marked. -/
theorem marked_functionNames {t : Text} (h : f.name.Lacks t) : marked s'.functionNames t = marked s.functionNames t := by
  rw [RuleSet.functionNames, RuleSet.functionNames, hs, hs', List.map_append, List.map_append, List.map_cons, marked_insert h]

/-- A function with another name does not make a word a command. -/
theorem isCommand_insert {word : Text} (h : word ≠ f.name) : s'.isCommand word = s.isCommand word := by
  have hfunction : s'.isFunction word = s.isFunction word := by
    rw [Bool.eq_iff_iff]
    simp [RuleSet.isFunction, RuleSet.functionNames, hs, hs', h]
  rw [RuleSet.isCommand, RuleSet.isCommand, hfunction]

/-- The same variables are declared. -/
theorem declare_insert {names : List Text} (h : f.name ∉ names) : declare s' names = declare s names := by
  have hafter : ∀ declared, declareAfter s' declared names = declareAfter s declared names := by
    induction names with
    | nil => exact fun _ => rfl
    | cons name rest ih =>
      rw [List.mem_cons, not_or] at h
      have hletter : ∀ declared, letter? s' declared name = letter? s declared name := by
        intro declared
        unfold letter?
        split
        · rw [isCommand_insert hs hs' (Ne.symm h.1)]
        · rfl
      intro declared
      rw [declareAfter, declareAfter, hletter]
      cases letter? s declared name with
      | none => rfl
      | some c => exact ih h.2 _
  exact hafter []

/-- The source has the same fault or none. -/
theorem fault?_insert {t : Text} (h : f.name.Lacks t) (letters : List Char) : fault? s' letters t = fault? s letters t := by
  have hunsupported : unsupported s' t = unsupported s t := by
    refine congrArg (List.map ('\\' :: ·)) (List.filter_congr fun word hword => ?_)
    rw [isCommand_insert hs hs']
    rintro rfl
    exact h (infix_of_mem_words hword)
  have hundeclared : undeclared? s' letters t = undeclared? s letters t := by
    rw [undeclared?, undeclared?, marked_functionNames hs hs' h]
  rw [fault?, fault?, hunsupported, hundeclared]

end

end Source

end FormulaDag
