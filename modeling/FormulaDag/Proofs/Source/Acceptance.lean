import FormulaDag.Proofs.Source.Delimiters
import FormulaDag.Proofs.Source.Substitution
import FormulaDag.Proofs.Source.Words

/-!
# Which source texts are accepted

Five conditions make a source text acceptable. They are stated here by places of the text: which characters stand there, which letters
follow a backslash, which letters no command word and no occurrence of a name takes up. The check of a text decides these conditions one
after the other and answers the fault of the first one that fails.
-/

namespace FormulaDag

namespace Source

/-! ## Places outside of commands and names -/

/-- The first occurrence of a name in a text, given by what stands before it and after it. -/
structure IsFirst (name before after t : Text) : Prop where
  split : t = before ++ (name ++ after)
  first : ∀ before' after', t = before' ++ (name ++ after') → before.length ≤ before'.length

/-- A place of a text lies in an occurrence of a name. Occurrences are taken from left to right, each behind the one before it. -/
inductive Covers (name : Text) : Text → Nat → Prop where
  | here {before after t : Text} {i : Nat} (h : IsFirst name before after t) (hle : before.length ≤ i)
      (hlt : i < before.length + name.length) : Covers name t i
  | later {before after t : Text} {i : Nat} (h : IsFirst name before after t) (hi : Covers name after i) :
      Covers name t (before.length + name.length + i)

/-- The place of a character of a text lies neither in a command word, that is behind a backslash and letters, nor in an occurrence of a
name. -/
structure Free (names : List Text) (before : Text) (c : Char) (after : Text) : Prop where
  command : ¬∃ front letters, before = front ++ '\\' :: letters ∧ ∀ d ∈ letters, d.isAlpha = true
  name : ∀ name ∈ names, ¬Covers name (before ++ c :: after) before.length

section
variable {names : List Text} {name before after rest t : Text} {c : Char} {i : Nat}

/-- A place is inside a command word when letters lead back from it to a backslash. -/
theorem isInside_iff : Command.isInside before.reverse = true ↔
    ∃ front letters, before = front ++ '\\' :: letters ∧ ∀ d ∈ letters, d.isAlpha = true := by
  rw [Command.isInside, beq_iff_eq]
  constructor
  · intro h
    obtain ⟨behind, hbehind⟩ := List.head?_eq_some_iff.1 h
    have hsplit := List.takeWhile_append_dropWhile (p := Char.isAlpha) (l := before.reverse)
    rw [hbehind] at hsplit
    refine ⟨behind.reverse, (before.reverse.takeWhile Char.isAlpha).reverse, ?_, fun d hd =>
      List.all_eq_true.1 List.all_takeWhile d (List.mem_reverse.1 hd)⟩
    simpa using (congrArg List.reverse hsplit).symm
  · rintro ⟨front, letters, rfl, hletters⟩
    rw [List.reverse_append, List.reverse_cons, List.append_assoc,
      List.dropWhile_append_of_pos fun d hd => hletters d (List.mem_reverse.1 hd)]
    rfl

/-- Characters of a name that are still pending are marked. -/
theorem nameMask_pending (name t u : Text) :
    nameMask name t.length (t ++ u) = List.replicate t.length true ++ nameMask name 0 u := by
  induction t with
  | nil => rfl
  | cons c t ih => rw [List.cons_append, List.length_cons, nameMask, ih, List.replicate_succ, List.cons_append]

/-- Where a name begins, its characters are marked and the search goes on behind it. -/
theorem nameMask_name_append (hne : name ≠ []) (after : Text) :
    nameMask name 0 (name ++ after) = List.replicate name.length true ++ nameMask name 0 after := by
  obtain ⟨c, rest, rfl⟩ := List.exists_cons_of_ne_nil hne
  rw [List.cons_append, nameMask, if_pos (by simp [List.isPrefixOf_iff_prefix]), List.length_cons, Nat.add_sub_cancel, nameMask_pending,
    List.replicate_succ, List.cons_append]

/-- Where a text begins with a name, its first occurrence is there. -/
theorem covers_name_append : Covers name (name ++ after) i ↔ i < name.length ∨ ∃ j, i = name.length + j ∧ Covers name after j := by
  have hfirst : IsFirst name [] after (name ++ after) := ⟨rfl, fun _ _ _ => Nat.zero_le _⟩
  have hunique : ∀ {before after'}, IsFirst name before after' (name ++ after) → before = [] ∧ after' = after := by
    intro before after' h
    have hnil : before = [] := List.eq_nil_of_length_eq_zero (Nat.le_zero.1 (h.first [] after rfl))
    have hsplit := h.split
    rw [hnil, List.nil_append, List.append_cancel_left_eq] at hsplit
    exact ⟨hnil, hsplit.symm⟩
  constructor
  · intro h
    generalize ht : name ++ after = t at h
    cases h with
    | here h hle hlt =>
      subst ht
      obtain ⟨rfl, -⟩ := hunique h
      exact .inl (by simpa using hlt)
    | @later before after' _ j h hj =>
      subst ht
      obtain ⟨rfl, rfl⟩ := hunique h
      exact .inr ⟨j, by simp, hj⟩
  · rintro (hlt | ⟨j, rfl, hj⟩)
    · exact .here hfirst (Nat.zero_le _) (by simpa using hlt)
    · simpa using Covers.later hfirst hj

/-- Where a text does not begin with a name, the occurrences are those in what follows its first character. -/
theorem covers_cons (hne : ¬name <+: c :: rest) : Covers name (c :: rest) i ↔ ∃ j, i = j + 1 ∧ Covers name rest j := by
  have hback : ∀ {before after}, IsFirst name before after (c :: rest) →
      ∃ before', before = c :: before' ∧ IsFirst name before' after rest := by
    intro before after h
    cases before with
    | nil => exact absurd ⟨after, h.split.symm⟩ hne
    | cons d before =>
      obtain ⟨rfl, hsplit⟩ := List.cons.inj h.split
      exact ⟨before, rfl, hsplit, fun before' after' heq =>
        Nat.le_of_succ_le_succ (h.first (c :: before') after' (by rw [heq, List.cons_append]))⟩
  have hforth : ∀ {before after}, IsFirst name before after rest → IsFirst name (c :: before) after (c :: rest) := by
    intro before after h
    refine ⟨by rw [h.split, List.cons_append], fun before' after' heq => ?_⟩
    cases before' with
    | nil => exact absurd ⟨after', heq.symm⟩ hne
    | cons d before' => exact Nat.succ_le_succ (h.first before' after' (List.cons.inj heq).2)
  constructor
  · intro h
    generalize ht : c :: rest = t at h
    cases h with
    | here h hle hlt =>
      subst ht
      obtain ⟨before, rfl, hrest⟩ := hback h
      rw [List.length_cons] at hle hlt
      have hcovers : Covers name rest (i - 1) := .here hrest (by omega) (by omega)
      exact ⟨i - 1, by omega, hcovers⟩
    | @later before after _ j h hj =>
      subst ht
      obtain ⟨before, rfl, hrest⟩ := hback h
      exact ⟨before.length + name.length + j, by rw [List.length_cons]; omega, .later hrest hj⟩
  · rintro ⟨j, rfl, hj⟩
    cases hj with
    | here h hle hlt => exact .here (hforth h) (by simpa using hle) (by rw [List.length_cons]; omega)
    | @later before after _ k h hk =>
      have := Covers.later (hforth h) hk
      rw [List.length_cons] at this
      convert this using 1
      omega

/-- The mask of a name flags the places in its occurrences. -/
theorem getElem?_nameMask_iff (hne : name ≠ []) : (nameMask name 0 t)[i]? = some true ↔ Covers name t i := by
  induction hn : t.length using Nat.strong_induction_on generalizing t i with
  | _ n ih =>
    subst hn
    by_cases hp : name <+: t
    · obtain ⟨after, rfl⟩ := hp
      have hpos := List.length_pos_of_ne_nil hne
      rw [nameMask_name_append hne, covers_name_append]
      by_cases hi : i < name.length
      · simp [hi, List.getElem?_append_left]
      · obtain ⟨j, rfl⟩ := Nat.exists_eq_add_of_le (Nat.le_of_not_lt hi)
        rw [List.getElem?_append_right (by simp), List.length_replicate, Nat.add_sub_cancel_left,
          ih after.length (by rw [List.length_append]; omega) rfl]
        constructor
        · exact fun h => .inr ⟨j, rfl, h⟩
        · rintro (hlt | ⟨k, hk, h⟩)
          · exact absurd hlt hi
          · rwa [Nat.add_left_cancel hk]
    · cases t with
      | nil =>
        refine ⟨by simp [nameMask], fun h => ?_⟩
        have hnone : ∀ {before after}, ¬IsFirst name before after [] := fun h =>
          hne (List.append_eq_nil_iff.1 (List.append_eq_nil_iff.1 h.split.symm).2).1
        cases h with
        | here h => exact absurd h hnone
        | later h => exact absurd h hnone
      | cons c rest =>
        rw [nameMask, if_neg (by rwa [List.isPrefixOf_iff_prefix]), covers_cons hp]
        cases i with
        | zero => simp
        | succ i =>
          rw [List.getElem?_cons_succ, ih rest.length (by simp) rfl]
          simp

/-- A letter is unprotected when its place is free. -/
theorem free_iff (hnames : ∀ name ∈ names, name ≠ []) (hc : c.isAlpha = true) :
    (protection names (before ++ c :: after))[before.length]? = some false ↔ Free names before c after := by
  have hname : ∀ name ∈ names, (nameMask name 0 (before ++ c :: after))[before.length]? = some false ↔
      ¬Covers name (before ++ c :: after) before.length := by
    intro name hmem
    rw [← getElem?_nameMask_iff (hnames name hmem)]
    have hlt : before.length < (nameMask name 0 (before ++ c :: after)).length := by simp [length_nameMask]
    rw [List.getElem?_eq_getElem hlt]
    simp
  rw [getElem?_protection_eq_false, getElem?_commandMask false before after hc, Bool.and_false, Bool.or_false, Option.some.injEq,
    ← Bool.not_eq_true, isInside_iff]
  exact ⟨fun ⟨hcommand, h⟩ => ⟨hcommand, fun name hmem => (hname name hmem).1 (h name hmem)⟩, fun ⟨hcommand, h⟩ =>
    ⟨hcommand, fun name hmem => (hname name hmem).2 (h name hmem)⟩⟩

end

/-! ## The conditions -/

/-- The characters that source texts are made of. -/
def Allowed (c : Char) : Prop := c.isAlphanum = true ∨ c ∈ "+-*/.^_\\()\x7b\x7d[]".toList

/-- The letters of the command that a text begins with. -/
def command? : Text → Option Text
  | '\\' :: rest => some (rest.takeWhile Char.isAlpha)
  | _ => none

/-- A letter at a place of a text that is free and not declared. -/
structure Undeclared (s : RuleSet) (declared : List Char) (before : Text) (c : Char) (after : Text) : Prop where
  letter : c.isAlpha = true
  free : Free s.functionNames before c after
  notMem : c ∉ declared

/-- The conditions on a source text, by what they are about. -/
inductive Condition where
  | presence
  | characters
  | groups
  | commands
  | letters

namespace Condition

/-- The conditions in the order in which they are checked. -/
def all : List Condition := [presence, characters, groups, commands, letters]

theorem mem_all (k : Condition) : k ∈ all := by cases k <;> simp [all]

/-- What a condition asks of a text: that there is one; that its characters are allowed; that its groups match and are not empty; that
every backslash begins a command that is reserved or names a function; and that every other letter is declared. -/
def Holds (s : RuleSet) (declared : List Char) (t : Text) : Condition → Prop
  | presence => t ≠ []
  | characters => ∀ c ∈ t, Allowed c
  | groups => Matched t ∧ Filled t
  | commands => ∀ before after, t = before ++ '\\' :: after →
      after.takeWhile Char.isAlpha ≠ [] ∧ s.isCommand (after.takeWhile Char.isAlpha) = true
  | letters => ∀ before c after, t = before ++ c :: after → c.isAlpha = true → Free s.functionNames before c after → c ∈ declared

/-- The fault of a text that does not meet a condition. -/
def Refuses (s : RuleSet) (declared : List Char) (t : Text) : Condition → SourceFault → Prop
  | presence, fault => fault = .malformed .empty
  | characters, fault => ∃ before c after, t = before ++ c :: after ∧ ¬Allowed c ∧ (∀ d ∈ before, Allowed d) ∧ fault = .unknownSymbol c
  | groups, fault => ∃ shape, Misnested t shape ∧ fault = .malformed shape
  | commands, fault =>
      (∃ before after, t = before ++ '\\' :: after ∧ after.takeWhile Char.isAlpha = []) ∧ fault = .malformed .bareBackslash ∨
      (∀ before after, t = before ++ '\\' :: after → after.takeWhile Char.isAlpha ≠ []) ∧
        fault = .unsupported (((t.tails.filterMap command?).filter fun word => !s.isCommand word).map ('\\' :: ·))
  | letters, fault => ∃ before c after, t = before ++ c :: after ∧ Undeclared s declared before c after ∧
      (∀ before' d after', t = before' ++ d :: after' → before'.length < before.length → ¬Undeclared s declared before' d after') ∧
      fault = if declared = [] then .notConstant else .unknownSymbol c

/-- The check of one condition. -/
def check (s : RuleSet) (declared : List Char) (t : Text) : Condition → Option SourceFault
  | presence => if t = [] then some (.malformed .empty) else none
  | characters => (t.find? fun c => !isSourceChar c).map .unknownSymbol
  | groups => (groupFault [] none t).map .malformed
  | commands =>
    if (Command.words t).contains [] then some (.malformed .bareBackslash)
    else if unsupported s t ≠ [] then some (.unsupported (unsupported s t)) else none
  | letters => (undeclared? s declared t).map fun c => if declared = [] then .notConstant else .unknownSymbol c

end Condition

open Condition (Holds Refuses check)

section
variable {s : RuleSet} {declared : List Char} {t : Text} {fault : SourceFault}

/-- The check of a text is that of the conditions one after the other. -/
theorem fault?_eq_findSome? : fault? s declared t = Condition.all.findSome? (check s declared t) := by
  by_cases hne : t = []
  · simp [fault?, Condition.all, check, hne]
  cases hchars : t.find? fun c => !isSourceChar c with
  | some c => simp [fault?, Condition.all, check, hne, hchars]
  | none =>
    cases hgroups : groupFault [] none t with
    | some shape => simp [fault?, Condition.all, check, hne, hchars, hgroups]
    | none =>
      by_cases hbare : [] ∈ Command.words t
      · simp [fault?, Condition.all, check, hne, hchars, hgroups, hbare]
      by_cases hunsupported : unsupported s t = []
      · cases hletters : undeclared? s declared t with
        | none => simp [fault?, Condition.all, check, hne, hchars, hgroups, hbare, hunsupported, hletters]
        | some c => simp [fault?, Condition.all, check, hne, hchars, hgroups, hbare, hunsupported, hletters]
      · simp [fault?, Condition.all, check, hne, hchars, hgroups, hbare, hunsupported]

/-- The characters of a source are the allowed ones. -/
theorem isSourceChar_iff {c : Char} : isSourceChar c = true ↔ Allowed c := by
  rw [isSourceChar, Allowed, Bool.or_eq_true, List.contains_iff_mem]

/-- The check of presence passes exactly when there is something. -/
theorem check_presence_eq_none_iff : check s declared t .presence = none ↔ Holds s declared t .presence := by
  simp [check, Holds]

/-- The check of presence fails with the fault of an empty source. -/
theorem check_presence_eq_some_iff : check s declared t .presence = some fault ↔
    ¬Holds s declared t .presence ∧ Refuses s declared t .presence fault := by
  simp [check, Holds, Refuses, eq_comm]

/-- The check of characters passes exactly when all are allowed. -/
theorem check_characters_eq_none_iff : check s declared t .characters = none ↔ Holds s declared t .characters := by
  simp [check, Holds, isSourceChar_iff]

/-- The check of characters fails with the first that is not allowed. -/
theorem check_characters_eq_some_iff : check s declared t .characters = some fault ↔ Refuses s declared t .characters fault := by
  rw [check, Option.map_eq_some_iff]
  constructor
  · rintro ⟨c, hc, rfl⟩
    obtain ⟨hbad, before, after, ht, hbefore⟩ := List.find?_eq_some_iff_append.1 hc
    exact ⟨before, c, after, ht, by simpa [← isSourceChar_iff] using hbad, fun d hd => isSourceChar_iff.1 (by simpa using hbefore d hd), rfl⟩
  · rintro ⟨before, c, after, ht, hbad, hbefore, rfl⟩
    refine ⟨c, List.find?_eq_some_iff_append.2 ⟨?_, before, after, ht, fun d hd => by simp [isSourceChar_iff.2 (hbefore d hd)]⟩, rfl⟩
    simpa [← isSourceChar_iff] using hbad

/-- The check of groups passes exactly when the delimiters match. -/
theorem check_groups_eq_none_iff : check s declared t .groups = none ↔ Holds s declared t .groups := by
  rw [check, Option.map_eq_none_iff, groupFault_eq_none_iff, Holds]

/-- The check of groups fails with the first delimiter that breaks them. -/
theorem check_groups_eq_some_iff : check s declared t .groups = some fault ↔ Refuses s declared t .groups fault := by
  rw [check, Option.map_eq_some_iff, Refuses]
  exact exists_congr fun shape => and_congr groupFault_eq_some_iff eq_comm

/-- The words of a text are the letters of the commands at its places. -/
theorem words_eq_filterMap (t : Text) : Command.words t = t.tails.filterMap command? := by
  induction t with
  | nil => rfl
  | cons c t ih =>
    rw [List.tails_cons, List.filterMap_cons, Command.words, ih]
    by_cases hc : c = '\\'
    · subst hc
      rfl
    · rw [if_neg hc]
      have hnone : command? (c :: t) = none := by
        unfold command?
        split
        · rename_i heq
          exact absurd (List.cons.inj heq).1 hc
        · rfl
      rw [hnone]

/-- The words of a text are the letters behind its backslashes. -/
theorem mem_words {w : Text} : w ∈ Command.words t ↔ ∃ before after, t = before ++ '\\' :: after ∧ after.takeWhile Char.isAlpha = w := by
  rw [words_eq_filterMap, List.mem_filterMap]
  constructor
  · rintro ⟨u, hu, hw⟩
    unfold command? at hw
    split at hw
    · rename_i after
      obtain ⟨before, rfl⟩ := (List.mem_tails _ _).1 hu
      exact ⟨before, after, rfl, Option.some.inj hw⟩
    · cases hw
  · rintro ⟨before, after, rfl, rfl⟩
    exact ⟨'\\' :: after, (List.mem_tails _ _).2 (List.suffix_append _ _), rfl⟩

theorem forall_mem_words {p : Text → Prop} : (∀ w ∈ Command.words t, p w) ↔
    ∀ before after, t = before ++ '\\' :: after → p (after.takeWhile Char.isAlpha) :=
  ⟨fun h before after ht => h _ (mem_words.2 ⟨before, after, ht, rfl⟩), fun h w hw => by
    obtain ⟨before, after, ht, rfl⟩ := mem_words.1 hw
    exact h before after ht⟩

theorem nil_notMem_words_iff : [] ∉ Command.words t ↔
    ∀ before after, t = before ++ '\\' :: after → after.takeWhile Char.isAlpha ≠ [] := by
  rw [← forall_mem_words (p := (· ≠ []))]
  exact ⟨fun h w hw heq => h (heq ▸ hw), fun h hw => h [] hw rfl⟩

/-- No word is unsupported when every backslash is followed by a command. -/
theorem unsupported_eq_nil_iff : unsupported s t = [] ↔
    ∀ before after, t = before ++ '\\' :: after → s.isCommand (after.takeWhile Char.isAlpha) = true := by
  rw [← forall_mem_words (p := (s.isCommand · = true)), unsupported, List.map_eq_nil_iff, List.filter_eq_nil_iff]
  simp

/-- The check of commands passes exactly when every backslash is followed by a command. -/
theorem check_commands_eq_none_iff : check s declared t .commands = none ↔ Holds s declared t .commands := by
  have hboth : Holds s declared t .commands ↔ [] ∉ Command.words t ∧ unsupported s t = [] := by
    rw [nil_notMem_words_iff, unsupported_eq_nil_iff, Holds]
    exact ⟨fun h => ⟨fun before after ht => (h before after ht).1, fun before after ht => (h before after ht).2⟩, fun h before after ht =>
      ⟨h.1 before after ht, h.2 before after ht⟩⟩
  rw [hboth, check]
  by_cases hbare : [] ∈ Command.words t
  · simp [hbare]
  · simp [hbare]

/-- The check of commands fails with a bare backslash, or with all unsupported words in their order. -/
theorem check_commands_eq_some_iff : check s declared t .commands = some fault ↔
    ¬Holds s declared t .commands ∧ Refuses s declared t .commands fault := by
  rw [← check_commands_eq_none_iff, Refuses, ← mem_words, ← nil_notMem_words_iff, ← words_eq_filterMap, check]
  by_cases hbare : [] ∈ Command.words t
  · simp [hbare, eq_comm]
  · by_cases hknown : unsupported s t = []
    · simp [hbare, hknown]
    · have hlist : ((Command.words t).filter fun word => !s.isCommand word).map ('\\' :: ·) = unsupported s t := rfl
      simpa [hbare, hknown, hlist] using eq_comm

/-- The check of letters looks at the places of the text one after the other. -/
theorem getElem?_marked_iff {c : Char} {i : Nat} :
    (∃ flag, (marked s.functionNames t)[i]? = some (c, flag) ∧ (c.isAlpha && !flag && !declared.contains c) = true) ↔
      ∃ before after, t = before ++ c :: after ∧ before.length = i ∧ Undeclared s declared before c after := by
  have hnames := fun name hmem => (s.word_of_mem_functionNames name hmem).1
  simp only [marked, List.getElem?_zip_eq_some, Bool.and_eq_true, Bool.not_eq_true', List.contains_eq_mem, decide_eq_false_iff_not]
  constructor
  · rintro ⟨flag, ⟨hc, hflag⟩, ⟨hletter, rfl⟩, hnotMem⟩
    obtain ⟨hi, rfl⟩ := List.getElem?_eq_some_iff.1 hc
    have hlength : (t.take i).length = i := by rw [List.length_take, Nat.min_eq_left (Nat.le_of_lt hi)]
    have ht : t = t.take i ++ t[i] :: t.drop (i + 1) := by simp
    refine ⟨t.take i, t.drop (i + 1), ht, hlength, hletter, (free_iff hnames hletter).1 ?_, hnotMem⟩
    rwa [← ht, hlength]
  · rintro ⟨before, after, rfl, rfl, hletter, hfree, hnotMem⟩
    exact ⟨false, ⟨by simp, (free_iff hnames hletter).2 hfree⟩, ⟨hletter, rfl⟩, hnotMem⟩

/-- The undeclared letter that is found is the first one. -/
theorem undeclared?_eq_some_iff {c : Char} : undeclared? s declared t = some c ↔
    ∃ before after, t = before ++ c :: after ∧ Undeclared s declared before c after ∧
      ∀ before' d after', t = before' ++ d :: after' → before'.length < before.length → ¬Undeclared s declared before' d after' := by
  rw [undeclared?, Option.map_eq_some_iff]
  constructor
  · rintro ⟨⟨c, flag⟩, hfind, rfl⟩
    obtain ⟨hc, i, hi, hmark, hbefore⟩ := List.find?_eq_some_iff_getElem.1 hfind
    obtain ⟨before, after, rfl, rfl, hundeclared⟩ :=
      getElem?_marked_iff.1 ⟨flag, hmark ▸ List.getElem?_eq_getElem hi, hc⟩
    refine ⟨before, after, rfl, hundeclared, fun before' d after' ht hlt h => ?_⟩
    obtain ⟨flag', hmark', hd⟩ := getElem?_marked_iff.2 ⟨before', after', ht, rfl, h⟩
    obtain ⟨hj, hget⟩ := List.getElem?_eq_some_iff.1 hmark'
    have hnot := hbefore before'.length hlt
    rw [Bool.not_eq_true', hget] at hnot
    exact Bool.false_ne_true (hnot.symm.trans hd)
  · rintro ⟨before, after, rfl, hundeclared, hfirst⟩
    obtain ⟨flag, hmark, hc⟩ := getElem?_marked_iff.2 ⟨before, after, rfl, rfl, hundeclared⟩
    obtain ⟨hi, hget⟩ := List.getElem?_eq_some_iff.1 hmark
    refine ⟨(c, flag), List.find?_eq_some_iff_getElem.2 ⟨hc, before.length, hi, hget, fun j hj => ?_⟩, rfl⟩
    rw [Bool.not_eq_true', ← Bool.not_eq_true]
    intro hd
    have hmark' := List.getElem?_eq_getElem (Nat.lt_trans hj hi)
    obtain ⟨before', after', ht, rfl, h⟩ := getElem?_marked_iff.1 ⟨_, hmark', hd⟩
    exact hfirst before' _ after' ht hj h

/-- No undeclared letter is found exactly when there is none. -/
theorem undeclared?_eq_none_iff : undeclared? s declared t = none ↔
    ∀ before c after, t = before ++ c :: after → ¬Undeclared s declared before c after := by
  rw [undeclared?, Option.map_eq_none_iff, List.find?_eq_none]
  constructor
  · intro h before c after ht hundeclared
    obtain ⟨flag, hmark, hc⟩ := getElem?_marked_iff.2 ⟨before, after, ht, rfl, hundeclared⟩
    exact h (c, flag) (List.mem_of_getElem? hmark) hc
  · rintro h ⟨c, flag⟩ hmem hc
    obtain ⟨i, hmark⟩ := List.mem_iff_getElem?.1 hmem
    obtain ⟨before, after, ht, -, hundeclared⟩ := getElem?_marked_iff.1 ⟨flag, hmark, hc⟩
    exact h before c after ht hundeclared

/-- The check of letters passes exactly when all are declared. -/
theorem check_letters_eq_none_iff : check s declared t .letters = none ↔ Holds s declared t .letters := by
  rw [check, Option.map_eq_none_iff, undeclared?_eq_none_iff, Holds]
  constructor
  · exact fun h before c after ht hletter hfree => Classical.not_not.1 fun hnotMem => h before c after ht ⟨hletter, hfree, hnotMem⟩
  · exact fun h before c after ht hundeclared => hundeclared.notMem (h before c after ht hundeclared.letter hundeclared.free)

/-- The check of letters fails with the first undeclared letter. -/
theorem check_letters_eq_some_iff : check s declared t .letters = some fault ↔ Refuses s declared t .letters fault := by
  rw [check, Option.map_eq_some_iff, Refuses]
  simp only [undeclared?_eq_some_iff]
  constructor
  · rintro ⟨c, ⟨before, after, ht, hundeclared, hfirst⟩, rfl⟩
    exact ⟨before, c, after, ht, hundeclared, hfirst, rfl⟩
  · rintro ⟨before, c, after, ht, hundeclared, hfirst, rfl⟩
    exact ⟨c, ⟨before, after, ht, hundeclared, hfirst⟩, rfl⟩

/-- A check passes the texts that meet its condition. -/
theorem check_eq_none_iff (k : Condition) : check s declared t k = none ↔ Holds s declared t k :=
  match k with
  | .presence => check_presence_eq_none_iff
  | .characters => check_characters_eq_none_iff
  | .groups => check_groups_eq_none_iff
  | .commands => check_commands_eq_none_iff
  | .letters => check_letters_eq_none_iff

/-- A check answers the fault of a text that does not meet its condition. -/
theorem check_eq_some_iff (k : Condition) : check s declared t k = some fault ↔ ¬Holds s declared t k ∧ Refuses s declared t k fault := by
  have hnot : check s declared t k = some fault → ¬Holds s declared t k := by
    intro h hholds
    rw [check_eq_none_iff k |>.2 hholds] at h
    cases h
  have hboth : (check s declared t k = some fault ↔ Refuses s declared t k fault) →
      (check s declared t k = some fault ↔ ¬Holds s declared t k ∧ Refuses s declared t k fault) := fun h =>
    ⟨fun hsome => ⟨hnot hsome, h.1 hsome⟩, fun hfails => h.2 hfails.2⟩
  cases k with
  | presence => exact check_presence_eq_some_iff
  | characters => exact hboth check_characters_eq_some_iff
  | groups => exact hboth check_groups_eq_some_iff
  | commands => exact check_commands_eq_some_iff
  | letters => exact hboth check_letters_eq_some_iff

end

/-- A text is accepted when it meets all conditions, and refused with the fault of the first one that it does not meet. -/
theorem fault?_eq_first_failing (s : RuleSet) (declared : List Char) (t : Text) :
    (fault? s declared t = none ↔ ∀ k, Holds s declared t k) ∧
    ∀ fault, fault? s declared t = some fault ↔ ∃ earlier k later, Condition.all = earlier ++ k :: later ∧
      (∀ e ∈ earlier, Holds s declared t e) ∧ ¬Holds s declared t k ∧ Refuses s declared t k fault := by
  rw [fault?_eq_findSome?]
  constructor
  · rw [List.findSome?_eq_none_iff]
    simp only [check_eq_none_iff]
    exact ⟨fun h k => h k k.mem_all, fun h k _ => h k⟩
  · intro fault
    rw [List.findSome?_eq_some_iff]
    simp only [check_eq_none_iff, check_eq_some_iff]
    constructor
    · rintro ⟨earlier, k, later, hall, hfails, hearlier⟩
      exact ⟨earlier, k, later, hall, hearlier, hfails⟩
    · rintro ⟨earlier, k, later, hall, hearlier, hfails⟩
      exact ⟨earlier, k, later, hall, hfails, hearlier⟩

end Source

end FormulaDag
