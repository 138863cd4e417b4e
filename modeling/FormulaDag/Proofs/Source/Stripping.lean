import FormulaDag.Proofs.Contexts.Expansion
import FormulaDag.Proofs.Source.Doubling

/-!
# White space in calls

Taking the white space out of a source text leaves its parentheses as they are. What stands in the parentheses of a call is stripped on its
own: no operand that is set off by white space reaches beyond the parenthesis that closes the call.
-/

namespace FormulaDag

namespace Text

/-- Whether a character is a parenthesis. -/
def isParenthesis (c : Char) : Bool := c == '(' || c == ')'

section
variable {t u : Text} {c : Char} {depth : Nat}

/-- Only parentheses count. -/
theorem balancedFrom_filter (t : Text) (depth : Nat) : balancedFrom depth (t.filter isParenthesis) = balancedFrom depth t := by
  induction t generalizing depth with
  | nil => rfl
  | cons c t ih =>
    by_cases hopen : c = '('
    · subst hopen
      rw [List.filter_cons_of_pos (by rfl), Line.balancedFrom_opener, Line.balancedFrom_opener, ih]
    · by_cases hclose : c = ')'
      · subst hclose
        rw [List.filter_cons_of_pos (by rfl)]
        cases depth with
        | zero => rfl
        | succ depth => rw [Line.balancedFrom_closer, Line.balancedFrom_closer, ih]
      · rw [List.filter_cons_of_neg (by simp [isParenthesis, hopen, hclose]), Line.balancedFrom_other hopen hclose, ih]

/-- Balanced parentheses are balanced from any place on. -/
theorem exists_balancedFrom (h : balancedFrom depth (u ++ t) = true) : ∃ depth', balancedFrom depth' t = true := by
  induction u generalizing depth with
  | nil => exact ⟨depth, h⟩
  | cons c u ih =>
    rw [List.cons_append] at h
    by_cases hopen : c = '('
    · subst hopen
      rw [Line.balancedFrom_opener] at h
      exact ih h
    · by_cases hclose : c = ')'
      · subst hclose
        cases depth with
        | zero => simp [balancedFrom] at h
        | succ depth =>
          rw [Line.balancedFrom_closer] at h
          exact ih h
      · rw [Line.balancedFrom_other hopen hclose] at h
        exact ih h

end

end Text

namespace Source

section
variable {names : List Text} {name word after t u : Text} {depth opened : Nat}

/-- A parenthesis that has a partner closes before the text ends. -/
theorem closingLength_of_balanced (h : Text.balancedFrom depth t = true) (hpos : 1 ≤ opened) (hle : opened ≤ depth) (u : Text) :
    closingLength '(' ')' opened (t ++ u) = closingLength '(' ')' opened t := by
  induction t generalizing depth opened with
  | nil =>
    obtain rfl : depth = 0 := by simpa [Text.balancedFrom] using h
    omega
  | cons c t ih =>
    rw [List.cons_append, closingLength, closingLength]
    by_cases hopen : c = '('
    · subst hopen
      rw [Line.balancedFrom_opener] at h
      rw [if_pos rfl, if_pos rfl, ih h (by omega) (by omega)]
    · by_cases hclose : c = ')'
      · subst hclose
        cases depth with
        | zero => omega
        | succ depth =>
          rw [Line.balancedFrom_closer] at h
          rw [if_neg hopen, if_pos rfl, if_neg hopen, if_pos rfl]
          by_cases hlast : opened ≤ 1
          · rw [if_pos hlast, if_pos hlast]
          · rw [if_neg hlast, if_neg hlast, ih h (by omega) (by omega)]
      · rw [Line.balancedFrom_other hopen hclose] at h
        rw [if_neg hopen, if_neg hclose, if_neg hopen, if_neg hclose, ih h hpos hle]

/-- A parenthesis closes no brace. -/
theorem closingLength_brace (t : Text) (opened : Nat) :
    closingLength '\x7b' '\x7d' opened (t ++ [')']) = closingLength '\x7b' '\x7d' opened t := by
  induction t generalizing opened with
  | nil => simp [closingLength]
  | cons c t ih => simp only [List.cons_append, closingLength, ih]

/-- A parenthesis that closes none of a balanced text does not change the length of the group. -/
theorem groupLength_append_closer (h : Text.balancedFrom depth t = true) : groupLength (t ++ [')']) = groupLength t := by
  have hother : ∀ (c : Char) (u : Text), c ≠ '(' → c ≠ '\x7b' → groupLength (c :: u) = none := by
    intro c u hopen hbrace
    unfold groupLength
    split
    · rename_i heq
      exact absurd (List.cons.inj heq).1 hopen
    · rename_i heq
      exact absurd (List.cons.inj heq).1 hbrace
    · rfl
  cases t with
  | nil => exact hother ')' [] (by decide) (by decide)
  | cons c t =>
    by_cases hopen : c = '('
    · subst hopen
      rw [Line.balancedFrom_opener] at h
      change closingLength '(' ')' 0 ('(' :: (t ++ [')'])) = closingLength '(' ')' 0 ('(' :: t)
      rw [closingLength, closingLength, if_pos rfl, if_pos rfl, closingLength_of_balanced h (by omega) (by omega)]
    · by_cases hbrace : c = '\x7b'
      · subst hbrace
        exact closingLength_brace ('\x7b' :: t) 0
      · rw [List.cons_append, hother c _ hopen hbrace, hother c _ hopen hbrace]

/-- A parenthesis that closes none of a balanced text does not change the length of the call. -/
theorem callLength_append_closer (hname : ')' ∉ name) (h : Text.balancedFrom depth t = true) :
    callLength (t ++ [')']) name = callLength t name := by
  cases hprefix : name.isPrefixOf? t with
  | some rest =>
    have ht := Text.isPrefixOf?_eq_some.1 hprefix
    have hlonger : name.isPrefixOf? (t ++ [')']) = some (rest ++ [')']) := Text.isPrefixOf?_eq_some.2 (by rw [ht, List.append_assoc])
    rw [ht] at h
    obtain ⟨depth', hrest⟩ := Text.exists_balancedFrom h
    rw [callLength, callLength, hprefix, hlonger]
    simp only [groupLength_append_closer hrest]
  | none =>
    have hlonger : name.isPrefixOf? (t ++ [')']) = none := by
      cases hmore : name.isPrefixOf? (t ++ [')']) with
      | none => rfl
      | some rest =>
        -- the name ends before the parenthesis, which is no part of it
        have heq := Text.isPrefixOf?_eq_some.1 hmore
        rcases List.eq_nil_or_concat rest with rfl | ⟨rest, c, rfl⟩
        · rw [List.append_nil] at heq
          exact absurd (heq ▸ List.mem_append_right t (List.mem_singleton_self _)) hname
        · rw [List.concat_eq_append, ← List.append_assoc] at heq
          rw [Text.isPrefixOf?_eq_some.2 (List.append_inj' heq rfl).1] at hprefix
          cases hprefix
    rw [callLength, callLength, hprefix, hlonger]

/-- The closing length is within the text. -/
theorem closingLength_le {opener closer : Char} {n : Nat} (h : closingLength opener closer opened t = some n) : n ≤ t.length := by
  induction t generalizing opened n with
  | nil => cases h
  | cons c t ih =>
    rw [closingLength] at h
    rw [List.length_cons]
    split at h
    · obtain ⟨m, hm, rfl⟩ := Option.map_eq_some_iff.1 h
      exact Nat.succ_le_succ (ih hm)
    · split at h
      · split at h
        · cases h
          omega
        · obtain ⟨m, hm, rfl⟩ := Option.map_eq_some_iff.1 h
          exact Nat.succ_le_succ (ih hm)
      · obtain ⟨m, hm, rfl⟩ := Option.map_eq_some_iff.1 h
        exact Nat.succ_le_succ (ih hm)

/-- The length of a call is within the text. -/
theorem callLength_le {n : Nat} (h : callLength t name = some n) : n ≤ t.length := by
  rw [callLength] at h
  split at h
  · rename_i rest hprefix
    obtain ⟨m, hm, rfl⟩ := Option.map_eq_some_iff.1 h
    rw [Text.isPrefixOf?_eq_some.1 hprefix, List.length_append]
    refine Nat.add_le_add_left ?_ _
    unfold groupLength at hm
    split at hm
    · exact closingLength_le hm
    · exact closingLength_le hm
    · cases hm
  · cases h

/-- The length of an operand is within the text. -/
theorem operandLength_le (hne : t ≠ []) : operandLength names t ≤ t.length := by
  rw [operandLength]
  cases hmax : (names.filterMap (callLength t)).max? with
  | none => exact List.length_pos_of_ne_nil hne
  | some n =>
    obtain ⟨name, -, hn⟩ := List.mem_filterMap.1 (List.max?_mem hmax)
    exact callLength_le hn

theorem separated?_append_closer (hnames : ∀ name ∈ names, ')' ∉ name) (h : Text.balancedFrom depth after = true) :
    separated? names word (after ++ [')']) = (separated? names word after).map fun (operand, rest) => (operand, rest ++ [')']) := by
  have hblank : Text.isBlank ')' = false := by decide
  have hdrop : (after ++ [')']).dropWhile Text.isBlank = after.dropWhile Text.isBlank ++ [')'] := by
    rw [List.dropWhile_append]
    split
    · rename_i hempty
      rw [List.isEmpty_iff.1 hempty, List.dropWhile_cons_of_neg (by simp [hblank])]
      rfl
    · rfl
  have hafter := List.takeWhile_append_dropWhile (p := Text.isBlank) (l := after)
  rw [← hafter] at h
  obtain ⟨depth', hnext⟩ := Text.exists_balancedFrom h
  rw [separated?, separated?, hdrop]
  generalize after.dropWhile Text.isBlank = next at hnext ⊢
  cases next with
  | nil => simp [show Char.isAlpha ')' = false from by decide]
  | cons c next =>
    have hoperand : operandLength names (c :: next ++ [')']) = operandLength names (c :: next) := by
      rw [operandLength, operandLength, List.filterMap_congr fun name hname => callLength_append_closer (hnames name hname) hnext]
    have hle : operandLength names (c :: next) ≤ (c :: next).length := operandLength_le (List.cons_ne_nil _ _)
    rw [hoperand, List.take_append_of_le_length hle, List.drop_append_of_le_length hle]
    have hshorter : (c :: next ++ [')']).length < (after ++ [')']).length ↔ (c :: next).length < after.length := by
      rw [List.length_append, List.length_append, Nat.add_lt_add_iff_right]
    by_cases hset : word ≠ [] ∧ (c :: next).length < after.length ∧ (c :: next).head?.any Char.isAlpha = true
    · rw [if_pos hset, if_pos ⟨hset.1, hshorter.2 hset.2.1, hset.2.2⟩]
      rfl
    · rw [if_neg hset, if_neg fun hlonger => hset ⟨hlonger.1, hshorter.1 hlonger.2.1, hlonger.2.2⟩]
      rfl

/-- What stands before the parenthesis that closes a call is stripped on its own. -/
theorem stripBlanks_append_closer (hnames : ∀ name ∈ names, ')' ∉ name) (h : Text.balancedFrom depth t = true) :
    stripBlanks names (t ++ [')']) = stripBlanks names t ++ [')'] := by
  have hsplit : ∀ rest : Text, (rest ++ [')']).takeWhile Char.isAlpha = rest.takeWhile Char.isAlpha ∧
      (rest ++ [')']).dropWhile Char.isAlpha = rest.dropWhile Char.isAlpha ++ [')'] := by
    intro rest
    induction rest with
    | nil => exact ⟨rfl, rfl⟩
    | cons c rest ih =>
      rw [List.cons_append, List.takeWhile_cons, List.takeWhile_cons, List.dropWhile_cons, List.dropWhile_cons]
      split
      · exact ⟨by rw [ih.1], ih.2⟩
      · exact ⟨rfl, rfl⟩
  induction t using stripBlanks.induct names generalizing depth with
  | case1 => simp [stripBlanks, show Text.isBlank ')' = false from by decide]
  | case2 c rest hblank ih =>
    obtain ⟨depth', hrest⟩ := Text.exists_balancedFrom (u := [c]) h
    rw [List.cons_append, stripBlanks, if_pos hblank, ih hrest, stripBlanks, if_pos hblank]
  | case3 rest operand more hsep hblank ih₁ ih₂ =>
    obtain ⟨depth', hafter⟩ : ∃ depth', Text.balancedFrom depth' (rest.dropWhile Char.isAlpha) = true := by
      rw [← List.takeWhile_append_dropWhile (p := Char.isAlpha) (l := rest), ← List.cons_append] at h
      exact Text.exists_balancedFrom h
    obtain ⟨depth'', hmore⟩ : ∃ depth'', Text.balancedFrom depth'' more = true := by
      rw [← List.takeWhile_append_dropWhile (p := Text.isBlank) (l := rest.dropWhile Char.isAlpha), ← eq_of_separated? hsep,
        ← List.append_assoc] at hafter
      exact Text.exists_balancedFrom hafter
    rw [List.cons_append, stripBlanks_command, stripBlanks_command, (hsplit rest).1, (hsplit rest).2, separated?_append_closer hnames hafter,
      hsep]
    simp only [Option.map_some]
    rw [ih₂ hmore]
    simp
  | case4 rest hsep hblank ih =>
    obtain ⟨depth', hafter⟩ : ∃ depth', Text.balancedFrom depth' (rest.dropWhile Char.isAlpha) = true := by
      rw [← List.takeWhile_append_dropWhile (p := Char.isAlpha) (l := rest), ← List.cons_append] at h
      exact Text.exists_balancedFrom h
    rw [List.cons_append, stripBlanks_command, stripBlanks_command, (hsplit rest).1, (hsplit rest).2, separated?_append_closer hnames hafter,
      hsep]
    simp only [Option.map_none]
    rw [ih hafter]
    simp
  | case5 c rest hblank hslash ih =>
    obtain ⟨depth', hrest⟩ := Text.exists_balancedFrom (u := [c]) h
    rw [List.cons_append, stripBlanks, if_neg hblank, if_neg hslash, ih hrest, stripBlanks, if_neg hblank, if_neg hslash]
    rfl

/-- The parentheses of a text are left as they are. -/
theorem filter_stripBlanks (names : List Text) (t : Text) :
    (stripBlanks names t).filter Text.isParenthesis = t.filter Text.isParenthesis := by
  have hletters : ∀ u : Text, (u.takeWhile Char.isAlpha).filter Text.isParenthesis = [] := fun u => by
    rw [List.filter_eq_nil_iff]
    intro c hc
    have halpha := List.all_eq_true.1 List.all_takeWhile c hc
    rw [Text.isParenthesis, Bool.or_eq_true, beq_iff_eq, beq_iff_eq]
    rintro (rfl | rfl) <;> simp at halpha
  have hblanks : ∀ u : Text, (u.takeWhile Text.isBlank).filter Text.isParenthesis = [] := fun u => by
    rw [List.filter_eq_nil_iff]
    intro c hc
    have hblank := List.all_eq_true.1 List.all_takeWhile c hc
    rw [Text.isParenthesis, Bool.or_eq_true, beq_iff_eq, beq_iff_eq]
    rintro (rfl | rfl) <;> exact absurd hblank (by decide)
  have hword : ∀ rest : Text, rest.filter Text.isParenthesis = (rest.dropWhile Char.isAlpha).filter Text.isParenthesis := fun rest => by
    conv_lhs => rw [← List.takeWhile_append_dropWhile (p := Char.isAlpha) (l := rest), List.filter_append, hletters, List.nil_append]
  induction t using stripBlanks.induct names with
  | case1 => rw [stripBlanks]
  | case2 c rest hblank ih =>
    have hc : Text.isParenthesis c = false := by
      rw [Text.isParenthesis, Bool.or_eq_false_iff, beq_eq_false_iff_ne, beq_eq_false_iff_ne]
      constructor <;> rintro rfl <;> exact absurd hblank (by decide)
    rw [stripBlanks, if_pos hblank, ih, List.filter_cons_of_neg (by simp [hc])]
  | case3 rest operand more hsep hblank ih₁ ih₂ =>
    have hafter : (rest.dropWhile Char.isAlpha).filter Text.isParenthesis =
        operand.filter Text.isParenthesis ++ more.filter Text.isParenthesis := by
      conv_lhs => rw [← List.takeWhile_append_dropWhile (p := Text.isBlank) (l := rest.dropWhile Char.isAlpha), List.filter_append, hblanks,
        List.nil_append, ← eq_of_separated? hsep, List.filter_append]
    rw [stripBlanks_command, hsep]
    simp only [List.cons_append]
    rw [List.filter_cons_of_neg (by decide), List.filter_cons_of_neg (by decide), List.filter_append, List.filter_append,
      List.filter_cons_of_neg (by decide), List.filter_cons_of_neg (by decide), hletters, ih₁, ih₂, hword rest, hafter, List.nil_append]
  | case4 rest hsep hblank ih =>
    rw [stripBlanks_command, hsep]
    simp only [List.cons_append]
    rw [List.filter_cons_of_neg (by decide), List.filter_cons_of_neg (by decide), List.filter_append, hletters, ih, hword rest,
      List.nil_append]
  | case5 c rest hblank hslash ih =>
    rw [stripBlanks, if_neg hblank, if_neg hslash, List.filter_cons, List.filter_cons, ih]

/-- Stripping blanks keeps parentheses balanced or not. -/
theorem balanced_stripBlanks (names : List Text) (t : Text) : Text.balanced (stripBlanks names t) = Text.balanced t := by
  rw [Text.balanced, ← Text.balancedFrom_filter, filter_stripBlanks, Text.balancedFrom_filter]
  rfl

/-- A call without its white space is the call of what its argument is without white space. -/
theorem stripBlanks_call (hnames : ∀ name ∈ names, ')' ∉ name) (hname : ∀ c ∈ name, c.isAlpha = true) (h : Text.balanced t = true) :
    stripBlanks names (name ++ '(' :: t ++ [')']) = name ++ '(' :: stripBlanks names t ++ [')'] := by
  induction name with
  | nil =>
    have hblank : ¬Text.isBlank '(' = true := by decide
    rw [List.nil_append, List.nil_append, List.cons_append, stripBlanks, if_neg hblank, if_neg (by decide),
      stripBlanks_append_closer hnames h]
    rfl
  | cons c name ih =>
    have halpha := hname c List.mem_cons_self
    have hblank : ¬Text.isBlank c = true := by simp [not_isBlank_of_isAlpha halpha]
    have hslash : c ≠ '\\' := by
      rintro rfl
      simp at halpha
    rw [List.cons_append, List.cons_append, stripBlanks, if_neg hblank, if_neg hslash, ih fun d hd => hname d (List.mem_cons_of_mem _ hd)]
    rfl

end

end Source

end FormulaDag
