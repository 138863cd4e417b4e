import FormulaDag.Proofs.Source.Absence
import FormulaDag.Proofs.Source.Groups

/-!
# Doubled parentheses

A second pair of parentheses around a group changes nothing about the faults of a source text, nor about the tree that the text stands
for. The groups may be open around it to any depth, so what stands before and behind the group is read by induction on the text before it.
-/

namespace FormulaDag

namespace Text

section
variable {x y : Text} {c : Char}

theorem balancedFrom_congr (h : ∀ depth, balancedFrom depth x = balancedFrom depth y) (u : Text) (depth : Nat) :
    balancedFrom depth (u ++ x) = balancedFrom depth (u ++ y) := by
  induction u generalizing depth with
  | nil => exact h depth
  | cons c u ih =>
    rw [List.cons_append, List.cons_append]
    cases depth <;> simp only [balancedFrom, ih]

/-- Behind balanced parentheses there is none to be closed. -/
theorem balancedFrom_append_closer {u : Text} {depth : Nat} (h : balancedFrom depth u = true) (x : Text) :
    balancedFrom depth (u ++ ')' :: x) = false := by
  induction u generalizing depth with
  | nil =>
    obtain rfl : depth = 0 := by simpa [balancedFrom] using h
    simp [balancedFrom]
  | cons c u ih =>
    rw [List.cons_append]
    by_cases hopen : c = '('
    · subst hopen
      rw [Line.balancedFrom_opener] at h ⊢
      exact ih h
    · by_cases hclose : c = ')'
      · subst hclose
        cases depth with
        | zero => simp [balancedFrom] at h
        | succ depth =>
          rw [Line.balancedFrom_closer] at h ⊢
          exact ih h
      · rw [Line.balancedFrom_other hopen hclose] at h ⊢
        exact ih h

end

end Text

namespace Parts

theorem groups_congr {x y : Parts} (h : ∀ here around, groups here around x = groups here around y) (u here : Parts) (around : List Parts) :
    groups here around (u ++ x) = groups here around (u ++ y) := by
  induction u generalizing here around with
  | nil => exact h here around
  | cons m u ih =>
    rw [List.cons_append, List.cons_append]
    cases m with
    | inr w => exact ih _ _
    | inl c => cases around <;> simp only [groups, ih]

end Parts

namespace Source

open Line

/-! ## The parentheses of a fault-free text -/

section
variable {opened : List Char} {previous : Option Char} {p q t x y : Text}

theorem groupFault_congr (h : ∀ opened previous, groupFault opened previous x = groupFault opened previous y) (u : Text)
    (opened : List Char) (previous : Option Char) : groupFault opened previous (u ++ x) = groupFault opened previous (u ++ y) := by
  induction u generalizing opened previous with
  | nil => exact h opened previous
  | cons c u ih =>
    rw [List.cons_append, List.cons_append, groupFault, groupFault]
    split
    · exact ih _ _
    · split
      · rfl
      · split
        · rfl
        · exact ih _ _

/-- A text without a fault is without a fault from any place on. -/
theorem exists_groupFault_append (h : groupFault opened previous (p ++ x) = none) :
    ∃ opened' previous', groupFault opened' previous' x = none := by
  induction p generalizing opened previous with
  | nil => exact ⟨opened, previous, h⟩
  | cons c p ih =>
    rw [List.cons_append, groupFault] at h
    split at h
    · exact ih h
    · split at h
      · cases h
      · split at h
        · cases h
        · exact ih h

/-- What stands in a group in parentheses is nested. -/
theorem nested_of_balanced (h : groupFault [] none (p ++ '(' :: q ++ ')' :: t) = none) (hq : Text.balanced q = true) :
    (ofText q).Nested ∧ q ≠ [] := by
  rw [List.append_assoc] at h
  obtain ⟨opened, previous, h⟩ := exists_groupFault_append h
  rw [List.cons_append, groupFault] at h
  obtain ⟨inner, closer, rest, heq, hinner, hcloser, hne, -⟩ := (nested_of_groupFault h).2 '(' opened rfl
  obtain rfl : closer = ')' := closer_unique hcloser (by rfl)
  have hbalanced : Text.balanced inner = true := by
    have := hinner.balancedFrom 0 []
    rwa [List.append_nil, text_ofText] at this
  have hsame : q = inner := by
    rcases List.append_eq_append_iff.1 heq with ⟨u, hu, hrest⟩ | ⟨u, hu, hrest⟩
    · cases u with
      | nil => rw [hu, List.append_nil]
      | cons d u =>
        obtain ⟨rfl, -⟩ := List.cons.inj hrest
        rw [hu, Text.balanced, Text.balancedFrom_append_closer hq] at hbalanced
        cases hbalanced
    · cases u with
      | nil => rw [hu, List.append_nil]
      | cons d u =>
        obtain ⟨rfl, -⟩ := List.cons.inj hrest
        rw [hu, Text.balanced, Text.balancedFrom_append_closer hbalanced] at hq
        cases hq
  subst hsame
  exact ⟨hinner, fun hnil => hne hnil rfl⟩

/-- A nested text that is not empty leaves the open groups as they are. -/
theorem groupFault_nested {s : Line} (h : s.Nested) (hne : s ≠ []) (hrefs : ∀ k, .ref k ∉ s) (opened : List Char)
    (previous : Option Char) : ∃ c, isOpener c = false ∧
      ∀ x, groupFault opened previous (s.text ++ x) = groupFault opened (some c) x := by
  induction h generalizing opened previous with
  | nil => exact absurd rfl hne
  | @mark m s hm hs ih =>
    cases m with
    | ref k => exact absurd List.mem_cons_self (hrefs k)
    | char c =>
      have hc := hm c rfl
      rw [isDelimiter, Bool.or_eq_false_iff, Option.isSome_eq_false_iff, Option.isNone_iff_eq_none] at hc
      have hstep : ∀ x, groupFault opened previous (text (.char c :: s) ++ x) = groupFault opened (some c) (s.text ++ x) := by
        intro x
        rw [text_cons, Mark.text, List.append_assoc, List.singleton_append, groupFault, hc.2, hc.1]
        rfl
      by_cases hs' : s = []
      · subst hs'
        exact ⟨c, hc.1, fun x => by rw [hstep]; rfl⟩
      · obtain ⟨d, hd, heq⟩ := ih hs' (fun k hk => hrefs k (List.mem_cons_of_mem _ hk)) opened (some c)
        exact ⟨d, hd, fun x => by rw [hstep, heq]⟩
  | @group o c inner s hpair hinner_ne hinner hs ihinner ihs =>
    obtain ⟨d, hd, heq⟩ := ihinner hinner_ne (fun k hk => hrefs k (by simp [hk])) (o :: opened) (some o)
    have ho : openerOf? o = none ∧ isOpener o = true ∧ isOpener c = false := by
      rcases openerOf?_eq_some hpair with ⟨rfl, rfl⟩ | ⟨rfl, rfl⟩ | ⟨rfl, rfl⟩ <;> exact ⟨rfl, rfl, rfl⟩
    have hdo : some d ≠ some o := by
      rintro ⟨⟩
      rw [hd] at ho
      cases ho.2.1
    have hstep : ∀ x, groupFault opened previous (text (.char o :: inner ++ .char c :: s) ++ x) =
        groupFault opened (some c) (s.text ++ x) := by
      intro x
      have htext : text (.char o :: inner ++ .char c :: s) ++ x = o :: (text inner ++ c :: (text s ++ x)) := by simp [Mark.text]
      rw [htext, groupFault, ho.1]
      simp only [ho.2.1, if_true]
      rw [heq, groupFault, hpair]
      simp [hdo]
    by_cases hs' : s = []
    · subst hs'
      exact ⟨c, ho.2.2, fun x => by rw [hstep]; rfl⟩
    · obtain ⟨e, he, heq'⟩ := ihs hs' (fun k hk => hrefs k (by simp [hk])) opened (some c)
      exact ⟨e, he, fun x => by rw [hstep, heq']⟩

/-- A group in parentheses leaves the open groups as they are, be it doubled or not. -/
theorem groupFault_doubled (hq : (ofText q).Nested) (hne : q ≠ []) (opened : List Char) (previous : Option Char) :
    groupFault opened previous (p ++ '(' :: '(' :: q ++ ')' :: ')' :: t) = groupFault opened previous (p ++ '(' :: q ++ ')' :: t) := by
  have hgroup : ∀ (l : Line), l.Nested → l ≠ [] → (∀ k, .ref k ∉ l) → ∀ opened previous x,
      groupFault opened previous ('(' :: l.text ++ ')' :: x) = groupFault opened (some ')') x := by
    intro l hl hne hrefs opened previous x
    have hnested : Nested (.char '(' :: l ++ [.char ')']) := .group (by rfl) hne hl .nil
    obtain ⟨c, hc, heq⟩ := groupFault_nested hl hne hrefs ('(' :: opened) (some '(')
    have hcp : some c ≠ some '(' := by
      rintro ⟨⟩
      cases hc
    rw [List.cons_append, groupFault]
    simp only [openerOf?]
    rw [if_pos (show isOpener '(' = true from rfl), heq, groupFault]
    simp [openerOf?, hcp]
  have hqne : ofText q ≠ [] := by simpa [ofText] using hne
  have hrefs : ∀ k, .ref k ∉ ofText q := by simp [ofText]
  rw [List.append_assoc, List.append_assoc]
  refine groupFault_congr (fun opened previous => ?_) p opened previous
  have hinner := hgroup (ofText q) hq hqne hrefs opened previous t
  have houter := hgroup (.char '(' :: ofText q ++ [.char ')']) (.group (by rfl) hqne hq .nil) (by simp) (by simpa using hrefs)
    opened previous t
  rw [text_ofText] at hinner
  have htext : '(' :: text (.char '(' :: ofText q ++ [.char ')']) ++ ')' :: t = '(' :: '(' :: q ++ ')' :: ')' :: t := by
    simp [Mark.text]
  rw [htext] at houter
  rw [houter, hinner]

end

section
variable {names : List Text} {p q t : Text}

theorem words_append_sign {c : Char} (hletter : c.isAlpha = false) (hbackslash : c ≠ '\\') (a b : Text) :
    Command.words (a ++ c :: b) = Command.words a ++ Command.words b := by
  induction a with
  | nil => simp [Command.words, hbackslash]
  | cons d a ih =>
    have hword : (a ++ c :: b).takeWhile Char.isAlpha = a.takeWhile Char.isAlpha := by
      rw [List.takeWhile_append]
      split
      · rename_i hlength
        rw [List.takeWhile_cons_of_neg (by simp [hletter]), List.append_nil]
        exact ((List.takeWhile_prefix _).eq_of_length hlength).symm
      · rfl
    rw [List.cons_append, Command.words, Command.words, hword, ih]
    split <;> simp

/-- Parentheses are no part of a command word. -/
theorem words_doubled : Command.words (p ++ '(' :: '(' :: q ++ ')' :: ')' :: t) = Command.words (p ++ '(' :: q ++ ')' :: t) := by
  have hsign : ∀ c, c = '(' ∨ c = ')' → ∀ x, Command.words (c :: x) = Command.words x := by
    rintro c (rfl | rfl) x <;> simp [Command.words]
  rw [List.append_assoc, List.append_assoc, List.cons_append, List.cons_append, List.cons_append,
    words_append_sign (by decide) (by decide), words_append_sign (by decide) (by decide), hsign _ (.inl rfl),
    words_append_sign (by decide) (by decide), words_append_sign (by decide) (by decide), hsign _ (.inr rfl)]

/-- The letters of a text stay as they are, protected or not. -/
theorem undeclared?_doubled (s : RuleSet) (letters : List Char) :
    undeclared? s letters (p ++ '(' :: '(' :: q ++ ')' :: ')' :: t) = undeclared? s letters (p ++ '(' :: q ++ ')' :: t) := by
  have hnames := s.word_of_mem_functionNames
  have hsign : ∀ {c : Char} {a b : Text}, c.isAlpha = false → c ≠ '\\' →
      marked s.functionNames (a ++ c :: b) = marked s.functionNames a ++ (c, false) :: marked s.functionNames b := fun hletter hbackslash =>
    marked_append (getElem?_protection_of_sign hnames (by simp) hletter hbackslash)
  have hfirst : ∀ {c : Char} {b : Text}, c.isAlpha = false → c ≠ '\\' →
      marked s.functionNames (c :: b) = (c, false) :: marked s.functionNames b := fun hletter hbackslash => by
    exact hsign (a := []) hletter hbackslash
  have hopen : ('(' : Char).isAlpha = false := by decide
  have hclose : (')' : Char).isAlpha = false := by decide
  rw [undeclared?, undeclared?, List.append_assoc, List.append_assoc, List.cons_append, List.cons_append, List.cons_append,
    hsign hopen (by decide), hsign hopen (by decide), hfirst hopen (by decide), hsign hclose (by decide), hsign hclose (by decide),
    hfirst hclose (by decide)]
  simp [List.find?_append, hopen, hclose]

/-- A text has the same faults when a group is doubled. -/
theorem fault?_doubled (s : RuleSet) (letters : List Char) (hq : (ofText q).Nested) (hne : q ≠ []) :
    fault? s letters (p ++ '(' :: '(' :: q ++ ')' :: ')' :: t) = fault? s letters (p ++ '(' :: q ++ ')' :: t) := by
  have hchars : (p ++ '(' :: '(' :: q ++ ')' :: ')' :: t).find? (fun c => !isSourceChar c) =
      (p ++ '(' :: q ++ ')' :: t).find? fun c => !isSourceChar c := by
    have hopen : isSourceChar '(' = true := by decide
    have hclose : isSourceChar ')' = true := by decide
    simp [List.find?_append, hopen, hclose]
  have hsome : p ++ '(' :: '(' :: q ++ ')' :: ')' :: t ≠ [] ∧ p ++ '(' :: q ++ ')' :: t ≠ [] := by simp
  rw [fault?, fault?, if_neg hsome.1, if_neg hsome.2, hchars, groupFault_doubled hq hne, words_doubled, unsupported, unsupported,
    words_doubled, undeclared?_doubled]

/-- A text without white space is left as it is. -/
theorem stripBlanks_eq_self (names : List Text) {t : Text} (h : ∀ c ∈ t, Text.isBlank c = false) : stripBlanks names t = t := by
  induction hlen : t.length using Nat.strong_induction_on generalizing t with
  | _ length ih =>
    subst hlen
    cases t with
    | nil => rw [stripBlanks]
    | cons c rest =>
      have hblank : ¬Text.isBlank c = true := by simp [h c List.mem_cons_self]
      have hrest : ∀ d ∈ rest, Text.isBlank d = false := fun d hd => h d (List.mem_cons_of_mem _ hd)
      by_cases hc : c = '\\'
      · subst hc
        have hafter : ∀ d ∈ rest.dropWhile Char.isAlpha, Text.isBlank d = false := fun d hd =>
          hrest d ((List.dropWhile_suffix _).subset hd)
        have hnone : ∀ word, separated? names word (rest.dropWhile Char.isAlpha) = none := by
          intro word
          have hkept : (rest.dropWhile Char.isAlpha).dropWhile Text.isBlank = rest.dropWhile Char.isAlpha := by
            generalize rest.dropWhile Char.isAlpha = u at hafter
            cases u with
            | nil => rfl
            | cons d u => rw [List.dropWhile_cons_of_neg (by simp [hafter d List.mem_cons_self])]
          simp [separated?, hkept]
        rw [stripBlanks_command, hnone]
        simp only
        rw [ih _ (Nat.lt_succ_of_le (List.dropWhile_suffix _).length_le) hafter rfl, List.cons_append, List.takeWhile_append_dropWhile]
      · rw [stripBlanks, if_neg hblank, if_neg hc, ih _ (Nat.lt_succ_self _) hrest rfl]

/-! ## The tree of a doubled group -/

theorem groups_doubled (hq : (ofText q).Nested) (hne : q ≠ []) :
    Parts.groups [] [] ((p ++ '(' :: '(' :: q ++ ')' :: ')' :: t).map .inl) = Parts.groups [] [] ((p ++ '(' :: q ++ ')' :: t).map .inl) := by
  have hqne : ofText q ≠ [] := by simpa [ofText] using hne
  have hnested : Nested (.char '(' :: ofText q ++ [.char ')']) := .group (by rfl) hqne hq .nil
  rw [List.append_assoc, List.append_assoc, @List.map_append _ _ _ p, @List.map_append _ _ _ p]
  refine Parts.groups_congr (fun here around => ?_) _ [] []
  have hinner := hq.groups_parentheses (fun _ => Tree.node []) here around (t.map .inl)
  have houter := hnested.groups_parentheses (fun _ => Tree.node []) here around (t.map .inl)
  rw [hq.stand_parentheses] at houter
  rw [← houter] at hinner
  simpa [parts_ofText, Mark.part] using hinner.symm

/-- No pair of parentheses stands around a text that ends with a group behind something else. -/
theorem inside?_of_group_at_end (hq : (ofText q).Nested) (c : Char) : Text.inside? (c :: p ++ '(' :: q ++ [')']) = none := by
  have hopen : ∀ depth, Text.balancedFrom depth ('(' :: q) = false := by
    intro depth
    have hend := hq.balancedFrom (depth + 1) []
    rw [text_ofText, List.append_nil] at hend
    rw [balancedFrom_opener, hend]
    rfl
  have hprefix : ∀ (u : Text) (depth : Nat), Text.balancedFrom depth (u ++ '(' :: q) = false := by
    intro u
    induction u with
    | nil => exact hopen
    | cons d u ih =>
      intro depth
      rw [List.cons_append]
      cases depth <;> simp only [Text.balancedFrom, ih, ite_self]
  rw [List.cons_append, List.cons_append, Text.inside?, if_neg]
  rintro ⟨-, -, hbalanced⟩
  rw [List.dropLast_concat, Text.balanced, hprefix] at hbalanced
  cases hbalanced

theorem inside?_cons_concat (c e : Char) (u : Text) :
    Text.inside? (c :: (u ++ [e])) = if c = '(' ∧ e = ')' ∧ Text.balanced u = true then some u else none := by
  simp [Text.inside?]

/-- A text in parentheses stands for what is inside of them. -/
theorem tree_of_inside? {u v : Text} (h : Text.inside? u = some v) : tree u = tree v := by
  rw [tree, tree, Text.unwrap_of_inside? h]

/-- A group may be doubled in a text that is not in parentheses, if the text with the group doubled is not either. -/
theorem tree_doubled_of_inside? (hq : (ofText q).Nested) (hne : q ≠ [])
    (h : Text.inside? (p ++ '(' :: '(' :: q ++ ')' :: ')' :: t) = none) (h' : Text.inside? (p ++ '(' :: q ++ ')' :: t) = none) :
    tree (p ++ '(' :: '(' :: q ++ ')' :: ')' :: t) = tree (p ++ '(' :: q ++ ')' :: t) := by
  rw [tree, tree, Text.unwrap_of_inside?_eq_none h, Text.unwrap_of_inside?_eq_none h', Parts.flat, Parts.flat, groups_doubled hq hne]

/-- Doubling a group keeps a text balanced or unbalanced. -/
theorem balanced_doubled (hq : (ofText q).Nested) (hne : q ≠ []) (p t : Text) :
    Text.balanced (p ++ '(' :: '(' :: q ++ ')' :: ')' :: t) = Text.balanced (p ++ '(' :: q ++ ')' :: t) := by
  have hqne : ofText q ≠ [] := by simpa [ofText] using hne
  have hnested : Nested (.char '(' :: ofText q ++ [.char ')']) := .group (by rfl) hqne hq .nil
  rw [List.append_assoc, List.append_assoc]
  refine Text.balancedFrom_congr (fun depth => ?_) p 0
  have hinner := hnested.balancedFrom depth t
  have houter := (Nested.group (by rfl) (by simp) hnested .nil : Nested (.char '(' :: _ ++ [.char ')'])).balancedFrom depth t
  rw [← hinner] at houter
  simpa [Mark.text] using houter

/-- A text stands for the same tree when a group is doubled. -/
theorem tree_doubled (hq : (ofText q).Nested) (hne : q ≠ []) (p t : Text) :
    tree (p ++ '(' :: '(' :: q ++ ')' :: ')' :: t) = tree (p ++ '(' :: q ++ ')' :: t) := by
  have hqne : ofText q ≠ [] := by simpa [ofText] using hne
  have hnested : Nested (.char '(' :: ofText q ++ [.char ')']) := .group (by rfl) hqne hq .nil
  induction hlen : p.length generalizing p t with
  | zero =>
    obtain rfl := List.length_eq_zero_iff.1 hlen
    have hinner : text (.char '(' :: ofText q ++ .char ')' :: ofText t) = '(' :: q ++ ')' :: t := by simp [Mark.text]
    have houter : text (.char '(' :: (.char '(' :: ofText q ++ [.char ')']) ++ .char ')' :: ofText t) =
        '(' :: '(' :: q ++ ')' :: ')' :: t := by simp [Mark.text]
    by_cases ht : t = []
    · subst ht
      have hunwrapped := hnested.inside?_parentheses
      have hwrapped : text (.char '(' :: ofText q ++ [.char ')']) = '(' :: q ++ [')'] := by simp [Mark.text]
      rw [List.nil_append, ← houter]
      exact (tree_of_inside? hunwrapped).trans (congrArg tree hwrapped)
    · have htne : ofText t ≠ [] := by simpa [ofText] using ht
      exact tree_doubled_of_inside? hq hne (p := []) (by rw [List.nil_append, ← houter]; exact hnested.inside?_group htne)
        (by rw [List.nil_append, ← hinner]; exact hq.inside?_group htne)
  | succ n ih =>
    obtain ⟨c, p, rfl⟩ := List.exists_cons_of_length_eq_add_one hlen
    rcases List.eq_nil_or_concat t with rfl | ⟨t, e, rfl⟩
    · have hnested' : (ofText ('(' :: q ++ [')'])).Nested := by simpa [ofText] using hnested
      have houter := inside?_of_group_at_end (p := p) hnested' c
      exact tree_doubled_of_inside? hq hne (by simpa using houter) (inside?_of_group_at_end hq c)
    · have hsplit : ∀ u : Text, c :: p ++ u ++ ')' :: t.concat e = c :: (p ++ u ++ ')' :: t ++ [e]) := fun u => by simp
      have hsplit' : c :: p ++ '(' :: '(' :: q ++ ')' :: ')' :: t.concat e = c :: (p ++ '(' :: '(' :: q ++ ')' :: ')' :: t ++ [e]) := by simp
      have hfirst := inside?_cons_concat c e (p ++ '(' :: '(' :: q ++ ')' :: ')' :: t)
      have hsecond := inside?_cons_concat c e (p ++ '(' :: q ++ ')' :: t)
      rw [balanced_doubled hq hne] at hfirst
      rw [← hsplit'] at hfirst
      rw [← hsplit] at hsecond
      split at hfirst
      · rename_i hcond
        rw [if_pos hcond] at hsecond
        rw [tree_of_inside? hfirst, tree_of_inside? hsecond]
        exact ih p t (by simpa using hlen)
      · rename_i hcond
        rw [if_neg hcond] at hsecond
        exact tree_doubled_of_inside? hq hne hfirst hsecond

end

end Source

end FormulaDag
