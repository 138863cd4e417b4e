import FormulaDag.Pool.Grouping
import FormulaDag.Proofs.Pool.Draft
import FormulaDag.Proofs.Source.Nesting

/-!
# Taking groups apart

The groups of a nested line become tokens one after the other, the innermost first, and the line keeps its meaning: only delimiters
are lost, and these mean nothing. Afterwards no brace and no parenthesis is left in any text of the pool.
-/

namespace FormulaDag.Pool

namespace Growth

/-- Making the token of a group takes no cell away. -/
theorem length_le_tokenFor (g : Growth) (inner : Text) : g.pool.cells.length ≤ (g.tokenFor inner).1.pool.cells.length := by
  unfold tokenFor
  split
  · exact Nat.le_refl _
  · have := g.pool.length_cells_le_intern (Text.unwrap inner)
    split <;> simp_all

/-- An opening delimiter begins a group within those that are open. -/
theorem replaceGroups_opener (opener closer : Char) (g : Growth) (here : Text) (around : List Text) (t : Text) :
    replaceGroups opener closer g here around (opener :: t) = replaceGroups opener closer g [] (here :: around) t := by
  cases around <;> simp [replaceGroups]

/-- A closing delimiter replaces the innermost open group by its token. -/
theorem replaceGroups_closer {opener closer : Char} (h : closer ≠ opener) (g : Growth) (here outer : Text) (around : List Text)
    (t : Text) :
    replaceGroups opener closer g here (outer :: around) (closer :: t) =
      replaceGroups opener closer (g.tokenFor here.reverse).1 ((g.tokenFor here.reverse).2.reverse ++ outer) around t := by
  simp [replaceGroups, h]

/-- A closing delimiter without an open group stays in the text. -/
theorem replaceGroups_stray {opener closer : Char} (h : closer ≠ opener) (g : Growth) (here : Text) (t : Text) :
    replaceGroups opener closer g here [] (closer :: t) = replaceGroups opener closer g (closer :: here) [] t := by
  simp [replaceGroups, h]

/-- Any other character is read into the innermost open group. -/
theorem replaceGroups_other {opener closer c : Char} (ho : c ≠ opener) (hc : c ≠ closer) (g : Growth) (here : Text)
    (around : List Text) (t : Text) :
    replaceGroups opener closer g here around (c :: t) = replaceGroups opener closer g (c :: here) around t := by
  cases around <;> simp [replaceGroups, ho, hc]

/-- Replacing groups takes no cell away. -/
theorem length_le_replaceGroups (opener closer : Char) (g : Growth) (here : Text) (around : List Text) (t : Text) :
    g.pool.cells.length ≤ (replaceGroups opener closer g here around t).1.pool.cells.length := by
  induction t generalizing g here around with
  | nil => exact Nat.le_refl _
  | cons c rest ih =>
    by_cases ho : c = opener
    · rw [ho, replaceGroups_opener]
      exact ih g _ _
    · by_cases hc : c = closer
      · subst hc
        cases around with
        | nil =>
          rw [replaceGroups_stray ho]
          exact ih g _ _
        | cons outer around =>
          rw [replaceGroups_closer ho]
          exact Nat.le_trans (g.length_le_tokenFor _) (ih _ _ _)
      · rw [replaceGroups_other ho hc]
        exact ih g _ _

/-- Replacing brackets takes no cell away. -/
theorem length_le_replaceBrackets (g : Growth) (done : Text) (inner : Option Text) (t : Text) :
    g.pool.cells.length ≤ (replaceBrackets g done inner t).1.pool.cells.length := by
  induction t generalizing g done inner with
  | nil => exact Nat.le_refl _
  | cons c rest ih =>
    cases inner with
    | none => exact ih g _ _
    | some text =>
      simp only [replaceBrackets]
      split
      · exact ih g _ _
      · split
        · exact Nat.le_trans (g.length_le_tokenFor _) (ih _ _ _)
        · split <;> exact ih g _ _

/-- Replacing the groups of an index takes no cell away. -/
theorem length_le_reduceGroupsOf (g : Growth) (i : Nat) : g.pool.cells.length ≤ (g.reduceGroupsOf i).pool.cells.length := by
  have hreduce : ∀ t, g.pool.cells.length ≤ (g.reduceText t).1.pool.cells.length := fun t =>
    Nat.le_trans (length_le_replaceGroups '(' ')' g [] [] t) (length_le_replaceBrackets _ _ _ _)
  unfold reduceGroupsOf setText
  split
  · split
    · exact hreduce _
    · simp only [length_cells_setText]
      exact hreduce _
  · exact Nat.le_refl _

/-- Replacing the groups of a list of indices takes no cell away. -/
theorem length_le_foldl (l : List Nat) (g : Growth) :
    g.pool.cells.length ≤ (l.foldl reduceGroupsOf g).pool.cells.length := by
  induction l generalizing g with
  | nil => exact Nat.le_refl _
  | cons i l ih => exact Nat.le_trans (g.length_le_reduceGroupsOf i) (ih _)

/-- The state while the text of a cell is taken apart: a draft of the cell, which still has the text `own`, while the other cells
fit. -/
structure Under (write : Char → Text) (goal : Text) (fits : Nat → Text → Prop) (own : Text) (g : Growth) (i : Nat) (s : Line) :
    Prop where
  drafts : Drafts [] write goal g.pool i s
  others : ∀ x, g.pool.holds x = true → x ≠ i → fits x (g.pool.text x)
  own : g.pool.text i = own

section
variable {write : Char → Text} {goal : Text} {fits : Nat → Text → Prop} {own : Text} {g : Growth} {i : Nat}

/-- A part of a draft becomes the token of its text without redundant parentheses. -/
theorem Under.tokenFor {a m b l u : Line} (h : Under write goal fits own g i (a ++ m ++ b)) (hl : Text.unwrap (Line.text l) = Line.text u)
    (hu : u.Within g.pool.cells.length) (hne : u ≠ []) (hrefs : ∀ k, .ref k ∈ u ↔ .ref k ∈ m)
    (hmeaning : ∀ meaning, Line.expand write meaning u = Line.expand write meaning m) (hown : own ≠ Line.text u)
    (hfits : ∀ x, fits x (Line.text u)) :
    ∃ k, (g.tokenFor (Line.text l)).2 = Index.token k ∧
      Under write goal fits own (g.tokenFor (Line.text l)).1 i (a ++ .ref k :: b) := by
  unfold Growth.tokenFor
  rw [hl]
  split
  · rename_i honly
    obtain ⟨k, hk⟩ := Option.isSome_iff_exists.1 honly
    obtain rfl := hu.eq_ref_of_only? hk
    have hdraft := h.drafts.trim hu hrefs hmeaning
    rw [List.append_assoc, List.singleton_append] at hdraft
    exact ⟨k, by simp [Mark.text], hdraft, h.others, h.own⟩
  · have htext := Line.text_ne_nil hne
    have hsound := h.drafts.sound
    have hdraft := h.drafts.extract hu hrefs hmeaning htext (h.own ▸ hown)
    have hheld := hsound.holds_intern htext
    have hkept := @Sound.text_intern g.pool hsound _ htext
    have hindex := hsound.text_index htext
    have hi := h.drafts.holds
    have hresult : ∀ created, Under write goal fits own ⟨(g.pool.intern (Line.text u)).pool, created⟩ i
        (a ++ .ref (g.pool.intern (Line.text u)).index :: b) := by
      intro created
      refine ⟨hdraft, fun x hx hxi => ?_, (hkept hi).trans h.own⟩
      rcases (hheld x).1 hx with hx | rfl
      · rw [hkept hx]
        exact h.others x hx hxi
      · rw [hindex]
        exact hfits _
    generalize g.pool.intern (Line.text u) = q at hresult ⊢
    obtain ⟨pool, k, created⟩ := q
    cases created with
    | true => exact ⟨k, rfl, hresult _⟩
    | false => exact ⟨k, rfl, hresult _⟩

/-- A text without the delimiters is read into the innermost open group. -/
theorem replaceGroups_plain {opener closer : Char} {u : Text} (ho : opener ∉ u) (hc : closer ∉ u) (g : Growth) (here : Text)
    (around : List Text) (t : Text) :
    replaceGroups opener closer g here around (u ++ t) = replaceGroups opener closer g (u.reverse ++ here) around t := by
  induction u generalizing here with
  | nil => rfl
  | cons c u ih =>
    simp only [List.mem_cons, not_or] at ho hc
    rw [List.cons_append, replaceGroups_other (Ne.symm ho.1) (Ne.symm hc.1), ih ho.2 hc.2]
    simp

theorem delimiter_facts {opener closer : Char} (hpair : Source.openerOf? closer = some opener) {c : Char}
    (hc : c ∈ [opener, closer]) : Source.isDelimiter c = true ∧ c.isDigit = false ∧ c ≠ '@' ∧ c ≠ '/' := by
  rcases Source.openerOf?_eq_some hpair with ⟨rfl, rfl⟩ | ⟨rfl, rfl⟩ | ⟨rfl, rfl⟩ <;> fin_cases hc <;> decide

/-- A mark that is no delimiter is not one of a pair. -/
theorem ne_delimiter {opener closer : Char} (hpair : Source.openerOf? closer = some opener) {m : Mark}
    (hm : ∀ c, m = .char c → Source.isDelimiter c = false) {c : Char} (hc : c ∈ [opener, closer]) : c ∉ m.text ∧ m ≠ .char c := by
  obtain ⟨hd, hdigit, hat, hslash⟩ := delimiter_facts hpair hc
  cases m with
  | char d =>
    have hcd : c ≠ d := by
      rintro rfl
      rw [hm c rfl] at hd
      simp at hd
    exact ⟨by simpa [Mark.text] using hcd, by simpa using Ne.symm hcd⟩
  | ref k => exact ⟨Line.not_mem_token hdigit hat hslash k, by simp⟩

/-- A mark that is no delimiter is read into the innermost open group. -/
theorem replaceGroups_mark {opener closer : Char} (hpair : Source.openerOf? closer = some opener) {m : Mark}
    (hm : ∀ c, m = .char c → Source.isDelimiter c = false) (g : Growth) (here : Text) (around : List Text) (t : Text) :
    replaceGroups opener closer g here around (m.text ++ t) = replaceGroups opener closer g (m.text.reverse ++ here) around t :=
  replaceGroups_plain (ne_delimiter hpair hm (by simp)).1 (ne_delimiter hpair hm (by simp)).1 g here around t

/-- A line without groups of the kind stays as it is. -/
theorem replaceGroups_eq_self {opener closer : Char} (hpair : Source.openerOf? closer = some opener) {s : Line}
    (hopener : .char opener ∉ s) (hcloser : .char closer ∉ s) (g : Growth) :
    replaceGroups opener closer g [] [] (Line.text s) = (g, Line.text s) := by
  obtain ⟨-, hdigit, hat, hslash⟩ := delimiter_facts hpair (c := opener) (by simp)
  obtain ⟨-, hdigit', hat', hslash'⟩ := delimiter_facts hpair (c := closer) (by simp)
  have hplain := replaceGroups_plain (Line.not_mem_text hdigit hat hslash hopener) (Line.not_mem_text hdigit' hat' hslash' hcloser) g [] [] []
  rw [List.append_nil, List.append_nil] at hplain
  rw [hplain]
  simp [replaceGroups]

/-- A group whose inner line holds no further group of its kind becomes the token of that line. -/
theorem Under.closeGroup {opener closer : Char} (hpair : Source.openerOf? closer = some opener)
    (hwrite : ∀ c, c ∈ [opener, closer, '(', ')'] → write c = []) (hown : own = [] ∨ opener ∈ own) {a inner b : Line}
    (h : Under write goal fits own g i (a ++ (.char opener :: inner ++ [.char closer]) ++ b)) (hinner : inner.Nested)
    (hne : inner ≠ []) (hopener : .char opener ∉ inner)
    (hfits : ∀ u : Line, u.Within g.pool.cells.length → u.Nested → u ≠ [] → u ⊆ inner → ∀ x, fits x (Line.text u)) :
    ∃ k, (g.tokenFor (Line.text inner)).2 = Index.token k ∧
      Under write goal fits own (g.tokenFor (Line.text inner)).1 i (a ++ .ref k :: b) := by
  obtain ⟨u, hunwrap, hwraps, hu, hune⟩ := hinner.unwrap hne
  have hwithin : u.Within g.pool.cells.length := h.drafts.within.subset fun m hm => by simp [hwraps.subset hm]
  refine h.tokenFor hunwrap hwithin hune (fun k => by simp [hwraps.ref_mem_iff]) (fun meaning => ?_) (fun heq => ?_)
    (hfits u hwithin hu hune hwraps.subset)
  · rw [hwraps.expand_eq (hwrite _ (by simp)) (hwrite _ (by simp)), Line.expand_append, Line.expand_cons]
    simp [Mark.expand, hwrite]
  · obtain ⟨-, hdigit, hat, hslash⟩ := delimiter_facts hpair (c := opener) (by simp)
    rcases hown with hnil | hmem
    · exact Line.text_ne_nil hune (heq ▸ hnil)
    · exact Line.not_mem_text hdigit hat hslash (fun hmem => hopener (hwraps.subset hmem)) (heq ▸ hmem)

/-- What is left of a nested line when groups of one kind have become tokens. -/
structure Flattened (opener closer : Char) (s s' : Line) : Prop where
  nested : s'.Nested
  nonempty : s ≠ [] → s' ≠ []
  opener : .char opener ∉ s'
  closer : .char closer ∉ s'
  chars : ∀ c, .char c ∈ s' → .char c ∈ s

/-- A line with flattened groups still has them behind a mark that is no delimiter. -/
theorem Flattened.mark {opener closer : Char} {m : Mark} {s s' : Line} (hm : ∀ c, m = .char c → Source.isDelimiter c = false)
    (ho : m ≠ .char opener) (hc : m ≠ .char closer) (h : Flattened opener closer s s') :
    Flattened opener closer (m :: s) (m :: s') where
  nested := .mark hm h.nested
  nonempty := by simp
  opener := by simpa using ⟨Ne.symm ho, h.opener⟩
  closer := by simpa using ⟨Ne.symm hc, h.closer⟩
  chars c hmem := by
    rcases List.mem_cons.1 hmem with rfl | hmem
    · exact List.mem_cons_self
    · exact List.mem_cons_of_mem _ (h.chars c hmem)

/-- A group becomes a token. -/
theorem Flattened.token {opener closer : Char} {inner s s' : Line} (k : Nat) (h : Flattened opener closer s s') :
    Flattened opener closer (.char opener :: inner ++ .char closer :: s) (.ref k :: s') where
  nested := .mark (by simp) h.nested
  nonempty := by simp
  opener := by simpa using h.opener
  closer := by simpa using h.closer
  chars c hmem := by
    have := h.chars c (by simpa using hmem)
    simp [this]

/-- A group of another kind stays. -/
theorem Flattened.group {opener closer o c : Char} {inner inner' s s' : Line} (hgroup : Source.openerOf? c = some o)
    (ho : o ≠ opener) (hoc : o ≠ closer) (hco : c ≠ opener) (hc : c ≠ closer) (hinner : Flattened opener closer inner inner')
    (hne : inner ≠ []) (h : Flattened opener closer s s') :
    Flattened opener closer (.char o :: inner ++ .char c :: s) (.char o :: inner' ++ .char c :: s') where
  nested := .group hgroup (hinner.nonempty hne) hinner.nested h.nested
  nonempty := by simp
  opener := by simpa using ⟨Ne.symm ho, hinner.opener, Ne.symm hco, h.opener⟩
  closer := by simpa using ⟨Ne.symm hoc, hinner.closer, Ne.symm hc, h.closer⟩
  chars d hd := by
    simp only [List.cons_append, List.mem_cons, List.mem_append, Mark.char.injEq] at hd ⊢
    rcases hd with hd | hd | hd | hd
    · exact .inl hd
    · exact .inr (.inl (hinner.chars d hd))
    · exact .inr (.inr (.inl hd))
    · exact .inr (.inr (.inr (h.chars d hd)))

/-- The groups of one kind in a nested line become tokens. What is left is nested and holds none of their delimiters. -/
theorem Under.replaceGroups {opener closer : Char} (hpair : Source.openerOf? closer = some opener)
    (hwrite : ∀ c, c ∈ [opener, closer, '(', ')'] → write c = []) (hown : own = [] ∨ opener ∈ own) (allowed : Char → Prop)
    (hfits : ∀ (n : Nat) (u : Line), u.Within n → u.Nested → u ≠ [] → .char opener ∉ u → .char closer ∉ u →
      (∀ c, .char c ∈ u → allowed c) → ∀ x, fits x (Line.text u))
    {s : Line} (hs : s.Nested) (hallowed : ∀ c, .char c ∈ s → allowed c) {a b : Line}
    (h : Under write goal fits own g i (a ++ s ++ b)) (here rest : Text) (around : List Text) :
    ∃ g' s', Growth.replaceGroups opener closer g here around (Line.text s ++ rest) =
        Growth.replaceGroups opener closer g' ((Line.text s').reverse ++ here) around rest ∧
      Under write goal fits own g' i (a ++ s' ++ b) ∧ Flattened opener closer s s' := by
  have hne : closer ≠ opener := (Source.opener_ne_closer hpair hpair).symm
  induction hs generalizing g a b here around rest with
  | nil => exact ⟨g, [], rfl, h, .nil, id, by simp, by simp, by simp⟩
  | @mark m s hm hs ih =>
    rw [Line.text_cons, List.append_assoc, replaceGroups_mark hpair hm]
    have h' : Under write goal fits own g i ((a ++ [m]) ++ s ++ b) := by simpa using h
    obtain ⟨g', s', heq, hunder, hflat⟩ := ih (fun c hc => hallowed c (List.mem_cons_of_mem _ hc)) h' _ _ _
    exact ⟨g', m :: s', by rw [heq]; simp, by simpa using hunder,
      hflat.mark hm (ne_delimiter hpair hm (by simp)).2 (ne_delimiter hpair hm (by simp)).2⟩
  | @group o c inner s hgroup hinner_ne hinner hs ihinner ihs =>
    have hallowed_inner : ∀ d, .char d ∈ inner → allowed d := fun d hd => hallowed d (by simp [hd])
    have hallowed_rest : ∀ d, .char d ∈ s → allowed d := fun d hd => hallowed d (by simp [hd])
    have htext : Line.text (.char o :: inner ++ .char c :: s) ++ rest = o :: (Line.text inner ++ c :: (Line.text s ++ rest)) := by
      simp [Mark.text]
    have h₁ : Under write goal fits own g i ((a ++ [.char o]) ++ inner ++ (.char c :: s ++ b)) := by simpa using h
    rw [htext]
    by_cases ho : o = opener
    · subst ho
      obtain rfl := Source.closer_unique hgroup hpair
      rw [replaceGroups_opener]
      obtain ⟨g₁, inner', heq, hunder, hflat⟩ := ihinner hallowed_inner h₁ _ _ _
      rw [heq, List.append_nil, replaceGroups_closer hne, List.reverse_reverse]
      have h₂ : Under write goal fits own g₁ i (a ++ (.char o :: inner' ++ [.char c]) ++ (s ++ b)) := by simpa using hunder
      obtain ⟨k, htoken, h₃⟩ := h₂.closeGroup hpair hwrite hown hflat.nested (hflat.nonempty hinner_ne) hflat.opener
        (fun u hwithin hu hune hsub => hfits _ u hwithin hu hune (fun hmem => hflat.opener (hsub hmem))
          (fun hmem => hflat.closer (hsub hmem)) fun d hd => hallowed_inner d (hflat.chars d (hsub hd)))
      rw [htoken]
      have h₄ : Under write goal fits own (g₁.tokenFor (Line.text inner')).1 i ((a ++ [.ref k]) ++ s ++ b) := by simpa using h₃
      obtain ⟨g', s', heq', hunder', hflat'⟩ := ihs hallowed_rest h₄ _ _ _
      exact ⟨g', .ref k :: s', by rw [heq']; simp [Mark.text], by simpa using hunder', hflat'.token k⟩
    · have hoc := Source.opener_ne_closer hgroup hpair
      have hco := (Source.opener_ne_closer hpair hgroup).symm
      have hcc : c ≠ closer := by
        rintro rfl
        exact ho (Option.some.inj (hgroup.symm.trans hpair))
      rw [replaceGroups_other ho hoc]
      obtain ⟨g₁, inner', heq, hunder, hflat⟩ := ihinner hallowed_inner h₁ _ _ _
      rw [heq, replaceGroups_other hco hcc]
      have h₂ : Under write goal fits own g₁ i ((a ++ [.char o] ++ inner' ++ [.char c]) ++ s ++ b) := by simpa using hunder
      obtain ⟨g', s', heq', hunder', hflat'⟩ := ihs hallowed_rest h₂ _ _ _
      exact ⟨g', .char o :: inner' ++ .char c :: s', by rw [heq']; simp [Mark.text], by simpa using hunder',
        hflat.group hgroup ho hoc hco hcc hinner_ne hflat'⟩

end

end Growth

end FormulaDag.Pool
