import FormulaDag.Proofs.Expression.Grouping
import FormulaDag.Proofs.Pool.Flattening

/-!
# The parentheses of an expression

Once its braces have been taken apart, the source of an expression is a pool whose cells are phrases. Taking the parentheses of a phrase
apart leaves a phrase for the same expression. The brackets of a phrase hold a single index, so they stay as they are.
-/

namespace FormulaDag

open Pool Phrase

section
variable {letters : List Char} (hletters : ∀ c ∈ letters, c.isLower = true)
include hletters

/-- Taking the braces of an expression apart. -/
theorem Expression.represents_ofBraces {e : Expression} (he : ∀ c ∈ e.letters, c ∈ letters ∧ c ≠ 'e') :
    (ofBraces e.write).Represents (.whole letters) e e.write.length := by
  have hR := Reading.monotone_whole letters
  obtain ⟨g, l, hturns, hreads, -⟩ := e.splits hletters he false ⟨Pool.empty, []⟩ empty_sound
  have hwhole := e.reads_whole hreads
  have hwithin := hwhole.within hletters fun _ _ hk => hk.lt hR
  have hpos := hwhole.charCount_pos
  have hne : l.line ≠ [] := by
    rintro heq
    rw [heq] at hpos
    simp at hpos
  have hempty : ofBraces e.write = g.pool.setText Index.root l.line.text := by
    simp only [ofBraces, Expression.write, hturns.eq, hwhole.unwrap hletters]
  have hroot : g.pool.cells[Index.root]? = some (.holding []) := by
    obtain ⟨more, heq⟩ := hturns.later.grows
    rw [← heq]
    rfl
  have hheld : g.pool.holds Index.root = true := holds_iff.2 ⟨_, hroot⟩
  have hsound := hturns.later.sound
  have hreplaced := hsound.replaced hheld hwithin hne
  obtain ⟨j, hrewritten⟩ := hsound.exists_rewritten hheld (Line.text_ne_nil hne)
  have hmeans : ∀ x d, g.pool.Means (.whole letters) x d → (ofBraces e.write).Means (.whole letters) x d := by
    intro x d hx
    rw [hempty]
    refine hx.setText hR hsound hheld hwithin hne fun s d hs => ?_
    exact absurd (hs.text.symm.trans (text_of_holding hroot)) (Line.text_ne_nil hs.nonempty)
  have hrootMeans : (ofBraces e.write).Means (.whole letters) Index.root e := by
    have hsaid : (ofBraces e.write).Says (.whole letters) l.line e := ⟨l, rfl, hR hmeans hwhole⟩
    refine hsaid.means hR ?_ ?_
    · rw [hempty, hreplaced.length]
      exact lt_of_holds hheld
    · rw [hempty]
      exact hreplaced.target
  refine ⟨hempty ▸ hrewritten.sound, hrootMeans, fun x hx => ?_, ?_⟩
  · rw [hempty] at hx
    rcases hturns.later.meant x (hrewritten.held_before hx) with hx | ⟨d, hd⟩
    · have hzero : x = Index.root := by
        have hlt := lt_of_holds hx
        exact Nat.lt_one_iff.1 hlt
      exact ⟨e, hzero ▸ hrootMeans⟩
    · exact ⟨d, hmeans _ _ hd⟩
  · have htext := extent_setText_le hsound hheld (Line.text_ne_nil hne)
    have hextent := hturns.extent
    rw [hwithin.plainCount_eq] at htext
    rw [extent_empty] at hextent
    rw [hempty, Expression.write]
    omega

/-- The parentheses of a phrase can be taken apart wherever it is written. -/
theorem Phrase.Reads.exists_turns {M : Nat → Expression → Prop} {c : Category} {l : Phrase} {e : Expression} (h : Reads letters M c l e)
    {g : Growth} (hg : g.pool.Sound) (hM : ∀ k d, M k d → g.pool.Means (.whole letters) k d) :
    ∃ (g' : Growth) (l' : Phrase), g.Turns (.whole letters) '(' ')' l.line.text l.line.charCount g' l'.line ∧
      Reads letters (g'.pool.Means (.whole letters)) c l' e ∧
      ((∀ run rest, l ≠ .digits run :: rest) → ∀ run rest, l' ≠ .digits run :: rest) := by
  have hplain : ∀ {g : Growth}, g.pool.Sound → ∀ s : Line, .char '(' ∉ s → .char ')' ∉ s →
      g.Turns (.whole letters) '(' ')' s.text s.charCount g s := fun hg s ho hc => .plain rfl hg ho hc
  induction h generalizing g with
  | digits run =>
    have hturns := hplain hg (line [.digits run]) (char_not_mem_digits run (by decide)) (char_not_mem_digits run (by decide))
    exact ⟨g, [.digits run], hturns, .digits run, id⟩
  | @letter c hc he =>
    have hlower := hletters _ hc
    have hturns := hplain hg (line [.letter c]) (char_not_mem_letter hlower (by decide)) (char_not_mem_letter hlower (by decide))
    exact ⟨g, [.letter c], hturns, .letter hc he, id⟩
  | @call c e hc =>
    have hturns := hplain hg (line [.call c]) (char_not_mem_call c (by decide)) (char_not_mem_call c (by decide))
    exact ⟨g, [.call c], hturns, .call (hc.mono hM), id⟩
  | @reference k e hk => exact ⟨g, [.ref k], hplain hg _ (by simp [Item.line]) (by simp [Item.line]), .reference (hM _ _ hk), id⟩
  | @parentheses l e h ih =>
    obtain ⟨g', l', hturns, hreads, -⟩ := ih hg hM
    have hwithin := hreads.within hletters fun _ _ hk => hk.lt (Reading.monotone_whole letters)
    obtain ⟨g'', k, hturns', hmeans⟩ := hturns.group (Reading.monotone_whole letters) rfl hwithin hreads.charCount_pos
      (hreads.unwrap hletters) ⟨l', rfl, hreads⟩
    refine ⟨g'', [.ref k], ?_, .reference hmeans, fun _ _ _ heq => by cases heq⟩
    have htext : (line (.sign '(' :: l ++ [.sign ')'])).text = '(' :: l.line.text ++ [')'] := by simp [Item.line, Mark.text]
    rw [htext]
    exact hturns'.mono (by simp [Item.line]; omega)
  | baseOfAtom _ ih =>
    obtain ⟨g', l', hturns, hreads, hdigits⟩ := ih hg hM
    exact ⟨g', l', hturns, .baseOfAtom hreads, hdigits⟩
  | @power l k a b ha hb ih =>
    obtain ⟨g', l', hturns, hreads, hdigits⟩ := ih hg hM
    have hrest := hplain hturns.later.sound [.char '^', .ref k] (by simp) (by simp)
    refine ⟨g', l' ++ [Item.sign '^', Item.ref k], ?_, .power hreads (hturns.later.means _ _ (hM _ _ hb)),
      fun hl => append_ne_digits hreads.ne_nil (hdigits (ne_digits_of_append hl))⟩
    rw [line_append, line_append, Line.text_append, Line.charCount_append]
    exact hturns.append hrest
  | operandOfBase _ ih =>
    obtain ⟨g', l', hturns, hreads, hdigits⟩ := ih hg hM
    exact ⟨g', l', hturns, .operandOfBase hreads, hdigits⟩
  | operandOfPower _ ih =>
    obtain ⟨g', l', hturns, hreads, hdigits⟩ := ih hg hM
    exact ⟨g', l', hturns, .operandOfPower hreads, hdigits⟩
  | wholeOfAtom _ ih =>
    obtain ⟨g', l', hturns, hreads, hdigits⟩ := ih hg hM
    exact ⟨g', l', hturns, .wholeOfAtom hreads, hdigits⟩
  | wholeOfPower _ ih =>
    obtain ⟨g', l', hturns, hreads, hdigits⟩ := ih hg hM
    exact ⟨g', l', hturns, .wholeOfPower hreads, hdigits⟩
  | negation _ ih =>
    obtain ⟨g', l', hturns, hreads, -⟩ := ih hg hM
    refine ⟨g', .sign '-' :: l', ?_, .negation hreads, fun _ _ _ heq => by cases heq⟩
    have h := (hplain hg [.char '-'] (by simp) (by simp)).append hturns
    rw [line_cons, Line.text_append, Line.charCount_append]
    exact h
  | @operation op l l' a b ha hb hdigits iha ihb =>
    obtain ⟨g', m, hturns, hreads, hstart⟩ := iha hg hM
    have hsign := hplain hturns.later.sound [.char op.char] (by cases op <;> decide) (by cases op <;> decide)
    obtain ⟨g'', m', hturns', hreads', hstart'⟩ := ihb hturns.later.sound fun k d hk => hturns.later.means _ _ (hM k d hk)
    refine ⟨g'', m ++ .sign op.char :: m', ?_,
      .operation op (hreads.mono hturns'.later.means) hreads' fun hop => hstart' (hdigits hop),
      fun hl => append_ne_digits hreads.ne_nil (hstart (ne_digits_of_append hl))⟩
    rw [line_append, line_append, line_cons, line_cons, Line.text_append, Line.text_append, Line.charCount_append, Line.charCount_append]
    exact hturns.append (hsign.append hturns')

/-! ## Brackets -/

namespace Pool.Growth

/-- A text that taking brackets apart leaves as it is. -/
def Keeps (g : Growth) (u : Text) : Prop :=
  ∀ done t, replaceBrackets g done none (u ++ t) = replaceBrackets g (u.reverse ++ done) none t

omit hletters in
theorem Keeps.append {g : Growth} {u v : Text} (hu : g.Keeps u) (hv : g.Keeps v) : g.Keeps (u ++ v) := by
  intro done t
  rw [List.append_assoc, hu, hv, List.reverse_append, List.append_assoc]

omit hletters in
theorem Keeps.of_not_mem {u : Text} (hu : '[' ∉ u) (g : Growth) : g.Keeps u := by
  intro done t
  induction u generalizing done with
  | nil => rfl
  | cons c u ih =>
    rw [List.mem_cons, not_or] at hu
    rw [List.cons_append, replaceBrackets, if_neg (Ne.symm hu.1), ih hu.2, List.reverse_cons, List.append_assoc, List.singleton_append]

omit hletters in
/-- A line without brackets. -/
theorem Keeps.line {s : Line} (hs : .char '[' ∉ s) (g : Growth) : g.Keeps s.text :=
  .of_not_mem (Line.not_mem_text (by decide) (by decide) (by decide) hs) g

omit hletters in
/-- A token in brackets. -/
theorem Keeps.token {k : Nat} (hk : k < Index.bound) (g : Growth) : g.Keeps ('[' :: (Index.token k ++ [']'])) := by
  intro done t
  have hfree : ∀ c ∈ ['(', ')', '[', ']'], c ∉ Index.token k := by
    simpa [Mark.text] using (Line.open_ref k).not_mem_text
  have htoken : g.tokenFor (Index.token k) = (g, Index.token k) := by
    rw [tokenFor, Line.unwrap_of_not_mem (hfree _ (by simp)), Token.only?_token hk, Option.isSome_some, if_pos rfl]
  rw [List.cons_append, List.append_assoc, List.singleton_append, replaceBrackets, if_pos rfl, (replaceBrackets_plain hfree _ _ _).2,
    List.append_nil, replaceBrackets, if_neg (by decide), if_pos rfl, List.reverse_reverse, htoken]
  simp

end Pool.Growth

/-- The brackets of a phrase stay as they are. -/
theorem Phrase.Reads.keeps {M : Nat → Expression → Prop} (hM : ∀ k d, M k d → k < Index.bound) {c : Category} {l : Phrase}
    {e : Expression} (h : Reads letters M c l e) (g : Growth) : g.Keeps l.line.text := by
  induction h with
  | digits run => exact .line (char_not_mem_digits run (by decide)) g
  | letter hc he => exact .line (char_not_mem_letter (hletters _ hc) (by decide)) g
  | @call c e hc =>
    have hword : .char '[' ∉ Line.ofText (Expression.command c.word) := by
      intro hmem
      rw [Line.ofText, List.mem_map] at hmem
      obtain ⟨d, hd, heq⟩ := hmem
      rw [Mark.char.injEq] at heq
      subst heq
      rcases List.mem_cons.1 hd with hd | hd
      · exact absurd hd (by decide)
      · exact absurd (c.isAlpha_of_mem_word _ hd) (by decide)
    have htext : (line [.call c]).text = (Line.ofText (Expression.command c.word)).text ++ c.operands.text := by
      rw [line_cons, line_nil, List.append_nil, Item.line, ← Line.text_append]
      rfl
    rw [htext]
    refine (Growth.Keeps.line hword g).append ?_
    cases hc with
    | @root k m a b ha hb =>
      have hoperands : (Call.root k m).operands.text = '[' :: (Index.token k ++ [']']) ++ Line.text [.ref m] := by
        simp [Call.operands, Mark.text]
      rw [hoperands]
      exact (Growth.Keeps.token (hM _ _ ha) g).append (.line (by simp) g)
    | fraction | squareRoot | logarithm | application => exact .line (by simp [Call.operands]) g
  | reference => exact .line (by simp [Item.line]) g
  | @parentheses l e _ ih =>
    have htext : (line (.sign '(' :: l ++ [.sign ')'])).text = ['('] ++ l.line.text ++ [')'] := by simp [Item.line, Mark.text]
    rw [htext]
    exact ((Growth.Keeps.of_not_mem (by simp) g).append ih).append (.of_not_mem (by simp) g)
  | power _ _ ih =>
    rw [line_append, Line.text_append]
    exact ih.append (.line (by simp [Item.line]) g)
  | negation _ ih =>
    rw [line_cons, Line.text_append]
    exact (Growth.Keeps.line (by simp [Item.line]) g).append ih
  | operation op _ _ _ iha ihb =>
    rw [line_append, Line.text_append, line_cons, Line.text_append]
    exact iha.append ((Growth.Keeps.line (by cases op <;> simp [Item.line, Operator.char]) g).append ihb)
  | baseOfAtom _ ih | operandOfBase _ ih | operandOfPower _ ih | wholeOfAtom _ ih | wholeOfPower _ ih => exact ih

/-! ## All cells -/

namespace Pool

variable {e : Expression} {n : Nat}

/-- Taking the parentheses of one cell apart. -/
theorem Represents.reduceGroupsOf {g : Growth} (h : g.pool.Represents (.whole letters) e n) (hbound : n ≤ Index.bound) (i : Nat) :
    (g.reduceGroupsOf i).pool.Represents (.whole letters) e n := by
  have hR := Reading.monotone_whole letters
  by_cases hi : g.pool.holds i = true
  · obtain ⟨l, d, hl, hreads⟩ := h.exists_phrase hR hi
    obtain ⟨g', l', hturns, hreads', -⟩ := Phrase.Reads.exists_turns hletters hreads h.sound fun _ _ => id
    have hpos := hreads.charCount_pos
    have hpos' := hreads'.charCount_pos
    have hwithin := hreads'.within hletters fun _ _ hk => hk.lt hR
    have hl' := hturns.later.writes hl
    have hextent := hturns.extent
    have hsmall : g'.pool.cells.length ≤ Index.bound := by
      have hslack := le_total (fun t => Token.plainCount t - 1) hl'.held
      rw [hl'.text, hl'.within.plainCount_eq] at hslack
      have := h.extent
      rw [Pool.extent, slack] at hextent
      omega
    have hkept : ∀ d, g'.pool.Says (.whole letters) l.line d → g'.pool.Says (.whole letters) l'.line d := by
      rintro d ⟨m, hm, hmreads⟩
      -- the indices of the line were there before, so it says no more than it did
      have hold : Phrase.Reads letters (g.pool.Means (.whole letters)) .whole m d := by
        refine (hmreads.restrict (hm ▸ hl.within.refs)).mono fun k d hk => ?_
        exact hturns.later.means_of hR (Reading.local_whole letters) h.sound
          (fun x hx => (h.exists_phrase hR hx).elim fun l hl => ⟨_, hl.choose_spec.1⟩) hk.1 hk.2
      obtain ⟨g'', m', hturns', hmreads', -⟩ := hold.exists_turns hletters h.sound fun _ _ => id
      have heq := hturns'.eq
      rw [hm, hturns.eq, Prod.mk.injEq] at heq
      obtain ⟨rfl, htext⟩ := heq
      have hmwithin := hmreads'.within hletters fun _ _ hk => hk.lt hR
      exact ⟨m', hmwithin.text_injective hwithin htext.symm, hmreads'⟩
    have hreduce : g.reduceText l.line.text = (g', l'.line.text) := by
      have hkeeps := hreads'.keeps hletters (fun _ _ hk => Nat.lt_of_lt_of_le (hk.lt hR) hsmall) g' [] []
      rw [List.append_nil, List.append_nil] at hkeeps
      rw [Growth.reduceText, hturns.eq]
      simp [hkeeps, Growth.replaceBrackets]
    rw [Growth.reduceGroupsOf, if_pos hi, hl.text, hreduce, Growth.setText]
    split
    · rename_i hsame
      rw [hl'.text] at hsame
      rw [hwithin.text_injective hl'.within hsame] at hextent
      exact h.later hturns.later (Nat.le_of_add_le_add_right hextent)
    · exact h.setText hR hturns.later hl hwithin hkept hpos hpos' hextent
  · rwa [Growth.reduceGroupsOf, if_neg hi]

theorem Represents.foldl_reduceGroupsOf (l : List Nat) {g : Growth} (h : g.pool.Represents (.whole letters) e n)
    (hbound : n ≤ Index.bound) : (l.foldl Growth.reduceGroupsOf g).pool.Represents (.whole letters) e n := by
  induction l generalizing g with
  | nil => exact h
  | cons i l ih => exact ih (h.reduceGroupsOf hletters hbound i)

/-- Taking the parentheses of all cells apart. -/
theorem Represents.withoutGroups {p : Pool} (h : p.Represents (.whole letters) e n) (hbound : n ≤ Index.bound) :
    p.withoutGroups.Represents (.whole letters) e n := by
  have hfirst := foldl_reduceGroupsOf hletters p.holders (g := ⟨p, []⟩) h hbound
  exact foldl_reduceGroupsOf hletters _ (g := ⟨_, []⟩) hfirst hbound

end Pool

end

end FormulaDag
