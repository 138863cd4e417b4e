import FormulaDag.Proofs.Pool.OfSource
import FormulaDag.Proofs.Pool.Ripe
import FormulaDag.Proofs.Pool.Slack
import FormulaDag.Proofs.Pool.Valuation

/-!
# The tree of a source text

Text by text the groups of a pool are taken apart, and every index keeps the tree that it stands for. In the end it stands for its text as
it is, and the root stands for the tree that the source text has on its own.
-/

namespace FormulaDag

namespace Pool

open Growth

namespace Valued
variable {waits waits' : Nat → Prop} {news : Prop} {val : Nat → Tree} {g : Growth} {i : Nat} {s s' : Line}

/-- The text of a cell is replaced by a line for the tree that the cell stands for. -/
theorem setText (h : Valued waits news val g) (hi : g.pool.holds i = true) (hwithin : s'.Within g.pool.cells.length) (hne : s' ≠ [])
    (hvalue : val i = s'.value val) (hstill : waits' i ∨ s'.Still val) (hwaits : ∀ x, x ≠ i → waits x → waits' x) :
    Valued waits' news val ⟨g.pool.setText i s'.text, g.created⟩ := by
  obtain ⟨j, hq⟩ := h.sound.exists_rewritten hi (Line.text_ne_nil hne)
  generalize g.pool.setText i s'.text = q at hq
  have hown : ∀ u, q.Writes i u → u = s' := fun u hu =>
    hu.within.text_injective hwithin (hu.text.symm.trans ((hq.text_cases hu.held).resolve_right fun hother => hother.1 rfl))
  have hmeant : ∀ x u, q.Writes x u → val x = u.value val := by
    intro x u hu
    by_cases hxi : x = i
    · subst hxi
      rw [hown u hu, hvalue]
    · exact h.meant x u ((hq.writes_iff hxi).1 hu)
  have htarget : q.Writes j s' := ⟨holds_iff.2 ⟨_, hq.target⟩, hq.length.symm ▸ hwithin, hne, hq.text_target⟩
  refine ⟨hq.sound, fun x hx hxne => ?_, fun k hk => ?_, hmeant, fun x u hu => ?_⟩
  · by_cases hxi : x = i
    · subst hxi
      exact ⟨s', hx, hq.length.symm ▸ hwithin, hne, (hq.text_cases hx).resolve_right fun hother => hother.1 rfl⟩
    · have hxp := hq.held_before hx
      exact (h.written x hxp (hq.text_of_ne hxi hxp ▸ hxne)).imp fun u hu => (hq.writes_iff hxi).2 hu
  · have hkp : k < g.pool.cells.length := hq.length ▸ hk
    rw [hq.resolve k hkp]
    split
    · rename_i hki
      rw [hmeant j s' htarget, ← hvalue, ← hki, h.pointed k hkp]
    · exact h.pointed k hkp
  · by_cases hxi : x = i
    · subst hxi
      rw [hown u hu]
      exact hstill.imp_right .inr
    · exact (h.still x u ((hq.writes_iff hxi).1 hu)).imp_left (hwaits x hxi)

/-- The parentheses of a line become indices. -/
theorem replaceParentheses (h : Valued waits news val g) (hwithin : s.Within g.pool.cells.length) (hs : s.Bracketed ∨ news ∧ s.Braceless)
    (hbound : (Growth.replaceGroups '(' ')' g [] [] s.text).1.pool.cells.length ≤ Index.bound) :
    ∃ (g' : Growth) (s' : Line) (val' : Nat → Tree), Growth.replaceGroups '(' ')' g [] [] s.text = (g', s'.text) ∧
      Valued waits news val' g' ∧ Extends g.pool g'.pool val val' ∧ s'.Within g'.pool.cells.length ∧ s'.value val' = s.value val ∧
      s'.Bracketed := by
  rcases hs with hs | ⟨hnews, hs⟩
  · exact ⟨g, s, val, replaceGroups_eq_self rfl (hs.free '(' (by simp)) (hs.free ')' (by simp)) g, h, .refl _ _, hwithin, rfl, hs⟩
  · obtain rfl : news = True := eq_true hnews
    rw [← List.append_nil s.text] at hbound ⊢
    obtain ⟨g', s', val', heq, h', hextends, hwithin', hturned⟩ :=
      h.replaceGroups (by rfl) (by decide) hs.nested (.inr (hs.free '{' (by simp))) hwithin hbound
    have hflat := hturned.flattened rfl
    refine ⟨g', s', val', by rw [heq]; simp [Growth.replaceGroups], h', hextends, hwithin', ?_,
      hflat.nested.bracketed (hflat.nonempty hs.nonempty) hflat.opener hflat.closer fun c hc hmem => hs.free c hc (hflat.chars c hmem)⟩
    rw [← hturned.value_eq rfl (by decide), hwithin.value_eq hextends.agree]

/-- The parentheses and brackets of a line become indices. -/
theorem reduceText (h : Valued waits news val g) (hwithin : s.Within g.pool.cells.length) (hs : s.Bracketed ∨ news ∧ s.Braceless)
    (hbound : (g.reduceText s.text).1.pool.cells.length ≤ Index.bound) :
    ∃ (g' : Growth) (s' : Line) (val' : Nat → Tree), g.reduceText s.text = (g', s'.text) ∧ Valued waits news val' g' ∧
      Extends g.pool g'.pool val val' ∧ s'.Within g'.pool.cells.length ∧ s'.value val' = s.value val ∧ s'.Still val' ∧ s' ≠ [] := by
  unfold Growth.reduceText at hbound ⊢
  obtain ⟨g₁, s₁, val₁, heq, h₁, hextends, hwithin₁, hvalue, hs₁⟩ :=
    h.replaceParentheses hwithin hs (Nat.le_trans (length_le_replaceBrackets _ _ _ _) hbound)
  rw [heq] at hbound ⊢
  obtain ⟨g', s', val', heq', h', hextends', hwithin', hparts⟩ :=
    h₁.replaceBrackets hs₁.free (fun I (hI : I ∈ none) => by cases hI) hwithin₁ (by simpa using hs₁.proper) hbound
  have hparts₁ : s'.parts val' = Parts.brackets none (s₁.parts val₁) := hparts
  have hstill : s'.Still val' := by
    rw [Line.Still, hparts₁, (Parts.brackets_brackets _).1]
  have hfree₁ : ∀ c ∈ ['(', ')', '{', '}'], .inl c ∉ s₁.parts val₁ := fun c hc hmem => hs₁.free c hc (Line.inl_mem_parts.1 hmem)
  have hfree : ∀ c ∈ ['(', ')', '{', '}'], .inl c ∉ s'.parts val' := fun c hc hmem =>
    hfree₁ c hc ((Parts.inl_mem_brackets (hparts₁ ▸ hmem)).resolve_right (by simp))
  refine ⟨g', s', val', by simpa using heq', h', hextends.trans hextends', hwithin', ?_, hstill, ?_⟩
  · rw [← hvalue, Line.value, Line.value, Parts.flat_of_free hfree, Parts.flat_of_free hfree₁, hstill, hparts₁]
  · rintro rfl
    obtain ⟨m, s₂, rfl⟩ := List.exists_cons_of_ne_nil hs₁.nonempty
    exact Parts.brackets_cons_ne_nil _ _ hparts₁.symm

/-- The groups of one cell are taken apart. -/
theorem reduceGroupsOf {write : Char → Text} {goal : Text} {rest : List Nat} (hpending : Pending write goal (i :: rest) g.pool)
    (hnews : news ∨ Pending write goal [] g.pool) (h : Valued (· ∈ i :: rest) news val g)
    (hbound : (g.reduceGroupsOf i).pool.cells.length ≤ Index.bound) :
    ∃ val', Valued (· ∈ rest) news val' (g.reduceGroupsOf i) ∧ ∀ x, x < g.pool.cells.length → val' x = val x := by
  by_cases hi : g.pool.holds i = true
  · obtain ⟨s, htext, hdraft⟩ := hpending.stands.draft hi
    have hs : s.Bracketed ∨ news ∧ s.Braceless := by
      rcases hnews with hnews | hpending'
      · obtain ⟨n, u, hwithin, hutext, hu⟩ := hpending.grouped i hi
        obtain rfl := hwithin.text_injective hdraft.within (hutext.trans htext)
        exact hu.imp_right fun hu => ⟨hnews, hu.2⟩
      · obtain ⟨n, u, hwithin, hutext, hu⟩ := hpending'.grouped i hi
        obtain rfl := hwithin.text_injective hdraft.within (hutext.trans htext)
        exact .inl (hu.resolve_right (by simp))
    have hne : s ≠ [] := hs.elim (·.nonempty) (·.2.nonempty)
    have hwrites : g.pool.Writes i s := ⟨hi, hdraft.within, hne, htext⟩
    have heq : g.reduceGroupsOf i = (g.reduceText s.text).1.setText i (g.reduceText s.text).2 := by
      rw [Growth.reduceGroupsOf, if_pos hi, htext]
    have hlen : (g.reduceText s.text).1.pool.cells.length ≤ Index.bound := by
      rw [heq, Growth.setText] at hbound
      split at hbound
      · exact hbound
      · rwa [length_cells_setText] at hbound
    obtain ⟨g', s', val', hreduce, h', hextends, hwithin', hvalue, hstill, hne'⟩ := h.reduceText hdraft.within hs hlen
    have hwrites' := hextends.writes hwrites
    have hmeant : val' i = s.value val := (h'.meant i s hwrites').trans (hdraft.within.value_eq hextends.agree)
    rw [heq, hreduce]
    refine ⟨val', ?_, hextends.agree⟩
    unfold Growth.setText
    split
    · rename_i hsame
      have hline : s = s' := hwrites'.within.text_injective hwithin' (hwrites'.text.symm.trans hsame.symm)
      refine ⟨h'.sound, h'.written, h'.pointed, h'.meant, fun x u hu => ?_⟩
      by_cases hxi : x = i
      · subst hxi
        rw [hu.unique hwrites', hline]
        exact .inr (.inr hstill)
      · exact (h'.still x u hu).imp_left fun hmem => (List.mem_cons.1 hmem).resolve_left hxi
    · exact h'.setText hwrites'.held hwithin' hne' (hmeant.trans hvalue.symm) (.inr hstill) fun x hxi hmem =>
        (List.mem_cons.1 hmem).resolve_left hxi
  · rw [Growth.reduceGroupsOf, if_neg hi]
    refine ⟨val, ⟨h.sound, h.written, h.pointed, h.meant, fun x u hu => ?_⟩, fun _ _ => rfl⟩
    exact (h.still x u hu).imp_left fun hmem => (List.mem_cons.1 hmem).resolve_left fun heq => hi (by rw [← heq]; exact hu.held)

theorem foldl {write : Char → Text} {goal : Text} (hwrite : ∀ c ∈ ['(', ')'], write c = []) {rest : List Nat}
    (hpending : Pending write goal rest g.pool) (hnews : news ∨ Pending write goal [] g.pool) (h : Valued (· ∈ rest) news val g)
    (hbound : (rest.foldl Growth.reduceGroupsOf g).pool.cells.length ≤ Index.bound) :
    ∃ val', Valued (fun _ => False) news val' (rest.foldl Growth.reduceGroupsOf g) ∧ ∀ x, x < g.pool.cells.length → val' x = val x := by
  induction rest generalizing g val with
  | nil => exact ⟨val, by simpa using h, fun _ _ => rfl⟩
  | cons i rest ih =>
    have hsmall := Nat.le_trans (length_le_foldl rest (g.reduceGroupsOf i)) hbound
    obtain ⟨val₁, h₁, hagree⟩ := h.reduceGroupsOf hpending hnews hsmall
    have hnews₁ : news ∨ Pending write goal [] (g.reduceGroupsOf i).pool :=
      hnews.imp_right fun hpending => (show Pending write goal [i] g.pool from hpending.mono (by simp)).reduceGroupsOf hwrite
    obtain ⟨val', h', hagree'⟩ := ih (hpending.reduceGroupsOf hwrite) hnews₁ h₁ hbound
    exact ⟨val', h', fun x hx =>
      (hagree' x (Nat.lt_of_lt_of_le hx (g.length_le_reduceGroupsOf i))).trans (hagree x hx)⟩

/-- The groups of all cells are taken apart. -/
theorem withoutGroups {write : Char → Text} {goal : Text} (hwrite : ∀ c ∈ ['(', ')'], write c = []) {p : Pool}
    (hpending : Pending write goal p.holders p) {created : List Nat} (h : Valued (fun _ => True) True val ⟨p, created⟩)
    (hrooted : Index.root < p.cells.length) (hbound : p.withoutGroups.cells.length ≤ Index.bound) :
    ∃ val', p.withoutGroups.Denotes [] [] val' ∧ val' Index.root = val Index.root := by
  have hsmall := Nat.le_trans (length_le_foldl _ ⟨_, []⟩) hbound
  have hstart : Valued (· ∈ p.holders) True val ⟨p, []⟩ :=
    ⟨h.sound, h.written, h.pointed, h.meant, fun x u hu => .inl (mem_holders.2 hu.held)⟩
  obtain ⟨val₁, h₁, hagree₁⟩ := hstart.foldl hwrite hpending (.inl trivial) hsmall
  have hpending₁ := Pending.foldl hwrite (g := ⟨p, []⟩) hpending
  have hnext : Valued (· ∈ (p.holders.foldl Growth.reduceGroupsOf ⟨p, []⟩).created) False val₁
      ⟨(p.holders.foldl Growth.reduceGroupsOf ⟨p, []⟩).pool, []⟩ := by
    refine ⟨h₁.sound, h₁.written, h₁.pointed, h₁.meant, fun x u hu => ?_⟩
    rcases h₁.still x u hu with hwaits | ⟨-, hmem⟩ | hstill
    · exact hwaits.elim
    · exact .inl hmem
    · exact .inr (.inr hstill)
  obtain ⟨val', h', hagree'⟩ := foldl (g := ⟨(p.holders.foldl Growth.reduceGroupsOf ⟨p, []⟩).pool, []⟩) hwrite
    (hpending₁.mono (by simp)) (.inr hpending₁) hnext hbound
  have hpending' := hpending.withoutGroups hwrite
  refine ⟨val', ⟨h'.sound, fun x hx => ?_, h'.pointed⟩, ?_⟩
  · obtain ⟨s, htext, hdraft⟩ := hpending'.stands.draft hx
    obtain ⟨n, u, hwithin, hutext, hu⟩ := hpending'.grouped x hx
    obtain rfl := hwithin.text_injective hdraft.within (hutext.trans htext)
    have hs := hu.resolve_right (by simp)
    have hwrites : p.withoutGroups.Writes x u := ⟨hx, hdraft.within, hs.nonempty, htext⟩
    have hstill := ((h'.still x u hwrites).resolve_left id).resolve_left fun hnew => hnew.1
    refine ⟨u, hwrites, ?_⟩
    rw [h'.meant x u hwrites, hstill.value_eq hs.free, Line.tree_of_freed (by simp)]
    rfl
  · have hrooted₁ := Nat.lt_of_lt_of_le hrooted (length_le_foldl p.holders ⟨p, []⟩)
    rw [hagree' _ hrooted₁, hagree₁ _ hrooted]

end Valued

/-- The braces of a source text are taken apart, and the root stands for its tree. -/
theorem exists_valued_ofBraces {t : Text} (hnested : (Line.ofText t).Nested) (hne : t ≠ []) (hat : '@' ∉ t)
    (hbound : (ofBraces t).cells.length ≤ Index.bound) :
    ∃ val created, Valued (fun _ => True) True val ⟨ofBraces t, created⟩ ∧ Index.root < (ofBraces t).cells.length ∧
      val Index.root = Source.tree t := by
  have hroot : ∀ x, empty.holds x = true → x = Index.root := fun x hx => Nat.lt_one_iff.1 (lt_of_holds hx)
  have hstart : Valued (fun _ => True) True (fun _ => Source.tree t) ⟨empty, []⟩ := by
    refine ⟨empty_sound, fun x hx hxne => absurd ?_ hxne, fun _ _ => rfl, fun x s hs => absurd ?_ (Line.text_ne_nil hs.nonempty),
      fun _ _ _ => .inl trivial⟩
    · rw [hroot x hx]
      rfl
    · rw [← hs.text, hroot x hs.held]
      rfl
  have hsmall : (Growth.replaceGroups '{' '}' ⟨empty, []⟩ [] [] (Line.text (Line.ofText t) ++ [])).1.pool.cells.length ≤
      Index.bound := by
    rw [Pool.ofBraces, length_cells_setText] at hbound
    rwa [List.append_nil, Line.text_ofText]
  obtain ⟨g, s, val, heq, h, hextends, hwithin, hturned⟩ :=
    hstart.replaceGroups (by rfl) (by decide) hnested (.inl rfl) (.ofText hat) hsmall
  rw [List.append_nil, Line.text_ofText] at heq
  obtain ⟨u, u', hu, hu', hturned', hwraps, hwraps', hune⟩ := hturned.unwrap (by simpa [Line.ofText] using hne)
  have hline : u = Line.ofText (Text.unwrap t) := by
    have huwithin : u.Within 0 := (Line.Within.ofText hat).subset hwraps.subset
    rw [Line.text_ofText] at hu
    have hfree : '@' ∉ Text.unwrap t := by
      rw [hu]
      intro hmem
      obtain ⟨m, hm, hmem⟩ := List.mem_flatMap.1 hmem
      cases m with
      | char c => exact huwithin.plain (List.mem_singleton.1 hmem ▸ hm)
      | ref k => exact absurd (huwithin.refs k hm) (Nat.not_lt_zero k)
    have hunwrapped : (Line.ofText (Text.unwrap t)).Within 0 := .ofText hfree
    exact huwithin.text_injective hunwrapped (by rw [Line.text_ofText, hu])
  have hu'ne : u' ≠ [] := (hturned'.flattened rfl).nonempty hune
  have hresult : ofBraces t = g.pool.setText Index.root u'.text := by
    rw [Pool.ofBraces, heq]
    simp [Growth.replaceGroups, hu']
  have hheld : empty.holds Index.root = true := rfl
  have hvalue : val Index.root = u'.value val := by
    rw [hextends.agree _ (by decide), ← hturned'.value_eq rfl (by decide), hline, Source.tree, Line.value, Line.parts_ofText]
  have hresult' := h.setText (hextends.holding hheld).1 (hwithin.subset hwraps'.subset) hu'ne hvalue (.inl trivial) fun _ _ => id
  rw [← hresult] at hresult'
  refine ⟨val, g.created, hresult', ?_, ?_⟩
  · rw [hresult, length_cells_setText]
    exact lt_of_holds (hextends.holding hheld).1
  · rw [hextends.agree _ (by decide)]

/-- When the groups of a source text have been taken apart, every index stands for its text, and the root stands for the tree of the
source text. -/
theorem exists_denotes_ofGroups {t : Text} (hnested : (Line.ofText t).Nested) (hne : t ≠ []) (hat : '@' ∉ t)
    (hbound : (ofGroups t).cells.length ≤ Index.bound) :
    ∃ val, (ofGroups t).Denotes [] [] val ∧ val Index.root = Source.tree t := by
  have hwrite : ∀ c ∈ ['(', ')', '{', '}'], (fun _ => [] : Char → Text) c = [] := fun _ _ => rfl
  rw [ofGroups, length_cells_canonical] at hbound
  have hbraces : (ofBraces t).cells.length ≤ Index.bound :=
    Nat.le_trans (Nat.le_trans (length_le_foldl _ ⟨_, []⟩) (length_le_foldl _ ⟨_, []⟩)) hbound
  have hpending := Pending.ofBraces hwrite hnested hne hat
  obtain ⟨val, created, h, hrooted, hroot⟩ := exists_valued_ofBraces hnested hne hat hbraces
  obtain ⟨val', h', hroot'⟩ := h.withoutGroups (fun c hc => rfl) hpending hrooted hbound
  exact ⟨val', h'.canonical hbound, hroot'.trans hroot⟩

end Pool

end FormulaDag
