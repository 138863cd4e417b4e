import FormulaDag.Proofs.Pool.Turning

/-!
# Cells with the trees of their groups

While the groups of a source text are taken apart, every index stands for the tree that its line has in the end. Putting a line into the
pool and turning a group into a token keep these trees, whatever merges happen on the way.
-/

namespace FormulaDag.Pool

/-- A pool to which cells have been added, with what the indices stand for in both. -/
structure Extends (p q : Pool) (val val' : Nat → Tree) : Prop where
  grows : p.cells <+: q.cells
  agree : ∀ x, x < p.cells.length → val' x = val x

/-- Indices stand for what their lines are in the end. A line whose brackets still have to be taken apart is that of a cell of a given
kind or, as long as new cells wait for their turn, of a new one. -/
structure Valued (waits : Nat → Prop) (news : Prop) (val : Nat → Tree) (g : Growth) : Prop where
  sound : g.pool.Sound
  written : ∀ x, g.pool.holds x = true → g.pool.text x ≠ [] → ∃ s, g.pool.Writes x s
  pointed : ∀ k, k < g.pool.cells.length → val (g.pool.resolve k) = val k
  meant : ∀ x s, g.pool.Writes x s → val x = s.value val
  still : ∀ x s, g.pool.Writes x s → waits x ∨ (news ∧ x ∈ g.created) ∨ s.Still val

namespace Extends
variable {p q r : Pool} {val val' val'' : Nat → Tree}

theorem refl (p : Pool) (val : Nat → Tree) : Extends p p val val := ⟨List.prefix_rfl, fun _ _ => rfl⟩

/-- A pool that extends an extension extends the pool. -/
theorem trans (h : Extends p q val val') (h' : Extends q r val' val'') : Extends p r val val'' where
  grows := h.grows.trans h'.grows
  agree x hx := (h'.agree x (Nat.lt_of_lt_of_le hx h.grows.length_le)).trans (h.agree x hx)

/-- An extension keeps the cells. -/
theorem getElem? (h : Extends p q val val') {x : Nat} (hx : x < p.cells.length) : q.cells[x]? = p.cells[x]? := by
  obtain ⟨more, heq⟩ := h.grows
  rw [← heq, List.getElem?_append_left hx]

/-- An extension keeps the holders with their texts. -/
theorem holding (h : Extends p q val val') {x : Nat} (hx : p.holds x = true) : q.holds x = true ∧ q.text x = p.text x := by
  have hcell := (h.getElem? (lt_of_holds hx)).trans (holding_text hx)
  exact ⟨holds_iff.2 ⟨_, hcell⟩, text_of_holding hcell⟩

/-- An extension keeps what is written. -/
theorem writes (h : Extends p q val val') {x : Nat} {s : Line} (hs : p.Writes x s) : q.Writes x s :=
  ⟨(h.holding hs.held).1, hs.within.mono h.grows.length_le, hs.nonempty, (h.holding hs.held).2.trans hs.text⟩

end Extends

namespace Growth.Passage
variable {inner inner' : Option Line} {m : Mark} {out s : Line} {val : Nat → Tree}

/-- Everything that has been read is in the line. -/
theorem subset (h : Passage inner m out inner') (s : Line) :
    out ⊆ inner.getD [] ++ m :: s ∧ inner'.getD [] ++ s ⊆ inner.getD [] ++ m :: s := by
  have hline : inner.getD [] ++ m :: s = out ++ (inner'.getD [] ++ s) := by
    rw [← List.append_assoc, h.append_eq]
    simp
  rw [hline]
  exact ⟨List.subset_append_left _ _, List.subset_append_right _ _⟩

theorem proper (h : Passage inner m out inner') (hproper : Line.Proper (decide (inner = some [])) (m :: s)) :
    Line.Proper (decide (inner' = some [])) s := by
  have htail := hproper.2
  cases h with
  | outside hm => simpa [hm] using htail
  | opens => simpa using htail
  | @inside I m hm =>
    have hopens : m ≠ .char '[' := fun heq => hm '[' (by simp) (by simp [heq])
    simpa [hopens] using htail
  | leaves hc => rcases hc with rfl | rfl <;> simpa using htail

/-- A mark that closes no bracket is read with its part of the tree, parentheses apart. -/
theorem brackets_eq (h : Passage inner m out inner') (hopen : m ≠ .char '(') (hclose : m ≠ .char ')') (rest : Parts) :
    Parts.brackets (inner.map fun I => (I.parts val).reverse) (m.part val :: rest) =
      out.parts val ++ Parts.brackets (inner'.map fun I => (I.parts val).reverse) rest := by
  cases h with
  | outside hm =>
    cases m with
    | ref k => simp [Parts.brackets, Mark.part]
    | char c =>
      have hc : c ≠ '[' := fun heq => hm (congrArg _ heq)
      simp [Parts.brackets, Mark.part, hc]
  | opens => cases inner <;> simp [Parts.brackets, Mark.part]
  | @inside I m hm =>
    cases m with
    | ref k => simp [Parts.brackets, Mark.part]
    | char c =>
      have hc : c ≠ '[' ∧ c ≠ ']' :=
        ⟨fun heq => hm '[' (by simp) (by simp [heq]), fun heq => hm ']' (by simp) (by simp [heq])⟩
      simp [Parts.brackets, Mark.part, hc]
  | leaves hc =>
    rcases hc with rfl | rfl
    · exact absurd rfl hopen
    · exact absurd rfl hclose

end Growth.Passage

namespace Valued

open Growth

variable {waits waits' : Nat → Prop} {news : Prop} {val : Nat → Tree} {g : Growth} {q : Pool} {k i : Nat} {u l s s' : Line}

/-- A line is put into the pool. -/
theorem add (h : Valued waits news val g) (hholding : Holding g.pool q k u) (hu : u.Within g.pool.cells.length) {created : List Nat}
    (hsub : g.created ⊆ created) (hnew : g.pool.cells.length ≤ k → (news ∧ k ∈ created) ∨ u.Open) :
    ∃ val', Valued waits news val' ⟨q, created⟩ ∧ Extends g.pool q val val' ∧ val' k = u.value val := by
  have hbefore : ∀ x s, q.Writes x s → g.pool.Writes x s ∨ g.pool.cells.length ≤ x ∧ x = k ∧ s = u := by
    intro x s hs
    by_cases hx : x < g.pool.cells.length
    · have hcell : g.pool.cells[x]? = some (.holding s.text) := by
        obtain ⟨more, heq⟩ := hholding.grows
        rw [← hs.text, ← holding_text hs.held, ← heq, List.getElem?_append_left hx]
      have htext := text_of_holding hcell
      obtain ⟨s', hs'⟩ := h.written x (holds_iff.2 ⟨_, hcell⟩) (by rw [htext]; exact Line.text_ne_nil hs.nonempty)
      exact .inl ((hholding.kept x s' hs').unique hs ▸ hs')
    · obtain rfl := (hholding.news x (lt_of_holds hs.held)).resolve_left hx
      exact .inr ⟨Nat.le_of_not_lt hx, rfl, hs.unique hholding.writes⟩
  obtain ⟨val', hagree, hfresh⟩ : ∃ val' : Nat → Tree, (∀ x, x < g.pool.cells.length → val' x = val x) ∧
      ∀ x, g.pool.cells.length ≤ x → val' x = u.value val :=
    ⟨fun x => if x < g.pool.cells.length then val x else u.value val, fun x hx => if_pos hx, fun x hx => if_neg (Nat.not_lt.2 hx)⟩
  have hextends : Extends g.pool q val val' := ⟨hholding.grows, hagree⟩
  refine ⟨val', ⟨hholding.sound, fun x hx hne => ?_, fun x hx => ?_, fun x s hs => ?_, fun x s hs => ?_⟩, hextends, ?_⟩
  · rcases (hholding.held x).1 hx with hxp | rfl
    · exact (h.written x hxp ((hextends.holding hxp).2 ▸ hne)).imp fun s hs => hholding.kept x s hs
    · exact ⟨u, hholding.writes⟩
  · by_cases hxp : x < g.pool.cells.length
    · simp only
      rw [hholding.resolve x hxp, hagree x hxp, hagree _ (lt_of_holds (h.sound.holds_resolve hxp)), h.pointed x hxp]
    · obtain rfl := (hholding.news x hx).resolve_left hxp
      rw [resolve_of_holds hholding.writes.held]
  · rcases hbefore x s hs with hs | ⟨hx, rfl, rfl⟩
    · rw [hagree x (lt_of_holds hs.held), h.meant x s hs, hs.within.value_eq hagree]
    · rw [hfresh _ hx, hu.value_eq hagree]
  · rcases hbefore x s hs with hs | ⟨hx, rfl, rfl⟩
    · exact (h.still x s hs).imp_right (Or.imp (And.imp_right fun hmem => hsub hmem) (hs.within.still hagree))
    · exact .inr ((hnew hx).imp_right fun hopen => hopen.still _)
  · rcases hbefore k u hholding.writes with hs | ⟨hk, -⟩
    · rw [hagree k (lt_of_holds hs.held), h.meant k u hs]
    · exact hfresh k hk

/-- The token for a line stands for its tree. -/
theorem tokenFor (h : Valued waits news val g) (hl : l.Nested) (hne : l ≠ []) (hbraces : .char '{' ∉ l)
    (hwithin : l.Within g.pool.cells.length) (hnew : news ∨ l.Open)
    (hbound : (g.tokenFor l.text).1.pool.cells.length ≤ Index.bound) :
    ∃ k val', (g.tokenFor l.text).2 = Index.token k ∧ Valued waits news val' (g.tokenFor l.text).1 ∧
      Extends g.pool (g.tokenFor l.text).1.pool val val' ∧ k < (g.tokenFor l.text).1.pool.cells.length ∧
      val' k = Parts.stand (Parts.flat (l.parts val)) := by
  obtain ⟨u, hunwrap, hwraps, hu, hune⟩ := hl.unwrap hne
  have hinside : Text.inside? u.text = none := hunwrap ▸ Text.inside?_unwrap l.text
  have hsmall := Nat.le_trans (g.length_le_tokenFor l.text) hbound
  have huwithin : u.Within g.pool.cells.length := hwithin.subset hwraps.subset
  have hstand : Parts.stand (Parts.flat (l.parts val)) = Parts.stand (Parts.flat (u.parts val)) := (hwraps.stand_eq hu hune).2
  rw [hstand]
  unfold Growth.tokenFor at *
  rw [hunwrap] at *
  split
  · rename_i honly
    obtain ⟨k, hk⟩ := Option.isSome_iff_exists.1 honly
    obtain rfl := huwithin.eq_ref_of_only? hk
    exact ⟨k, val, by simp [Mark.text], h, .refl _ _, huwithin.refs k (by simp), rfl⟩
  · rename_i honly
    have hholding := h.sound.holding huwithin hune
    have hvalue : Parts.stand (Parts.flat (u.parts val)) = u.value val := by
      refine Parts.stand_of_ne fun w hw => honly ?_
      obtain ⟨k, rfl⟩ := hu.eq_ref_of_flat (fun hmem => hbraces (hwraps.subset hmem)) hinside hw
      have hk := Nat.lt_of_lt_of_le (huwithin.refs k (by simp)) hsmall
      simp [Mark.text, Token.only?_token hk]
    have hopen : l.Open → u.Open := fun hl c hc hmem => hl c hc (hwraps.subset hmem)
    rw [hvalue]
    rcases intern_cases g.pool u.text with ⟨k, hfound, heq⟩ | ⟨hfresh, heq⟩
    · rw [heq] at hholding ⊢
      have hk := lt_of_holds hholding.writes.held
      obtain ⟨val', h', hextends, hval'⟩ := h.add hholding huwithin (List.Subset.refl _) fun hle => absurd hk (Nat.not_lt.2 hle)
      exact ⟨k, val', rfl, h', hextends, hk, hval'⟩
    · rw [heq] at hholding ⊢
      obtain ⟨val', h', hextends, hval'⟩ := h.add hholding huwithin (List.subset_append_left _ [g.pool.cells.length]) fun _ =>
        hnew.imp (fun hn => ⟨hn, by simp⟩) hopen
      exact ⟨_, val', rfl, h', hextends, lt_of_holds hholding.writes.held, hval'⟩

/-- The groups of one kind in a nested line become indices for their trees. -/
theorem replaceGroups {opener closer : Char} (hpair : Source.openerOf? closer = some opener) (hb : opener ≠ '[') (hs : s.Nested)
    (hbraces : opener = '{' ∨ .char '{' ∉ s) (h : Valued waits True val g) (hwithin : s.Within g.pool.cells.length) {here rest : Text}
    {around : List Text}
    (hbound : (Growth.replaceGroups opener closer g here around (s.text ++ rest)).1.pool.cells.length ≤ Index.bound) :
    ∃ g' s' val', Growth.replaceGroups opener closer g here around (s.text ++ rest) =
        Growth.replaceGroups opener closer g' (s'.text.reverse ++ here) around rest ∧
      Valued waits True val' g' ∧ Extends g.pool g'.pool val val' ∧ s'.Within g'.pool.cells.length ∧
      s.Turned opener closer val' g'.pool.cells.length s' := by
  have hne : closer ≠ opener := (Source.opener_ne_closer hpair hpair).symm
  induction hs generalizing g val here around rest with
  | nil => exact ⟨g, [], val, rfl, h, .refl _ _, hwithin, .nil⟩
  | @mark m s hm hs ih =>
    rw [Line.text_cons, List.append_assoc, replaceGroups_mark hpair hm] at hbound ⊢
    obtain ⟨g', s', val', heq, h', hextends, hwithin', hturned⟩ :=
      ih (hbraces.imp_right fun hmem hc => hmem (List.mem_cons_of_mem _ hc)) h (hwithin.subset (List.subset_cons_self m s)) hbound
    have hm' : Line.Within g'.pool.cells.length [m] :=
      (hwithin.subset (show [m] ⊆ m :: s by simp)).mono hextends.grows.length_le
    exact ⟨g', m :: s', val', by rw [heq]; simp, h', hextends, hm'.append hwithin', .mark hm hturned⟩
  | @group o c inner s hgroup hinner_ne hinner hs ihinner ihs =>
    have htext : Line.text (.char o :: inner ++ .char c :: s) ++ rest = o :: (Line.text inner ++ c :: (Line.text s ++ rest)) := by
      simp [Mark.text]
    have hinner_within : inner.Within g.pool.cells.length := hwithin.subset fun m hm => by simp [hm]
    have hs_within : s.Within g.pool.cells.length := hwithin.subset fun m hm => by simp [hm]
    have hinner_braces : opener = '{' ∨ .char '{' ∉ inner := hbraces.imp_right fun hmem hc => hmem (by simp [hc])
    have hs_braces : opener = '{' ∨ .char '{' ∉ s := hbraces.imp_right fun hmem hc => hmem (by simp [hc])
    rw [htext] at hbound ⊢
    by_cases ho : o = opener
    · subst ho
      obtain rfl := Source.closer_unique hgroup hpair
      rw [replaceGroups_opener] at hbound ⊢
      obtain ⟨g₁, inner', val₁, heq, h₁, hextends₁, hwithin₁, hturned₁⟩ := ihinner hinner_braces h hinner_within hbound
      rw [heq, List.append_nil, replaceGroups_closer hne, List.reverse_reverse] at hbound ⊢
      have hflat := hturned₁.flattened hpair
      have hfree : .char '{' ∉ inner' := fun hmem => by
        rcases hinner_braces with rfl | hfree
        · exact hflat.opener hmem
        · exact hfree (hflat.chars _ hmem)
      obtain ⟨k, val₂, htoken, h₂, hextends₂, hk, hvalue⟩ := h₁.tokenFor hflat.nested (hflat.nonempty hinner_ne) hfree hwithin₁
        (.inl trivial) (Nat.le_trans (length_le_replaceGroups _ _ _ _ _ _) hbound)
      rw [htoken] at hbound ⊢
      have hextends := hextends₁.trans hextends₂
      obtain ⟨g', s', val', heq', h', hextends', hwithin', hturned'⟩ :=
        ihs hs_braces h₂ (hs_within.mono hextends.grows.length_le) hbound
      have hlength := hextends'.grows.length_le
      have hkeep : ∀ x, x < g₁.pool.cells.length → val' x = val₁ x := fun x hx =>
        (hextends'.agree x (Nat.lt_of_lt_of_le hx hextends₂.grows.length_le)).trans (hextends₂.agree x hx)
      have hlength₁ := hextends₂.grows.length_le.trans hlength
      refine ⟨g', .ref k :: s', val', by rw [heq']; simp [Mark.text], h', hextends.trans hextends',
        (Line.Within.ref (Nat.lt_of_lt_of_le hk hlength)).append hwithin', ?_⟩
      refine .token hinner_ne (hturned₁.mono hlength₁ hkeep) (hwithin₁.mono hlength₁) (Nat.lt_of_lt_of_le hk hlength) ?_ hturned'
      rw [hextends'.agree k hk, hvalue, hwithin₁.parts_eq hkeep]
    · have hoc := Source.opener_ne_closer hgroup hpair
      have hco := (Source.opener_ne_closer hpair hgroup).symm
      have hcc : c ≠ closer := by
        rintro rfl
        exact ho (Option.some.inj (hgroup.symm.trans hpair))
      rw [replaceGroups_other ho hoc] at hbound ⊢
      obtain ⟨g₁, inner', val₁, heq, h₁, hextends₁, hwithin₁, hturned₁⟩ := ihinner hinner_braces h hinner_within hbound
      rw [heq, replaceGroups_other hco hcc] at hbound ⊢
      obtain ⟨g', s', val', heq', h', hextends', hwithin', hturned'⟩ :=
        ihs hs_braces h₁ (hs_within.mono hextends₁.grows.length_le) hbound
      have hlength := hextends'.grows.length_le
      have hdelimiters : ∀ d, .char d ∈ (.char o :: inner ++ .char c :: s : Line) → Line.Within g'.pool.cells.length [.char d] :=
        fun d hd => (hwithin.subset (show [.char d] ⊆ (.char o :: inner ++ .char c :: s : Line) by simpa using hd)).mono ((hextends₁.trans hextends').grows.length_le)
      refine ⟨g', .char o :: inner' ++ .char c :: s', val', by rw [heq']; simp [Mark.text], h', hextends₁.trans hextends', ?_,
        .group hgroup ho hinner_ne (hturned₁.mono hlength hextends'.agree) hturned'⟩
      exact (((hdelimiters o (by simp)).append (hwithin₁.mono hlength)).append ((hdelimiters c (by simp)).append hwithin'))

/-- What stands in brackets becomes an index for its tree. The line so far is written reversed, and `inner` is what has been read since
a bracket has opened. -/
theorem replaceBrackets {s : Line} {inner : Option Line} (hs : ∀ c ∈ ['(', ')', '{', '}'], .char c ∉ inner.getD [] ++ s)
    (hopen : ∀ I ∈ inner, I.Open) (h : Valued waits news val g) (hwithin : (inner.getD [] ++ s).Within g.pool.cells.length)
    (hproper : s.Proper (decide (inner = some []))) {done : Text}
    (hbound : (Growth.replaceBrackets g done (inner.map fun I => I.text.reverse) s.text).1.pool.cells.length ≤ Index.bound) :
    ∃ (g' : Growth) (s' : Line) (val' : Nat → Tree),
      Growth.replaceBrackets g done (inner.map fun I => I.text.reverse) s.text = (g', done.reverse ++ s'.text) ∧
      Valued waits news val' g' ∧ Extends g.pool g'.pool val val' ∧ s'.Within g'.pool.cells.length ∧
      s'.parts val' = Parts.brackets (inner.map fun I => (I.parts val).reverse) (s.parts val) := by
  induction s generalizing g val inner done with
  | nil =>
    refine ⟨g, inner.getD [], val, ?_, h, .refl _ _, by simpa using hwithin, ?_⟩
    · cases inner <;> simp [Growth.replaceBrackets]
    · cases inner <;> simp [Parts.brackets]
  | cons m s ih =>
    have hswithin : Line.Within g.pool.cells.length s := hwithin.subset fun y hy => by simp [hy]
    by_cases hclose : m = .char ']' → inner = none
    · obtain ⟨out, inner', hpassage⟩ := Passage.exists_of inner hclose
      have hsub := hpassage.subset s
      have hdelimiters : ∀ c ∈ ['(', ')', '{', '}'], m ≠ .char c := fun c hc heq => hs c hc (by simp [heq])
      rw [hpassage.replaceBrackets_eq] at hbound ⊢
      obtain ⟨g', s', val', heq, h', hextends, hwithin', hparts⟩ := ih (fun c hc hmem => hs c hc (hsub.2 hmem))
        (hpassage.isOpen hopen) h (hwithin.subset hsub.2) (hpassage.proper hproper) hbound
      have hout := hwithin.subset hsub.1
      refine ⟨g', out ++ s', val', by rw [heq]; simp, h', hextends, (hout.mono hextends.grows.length_le).append hwithin', ?_⟩
      rw [Line.parts_append, hout.parts_eq hextends.agree, hparts, Line.parts_cons,
        hpassage.brackets_eq (hdelimiters '(' (by simp)) (hdelimiters ')' (by simp))]
    · obtain ⟨rfl, hsome⟩ := Classical.not_imp.1 hclose
      obtain ⟨I, rfl⟩ := Option.ne_none_iff_exists'.1 hsome
      have hI := hopen I rfl
      have hIwithin : I.Within g.pool.cells.length := hwithin.subset fun y hy => by simp [hy]
      have hbraces : .char '{' ∉ I ∧ .char '}' ∉ I :=
        ⟨fun hmem => hs '{' (by simp) (by simp [hmem]), fun hmem => hs '}' (by simp) (by simp [hmem])⟩
      have hne : I ≠ [] := fun hnil => hproper.1 (by simp [hnil]) rfl
      rw [Option.map_some, replaceBrackets_close] at hbound ⊢
      obtain ⟨k, val₁, htoken, h₁, hextends₁, hk, hval⟩ := h.tokenFor (hI.nested hbraces) hne hbraces.1 hIwithin (.inr hI)
        (Nat.le_trans (length_le_replaceBrackets _ _ _ _) hbound)
      rw [htoken] at hbound ⊢
      have hnone : ∀ I ∈ (none : Option Line), I.Open := by simp
      obtain ⟨g', s', val', heq, h', hextends, hwithin', hparts⟩ := ih (fun c hc hmem => hs c hc (by simp at hmem ⊢; tauto)) hnone h₁
        (hswithin.mono hextends₁.grows.length_le) (by simpa using hproper.2) hbound
      have hout : Line.Within (g.tokenFor I.text).1.pool.cells.length [.ref k, .char ']'] :=
        .append (s := [_]) (.ref hk) ((hwithin.subset (by simp)).mono hextends₁.grows.length_le)
      refine ⟨g', [.ref k, .char ']'] ++ s', val', heq.trans (by simp [Mark.text]), h', hextends₁.trans hextends,
        (hout.mono hextends.grows.length_le).append hwithin', ?_⟩
      rw [hI.flat_eq hbraces] at hval
      rw [Line.parts_append, hout.parts_eq hextends.agree, hparts, hswithin.parts_eq hextends₁.agree]
      simp [Parts.brackets, Mark.part, hval]

end Valued

end FormulaDag.Pool
