import FormulaDag.Proofs.Contexts.Bound
import FormulaDag.Proofs.Expression.Reduction
import FormulaDag.Proofs.Expression.Writing

/-!
# The contexts of an expression

The source text of an expression is taken apart without failing, and the root of the pool stands for the expression. Then the variables
are bound and the indices are numbered. What a cell stands for, the context with its number stands for, where letters of variables have
become indices of variables.
-/

namespace FormulaDag

namespace Expression

/-- Taking the written text of an expression apart does not fail, and the root stands for the expression. -/
theorem exists_ofSource {letters : List Char} (hletters : ∀ c ∈ letters, c.isLower = true) {e : Expression}
    (he : ∀ c ∈ e.letters, c ∈ letters ∧ c ≠ 'e') (hbound : e.write.length ≤ Index.bound) :
    ∃ p, Pool.ofSource .standard e.write = .ok p ∧ p.Represents (.node letters) e e.write.length := by
  obtain ⟨hne, hat, hnested⟩ := Source.facts_of_fault? (write_facts hletters fun c hc => (he c hc).1).1
  have hgroups := ((represents_ofBraces hletters he).withoutGroups hletters hbound).canonical (Reading.proper_whole letters) hbound
  have hwrite : ∀ c ∈ ['(', ')', '{', '}'], (fun _ : Char => ([] : Text)) c = [] := fun _ _ => rfl
  have hplain := (Pool.plain_ofGroups hnested hne hat hwrite).1
  have hflat := Pool.Represents.flat hgroups fun x hx => (hplain.plain x hx).2 '(' (by simp)
  obtain ⟨q, hq, hrepresents⟩ := hflat.exists_reduce hletters hbound
  refine ⟨q.canonical, ?_, hrepresents.canonical (Reading.proper_node letters) hbound⟩
  rw [Pool.ofSource, Pool.ofGroups, hq]
  rfl

end Expression

/-! ## Binding mark by mark -/

/-- What becomes of a mark, given with its protection, when variables are bound to indices and indices are numbered. -/
def Mark.bound (letters : List Char) (place : Char → Nat) (f : Nat → Nat) : Mark × Bool → Mark
  | (char c, isProtected) => if c ∈ letters ∧ isProtected = false then ref (place c) else char c
  | (ref k, _) => ref (f k)

/-- An item with its variable replaced by an index, and its indices by others. -/
def Item.bind (place : Char → Nat) (f : Nat → Nat) : Item → Item
  | .letter c => .ref (place c)
  | item => item.relabel f

namespace Line
variable {letters : List Char} {place : Char → Nat} {f : Nat → Nat} {s : Line}

theorem tree_letter {names : List Text} {meaning : Nat → Tree} {c : Char} (hc : c ∈ letters) :
    tree names letters meaning [.char c] = .letter c := by
  rw [tree, letter?_eq_some.2 ⟨rfl, hc⟩]

/-- Nothing is protected where there is no command. -/
theorem marked_of_not_mem (h : .char '\\' ∉ s) : marked [] s = s.map (·, false) := by
  have hmask : ∀ t : Text, '\\' ∉ t → Source.commandMask false t = List.replicate t.length false := by
    intro t ht
    induction t with
    | nil => rfl
    | cons c t ih =>
      simp only [List.mem_cons, not_or] at ht
      rw [Source.commandMask, if_neg (Ne.symm ht.1), ih ht.2]
      rfl
  have hshade : '\\' ∉ s.map Mark.shade := by
    intro hmem
    obtain ⟨m, hm, heq⟩ := List.mem_map.1 hmem
    cases m with
    | char c => exact h (heq ▸ hm)
    | ref k => cases heq
  have hflags : flags [] s = List.replicate s.length false := by
    rw [flags, Source.protection, List.foldl_nil, hmask _ hshade, List.length_map]
  rw [marked, hflags, zip_replicate_length]

/-- Binding leaves characters as they are that are protected or no variables. -/
theorem bound_ofText {t : Text} {flag : Bool} (h : ∀ c ∈ t, c ∈ letters → flag = true) :
    ((ofText t).map (·, flag)).map (Mark.bound letters place f) = ofText t := by
  rw [ofText, List.map_map, List.map_map]
  refine List.map_congr_left fun c hc => if_neg ?_
  rintro ⟨hmem, hflag⟩
  rw [h c hc hmem] at hflag
  cases hflag

end Line

section
variable {letters : List Char} {place : Char → Nat} {f : Nat → Nat}

/-- A command keeps its word when variables are bound. -/
theorem Call.line_bound (hletters : ∀ c ∈ letters, c.isLower = true) (c : Call) :
    (Line.marked [] c.line).map (Mark.bound letters place f) = (c.relabel f).line := by
  obtain ⟨m, rest, hoperands, hsign, hfree⟩ : ∃ (m : Mark) (rest : Line), c.operands = m :: rest ∧ m.shade.isAlpha = false ∧
      .char '\\' ∉ c.operands := by
    cases c <;> exact ⟨_, _, rfl, rfl, by simp [operands]⟩
  have hlower : ∀ d, .char d ∈ c.operands → d ∉ letters := by
    intro d hd hmem
    have hsign : d = '[' ∨ d = ']' ∨ d = '_' := by
      cases c <;> simp [operands] at hd <;> tauto
    rcases hsign with rfl | rfl | rfl <;> exact absurd (hletters _ hmem) (by decide)
  have hword : c.word.toList ≠ [] := by
    cases c with
    | application f k => exact Source.ne_nil_of_mem_reserved f.word_mem_reservedWords
    | _ => simp [word]
  have hmarked : Line.marked [] c.line = (Line.ofText ('\\' :: c.word.toList)).map (·, true) ++ c.operands.map (·, false) := by
    have hshades : c.line.map Mark.shade = '\\' :: (c.word.toList ++ m.shade :: rest.map Mark.shade) := by
      have hshade : Mark.shade ∘ Mark.char = id := rfl
      simp [line, Line.ofText, hoperands, hshade, Mark.shade]
    have hrest : Source.commandMask false (m.shade :: rest.map Mark.shade) = Line.flags [] c.operands := by
      rw [hoperands]
      rfl
    have hline : c.line = Line.ofText ('\\' :: c.word.toList) ++ c.operands := rfl
    have hlength : c.word.toList.length + 1 = (Line.ofText ('\\' :: c.word.toList)).length := by simp [Line.ofText]
    rw [← Line.marked_of_not_mem hfree, Line.marked, Line.flags, Source.protection, List.foldl_nil, hshades,
      Source.commandMask_word hword c.isAlpha_of_mem_word hsign, hrest, hline, hlength, List.zip_append (by simp), zip_replicate_length,
      Line.marked]
  have hsigns : (c.operands.map (·, false)).map (Mark.bound letters place f) = c.operands.map (Mark.relabel f) := by
    rw [List.map_map]
    refine List.map_congr_left fun m hm => ?_
    cases m with
    | char d => exact if_neg fun h => hlower d hm h.1
    | ref k => rfl
  rw [hmarked, List.map_append, Line.bound_ofText (by simp), hsigns, Call.line_relabel, line, List.map_cons, List.map_append]
  simp [Line.ofText, Mark.relabel]

/-- An item that is no command, when variables are bound. -/
theorem Item.line_bind (hletters : ∀ c ∈ letters, c.isLower = true) {item : Item} (h : item.Fits letters) (hcall : ∀ c, item ≠ .call c) :
    (item.bind place f).line = item.line.map fun m => Mark.bound letters place f (m, false) := by
  cases item with
  | digits run =>
    have hdigits : ∀ c ∈ run.text, c ∈ letters → false = true := fun c hc hmem => by
      have hdigit := Text.not_isAlpha_of_isDigit (run.digits c hc)
      simp [Char.isAlpha, hletters c hmem] at hdigit
    have hbound : ((Line.ofText run.text).map (·, false)).map (Mark.bound letters place f) = Line.ofText run.text :=
      Line.bound_ofText hdigits
    rw [List.map_map] at hbound
    exact hbound.symm
  | letter c => simp [bind, line, Mark.bound, show c ∈ letters from h]
  | call c => exact absurd rfl (hcall c)
  | ref k => rfl
  | sign c =>
    have hc : c ∉ letters := by
      intro hmem
      have hlower := hletters c hmem
      rcases h with rfl | ⟨op, rfl⟩
      · exact absurd hlower (by decide)
      · exact absurd hlower (by cases op <;> decide)
    simp [bind, relabel, line, Mark.bound, hc]

namespace Phrase
variable {M M' : Nat → Expression → Prop} {l : Phrase} {e : Expression}

theorem Leaf.bind (hplace : ∀ c ∈ letters, c ≠ 'e' → M' (place c) (.letter c)) (hf : ∀ k e, M k e → M' (f k) e) {item : Item}
    (h : item.Leaf letters M e) : (item.bind place f).Leaf [] M' e := by
  cases h with
  | letter hc he => exact .ref (hplace _ hc he)
  | ref h => exact .ref (hf _ _ h)

/-- Binding the variables of a node that is not a variable itself. -/
theorem Node.bind (hplace : ∀ c ∈ letters, c ≠ 'e' → M' (place c) (.letter c)) (hf : ∀ k e, M k e → M' (f k) e)
    (h : Node letters letters M l e) (hl : ∀ c, l ≠ [.letter c]) : Node letters [] M' (l.map (Item.bind place f)) e := by
  cases h with
  | digits run => exact .digits run
  | letter hc he => exact absurd rfl (hl _)
  | call h => exact .call (h.relabel hf)
  | power ha hb => exact .power (Leaf.bind hplace hf ha) (hf _ _ hb)
  | negation ha => exact .negation (Leaf.bind hplace hf ha)
  | operation op ha hb => exact .operation op (Leaf.bind hplace hf ha) (Leaf.bind hplace hf hb)

theorem Leaf.reads {leaves : List Char} (hleaves : leaves ⊆ letters) {item : Item} (h : item.Leaf leaves M e) :
    item.Reads letters M e := by
  cases h with
  | letter hc he => exact .letter (hleaves hc) he
  | ref h => exact .ref h

/-- A node is a sentence. -/
theorem Node.sentence {leaves : List Char} (hleaves : leaves ⊆ letters) (h : Node letters leaves M l e) : Sentence letters M l e := by
  cases h with
  | digits run => exact .factor (.item (.digits run)) (by simp)
  | letter hc he => exact .factor (.item (.letter hc he)) (by simp)
  | call h => exact .factor (.item (.call h)) (by simp)
  | power ha hb => exact .factor (.power (Leaf.reads hleaves ha) hb) (by simp)
  | negation ha => exact .negation (.item (Leaf.reads hleaves ha))
  | operation op ha hb =>
    refine .operation op (.item (Leaf.reads hleaves ha)) (.item (Leaf.reads hleaves hb)) fun _ run rest heq => ?_
    obtain ⟨rfl, -⟩ := List.cons.inj heq
    cases hb

theorem length_le_line (l : Phrase) : l.length ≤ l.line.length := by
  induction l with
  | nil => exact Nat.le_refl 0
  | cons item l ih =>
    have hpos := List.length_pos_of_ne_nil item.line_ne_nil
    rw [line_cons, List.length_append, List.length_cons]
    omega

/-- Only a variable by itself is written as its letter. -/
theorem Node.letter?_eq_none {leaves : List Char} (hletters : ∀ c ∈ letters, c.isLower = true) (h : Node letters leaves M l e)
    (hl : ∀ c, l ≠ [.letter c]) : Line.letter? letters l.line = none := by
  by_contra hsome
  obtain ⟨c, hc⟩ := Option.ne_none_iff_exists'.1 hsome
  obtain ⟨hline, hmem⟩ := Line.letter?_eq_some.1 hc
  cases h with
  | digits run =>
    have hdigit : c ∈ run.text := by
      have hself : Mark.char c ∈ line [.digits run] := by simp [hline]
      simpa [Item.line, Line.ofText] using hself
    have halpha := Text.not_isAlpha_of_isDigit (run.digits c hdigit)
    simp [Char.isAlpha, hletters c hmem] at halpha
  | letter => exact absurd rfl (hl _)
  | @call c _ _ => cases c <;> simp [Item.line, Call.line, Call.operands] at hline
  | power | negation | operation =>
    have hlength := hline ▸ length_le_line _
    simp at hlength

theorem Leaf.ne_call {item : Item} (h : item.Leaf letters M e) (c : Call) : .call c ≠ item := by
  rintro rfl
  cases h

/-- The text of a node when variables are bound. -/
theorem Node.line_bind (hletters : ∀ c ∈ letters, c.isLower = true) (h : Node letters letters M l e) (hl : ∀ c, l ≠ [.letter c]) :
    line (l.map (Item.bind place f)) = (Line.marked [] l.line).map (Mark.bound letters place f) := by
  have hfits := (h.sentence (List.Subset.refl _)).fits
  have hplain : (∀ c, .call c ∉ l) → line (l.map (Item.bind place f)) = (Line.marked [] l.line).map (Mark.bound letters place f) := by
    intro hcalls
    have hfree : .char '\\' ∉ l.line := fun hmem => let ⟨c, hc⟩ := call_mem hletters hfits hmem; hcalls c hc
    rw [Line.marked_of_not_mem hfree, List.map_map, line, line, List.flatMap_map, List.map_flatMap]
    exact List.flatMap_congr fun item hitem => Item.line_bind hletters (hfits item hitem) fun c hc => hcalls c (hc ▸ hitem)
  cases h with
  | letter => exact absurd rfl (hl _)
  | @call c _ _ =>
    have hline : line [.call c] = c.line := List.append_nil _
    rw [hline, Call.line_bound hletters]
    exact List.append_nil _
  | digits => exact hplain (by simp)
  | power ha => exact hplain (by simpa using Leaf.ne_call ha)
  | negation ha => exact hplain (by simpa using Leaf.ne_call ha)
  | operation op ha hb => exact hplain fun c => by simp [Leaf.ne_call ha, Leaf.ne_call hb]

end Phrase

end

/-! ## Contexts that stand for expressions -/

namespace Contexts

/-- What indices stand for agrees with the contexts: each of them is a node over indices. -/
def Conveys (letters : List Char) (c : Contexts) (M : Nat → Expression → Prop) : Prop :=
  ∀ i e, M i e → ∃ l : Phrase, c.get? i = some l.line.text ∧ Phrase.Node letters [] M l e

/-- Contexts whose root stands for an expression, and which all stand for something or are the texts of variables. -/
structure Represents (letters : List Char) (M : Nat → Expression → Prop) (e : Expression) (c : Contexts) : Prop where
  conveys : c.Conveys letters M
  root : M Index.root e
  small : ∀ i a, M i a → i < Index.bound
  meant : ∀ i t, c.get? i = some t → (∃ d ∈ letters, t = Pool.letterText d) ∨ ∃ a, M i a

namespace Bound
variable {letters : List Char} {p p' : Pool} {base meaning : Nat → Tree} {x k k' : Nat} {u : Line} {cell : Char → Nat} {e : Expression}

theorem label_eq (h : Bound .standard letters p p' base meaning) (hk : k < p'.cells.length) (hk' : k' < p'.cells.length)
    (heq : meaning k = meaning k') : p'.label k = p'.label k' := by
  have hripe := h.complete.ripe
  have hresolve : p'.resolve k = p'.resolve k' :=
    hripe.injective (hripe.sound.holds_resolve hk) (hripe.sound.holds_resolve hk') (by rw [hripe.pointed k hk, hripe.pointed k' hk', heq])
  rw [Pool.label, Pool.label, hresolve]

/-- The context of a cell is its text with the variables bound. -/
theorem get?_of_writes (h : Bound .standard letters p p' base meaning)
    (hcell : ∀ c ∈ letters, cell c < p'.cells.length ∧ meaning (cell c) = .letter c) (hx : x < p.cells.length)
    (hu : p.Writes (p.resolve x) u) (hletter : u.letter? letters = none) :
    p'.toContexts.get? (p'.label x) =
      some (Line.text ((Line.marked [] u).map (Mark.bound letters (fun c => p'.label (cell c)) p'.label))) := by
  have hripe := h.complete.ripe
  have hgrown := h.complete.grown
  have hx' := hx.trans_le hgrown.larger
  obtain ⟨u', hu'⟩ := hripe.written _ (hripe.sound.holds_resolve hx')
  refine hripe.get?_toContexts.2 ⟨_, u', Pool.getElem?_label hripe.sound hripe.rooted hx', hu', congrArg Line.text ?_⟩
  have hparts : List.Forall₂ (fun e m => Mark.tree letters base e = Mark.part meaning m) (Line.marked [] u) u' := by
    have htree : meaning (p'.resolve x) = u.tree [] letters base := by
      rw [hripe.pointed x hx', hgrown.kept x hx, ← h.denotes.pointed x hx]
      exact h.denotes.eq_tree hu
    rw [hripe.eq_node _ _ hu', Line.tree, hletter, Tree.node.injEq] at htree
    have hmap : List.Forall₂ Eq ((Line.marked [] u).map (Mark.tree letters base)) (u'.map (Mark.part meaning)) :=
      List.forall₂_eq_eq_eq ▸ htree.symm
    rwa [List.forall₂_map_left_iff, List.forall₂_map_right_iff] at hmap
  have hmarks : List.Forall₂ (fun e m => Mark.bound letters (fun c => p'.label (cell c)) p'.label e = Mark.relabel p'.label m)
      (Line.marked [] u) u' := by
    refine (forall₂_mem hparts).imp fun e m' h => ?_
    obtain ⟨m, isProtected⟩ := e
    obtain ⟨hm, hm', heq⟩ := h
    have hrefs : ∀ k', m' = .ref k' → k' < p'.cells.length := fun k' hk' => hu'.within.refs k' (hk' ▸ hm')
    cases m with
    | ref k =>
      have hk := hu.within.refs k (List.of_mem_zip hm).1
      cases m' with
      | char d => cases heq
      | ref k' =>
        have hsame : meaning k = meaning k' := (hgrown.kept k hk).trans (Sum.inr.inj heq)
        exact congrArg Mark.ref (h.label_eq (hk.trans_le hgrown.larger) (hrefs k' rfl) hsame)
    | char c =>
      rw [Mark.tree] at heq
      rw [Mark.bound]
      split at heq
      · rename_i hc
        rw [if_pos hc]
        cases m' with
        | char d => cases heq
        | ref k' =>
          obtain ⟨hlt, hmeaning⟩ := hcell c hc.1
          exact congrArg Mark.ref (h.label_eq hlt (hrefs k' rfl) (hmeaning.trans (Sum.inr.inj heq)))
      · rename_i hc
        rw [if_neg hc]
        cases m' with
        | char d => exact congrArg Mark.char (Sum.inl.inj heq)
        | ref k' => cases heq
  rwa [← List.forall₂_eq_eq_eq, List.forall₂_map_left_iff, List.forall₂_map_right_iff]

/-- What the cells of a pool stand for, the contexts stand for. -/
theorem represents (h : Bound .standard letters p p' base meaning) (hletters : ∀ c ∈ letters, c.isLower = true) {n : Nat}
    (hp : p.Represents (.node letters) e n) : ∃ M, p'.toContexts.Represents letters M e := by
  have hR := (Reading.proper_node letters).mono
  have hripe := h.complete.ripe
  have hgrown := h.complete.grown
  have hcells : ∀ c, ∃ x, c ∈ letters → x < p'.cells.length ∧ meaning x = .letter c := fun c => by
    by_cases hc : c ∈ letters
    · exact (hgrown.cells c hc).imp fun _ hx _ => hx
    · exact ⟨0, fun hmem => absurd hmem hc⟩
  choose cell hcell using hcells
  refine ⟨fun i a => (∃ x, p.Means (.node letters) x a ∧ p'.label x = i) ∨
    ∃ c ∈ letters, c ≠ 'e' ∧ a = .letter c ∧ p'.label (cell c) = i, ?_, ?_, ?_, ?_⟩
  · have hvariable : ∀ c ∈ letters, c ≠ 'e' → ∀ k < p'.cells.length, meaning k = .letter c →
        p'.toContexts.get? (p'.label k) = some (Phrase.line [.letter c]).text := by
      intro c hc he k hk hmeaning
      rw [h.get?_label hc hk hmeaning, Pool.letterText, if_neg he]
      rfl
    rintro i a (⟨x, hx, rfl⟩ | ⟨c, hc, he, rfl, rfl⟩)
    · obtain ⟨hlt, l, hl, hnode⟩ := Pool.conveys_means hR x a hx
      by_cases hvar : ∃ c, l = [.letter c]
      · obtain ⟨c, rfl⟩ := hvar
        cases hnode with
        | letter hc he =>
          have hmeaning : meaning x = .letter c := by
            rw [hgrown.kept x hlt, ← h.denotes.pointed x hlt, h.denotes.eq_tree hl]
            exact Line.tree_letter hc
          exact ⟨_, hvariable c hc he _ (hlt.trans_le hgrown.larger) hmeaning, .letter hc he⟩
      · refine ⟨_, ?_, hnode.bind (fun c hc he => .inr ⟨c, hc, he, rfl, rfl⟩) (fun k a hk => .inl ⟨k, hk, rfl⟩) fun c hc => hvar ⟨c, hc⟩⟩
        rw [hnode.line_bind hletters fun c hc => hvar ⟨c, hc⟩]
        exact h.get?_of_writes hcell hlt hl (hnode.letter?_eq_none hletters fun c hc => hvar ⟨c, hc⟩)
    · exact ⟨_, hvariable c hc he _ (hcell c hc).1 (hcell c hc).2, .letter hc he⟩
  · refine .inl ⟨Index.root, hp.root, ?_⟩
    rw [Pool.label, Pool.numbering, List.idxOf_cons_self]
    rfl
  · rintro i a (⟨x, hx, rfl⟩ | ⟨c, hc, -, -, rfl⟩)
    · exact hripe.label_lt ((hx.lt hR).trans_le hgrown.larger)
    · exact hripe.label_lt (hcell c hc).1
  · intro i t ht
    obtain ⟨x, u, hi, hu, rfl⟩ := hripe.get?_toContexts.1 ht
    have hlabel : p'.label x = i := by rw [Pool.label, Pool.resolve_of_holds hu.held, Pool.idxOf_numbering hi]
    by_cases hx : x < p.cells.length
    · obtain ⟨a, ha⟩ := hp.meant _ (hp.sound.holds_resolve hx)
      obtain ⟨s, hs, hsaid⟩ := ha.exists_writes hR
      rw [Pool.resolve_of_holds (hp.sound.holds_resolve hx)] at hs
      exact .inr ⟨a, .inl ⟨x, hsaid.means hR hx hs, hlabel⟩⟩
    · obtain ⟨d, hd, hmeaning⟩ := hgrown.fresh x (Nat.le_of_not_lt hx) (Pool.lt_of_holds hu.held)
      have hget := h.get?_label hd (Pool.lt_of_holds hu.held) hmeaning
      rw [hlabel, ht] at hget
      exact .inl ⟨d, hd, Option.some.inj hget⟩

end Bound

end Contexts

namespace Expression

/-- The written text of an expression has contexts, and their root stands for the expression. -/
theorem exists_contexts {names : List Text} {letters : List Char} (hletters : Source.declare .standard names = .ok letters)
    {e : Expression} (he : ∀ c ∈ e.letters, c ∈ letters ∧ c ≠ 'e') (hbound : e.write.length + letters.length ≤ Index.bound) :
    ∃ c M, Contexts.ofSource .standard letters e.write = .ok c ∧ Contexts.created .standard letters e.write ≤ Index.bound ∧
      c.Represents letters M e := by
  have hlower := (Source.declare_facts hletters).2
  obtain ⟨hfault, hstrip⟩ := write_facts hlower fun c hc => (he c hc).1
  obtain ⟨p, hp, hrepresents⟩ := exists_ofSource hlower he ((Nat.le_add_right _ _).trans hbound)
  have hcontexts : Contexts.ofSource .standard letters e.write = .ok (p.bindLetters RuleSet.standard.functionNames letters).freeze := by
    rw [Contexts.ofSource, hstrip, hfault]
    simp only [Contexts.ofWellFormed, hp]
    rfl
  have hcreated : Contexts.created .standard letters e.write ≤ Index.bound := by
    have hwrite : ∀ c ∈ ['(', ')', '{', '}'], (fun _ => [] : Char → Text) c = [] := fun _ _ => rfl
    obtain ⟨base, hbase⟩ := (Pool.plain_ofSource hp hfault hwrite).exists_denotes RuleSet.standard.functionNames letters
    obtain ⟨_, hgrown⟩ := hbase.exists_grown hletters (.refl _)
    rw [Contexts.created, hstrip, hp]
    exact hgrown.length_le.trans ((Nat.add_le_add_right hrepresents.length_le _).trans hbound)
  obtain ⟨q, q', base, meaning, hq, hbinds, hc⟩ := Contexts.exists_bound hletters hcreated hcontexts
  rw [hstrip, hp] at hq
  obtain rfl := Except.ok.inj hq
  obtain ⟨M, hM⟩ := hbinds.represents hlower hrepresents
  exact ⟨_, M, hcontexts, hcreated, hc ▸ hM⟩

end Expression

end FormulaDag
