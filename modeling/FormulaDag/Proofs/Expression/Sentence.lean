import FormulaDag.Proofs.Expression.Meaning

/-!
# Sentences

Once the groups of an expression are taken apart, a phrase has at most two operands, each an item that may have an exponent. A rule takes
a command, a number or a power out of such a sentence. What is taken out stands for something by itself, and the sentence stands for the
same as before when an index that stands for that something takes its place.
-/

namespace FormulaDag

namespace Item

/-- What an item stands for when the indices stand for expressions. -/
inductive Reads (letters : List Char) (M : Nat → Expression → Prop) : Item → Expression → Prop where
  | digits (run : DigitRun) : Reads letters M (.digits run) (.digits run)
  | letter {c : Char} (hc : c ∈ letters) (he : c ≠ 'e') : Reads letters M (.letter c) (.letter c)
  | call {c : Call} {e : Expression} (h : c.Reads M e) : Reads letters M (.call c) e
  | ref {k : Nat} {e : Expression} (h : M k e) : Reads letters M (.ref k) e

section
variable {letters : List Char} {M M' : Nat → Expression → Prop} {item : Item} {e : Expression}

/-- An item that is read over some meanings of indices is read over more of them. -/
theorem Reads.mono (hsub : ∀ k e, M k e → M' k e) (h : item.Reads letters M e) : item.Reads letters M' e := by
  cases h with
  | digits run => exact .digits run
  | letter hc he => exact .letter hc he
  | call h => exact .call (h.mono hsub)
  | ref h => exact .ref (hsub _ _ h)

/-- An item is read when its index is relabelled along with the meanings. -/
theorem Reads.relabel {f : Nat → Nat} (hf : ∀ k e, M k e → M' (f k) e) (h : item.Reads letters M e) :
    (item.relabel f).Reads letters M' e := by
  cases h with
  | digits run => exact .digits run
  | letter hc he => exact .letter hc he
  | call h => exact .call (h.relabel hf)
  | ref h => exact .ref (hf _ _ h)

/-- An item that reads as something is no sign. -/
theorem Reads.ne_sign (h : item.Reads letters M e) (c : Char) : item ≠ .sign c := by
  rintro rfl
  cases h

/-- An item other than an index is written with at least one character. -/
theorem charCount_pos (h : ∀ k, item ≠ .ref k) : 0 < item.line.charCount := by
  cases item with
  | digits run => simpa [line] using List.length_pos_of_ne_nil run.nonempty
  | ref k => exact absurd rfl (h k)
  | letter | sign | call => simp [line, Call.line]

end

end Item

namespace Phrase

/-- A phrase that is an operand without parentheses. -/
inductive Factor (letters : List Char) (M : Nat → Expression → Prop) : Phrase → Expression → Prop where
  | item {item : Item} {e : Expression} (h : item.Reads letters M e) : Factor letters M [item] e
  | power {item : Item} {k : Nat} {a b : Expression} (ha : item.Reads letters M a) (hb : M k b) :
    Factor letters M [item, .sign '^', .ref k] (.power a b)

/-- A phrase without parentheses that is no mere index. -/
inductive Sentence (letters : List Char) (M : Nat → Expression → Prop) : Phrase → Expression → Prop where
  | factor {l : Phrase} {e : Expression} (h : Factor letters M l e) (hindex : ∀ k, l ≠ [.ref k]) : Sentence letters M l e
  | negation {l : Phrase} {a : Expression} (ha : Factor letters M l a) : Sentence letters M (.sign '-' :: l) (.negation a)
  | operation (op : Operator) {l l' : Phrase} {a b : Expression} (ha : Factor letters M l a) (hb : Factor letters M l' b)
    (hdigits : op = .divide → ∀ run rest, l' ≠ .digits run :: rest) :
    Sentence letters M (l ++ .sign op.char :: l') (.operation op a b)

section
variable {letters : List Char} {M M' : Nat → Expression → Prop} {l l₁ l₂ : Phrase} {e : Expression} {item : Item}

/-- A factor that is read over some meanings of indices is read over more of them. -/
theorem Factor.mono (hsub : ∀ k e, M k e → M' k e) (h : Factor letters M l e) : Factor letters M' l e := by
  cases h with
  | item h => exact .item (h.mono hsub)
  | power ha hb => exact .power (ha.mono hsub) (hsub _ _ hb)

/-- A sentence that is read over some meanings of indices is read over more of them. -/
theorem Sentence.mono (hsub : ∀ k e, M k e → M' k e) (h : Sentence letters M l e) : Sentence letters M' l e := by
  cases h with
  | factor h hindex => exact .factor (h.mono hsub) hindex
  | negation ha => exact .negation (ha.mono hsub)
  | operation op ha hb hdigits => exact .operation op (ha.mono hsub) (hb.mono hsub) hdigits

/-- A factor is read when its indices are relabelled along with the meanings. -/
theorem Factor.relabel {f : Nat → Nat} (hf : ∀ k e, M k e → M' (f k) e) (h : Factor letters M l e) :
    Factor letters M' (l.map (Item.relabel f)) e := by
  cases h with
  | item h => exact .item (h.relabel hf)
  | power ha hb => exact .power (ha.relabel hf) (hf _ _ hb)

theorem map_relabel_ne {f : Nat → Nat} (h : ∀ k, l ≠ [.ref k]) (k : Nat) : l.map (Item.relabel f) ≠ [.ref k] := by
  intro heq
  obtain ⟨item, rfl, hitem⟩ := List.map_eq_singleton_iff.1 heq
  cases item with
  | ref j => exact h j rfl
  | digits | letter | call | sign => cases hitem

/-- A sentence is read when its indices are relabelled along with the meanings. -/
theorem Sentence.relabel {f : Nat → Nat} (hf : ∀ k e, M k e → M' (f k) e) (h : Sentence letters M l e) :
    Sentence letters M' (l.map (Item.relabel f)) e := by
  cases h with
  | factor h hindex => exact .factor (h.relabel hf) (map_relabel_ne hindex)
  | negation ha => exact .negation (ha.relabel hf)
  | operation op ha hb hdigits =>
    rw [List.map_append, List.map_cons]
    refine .operation op (ha.relabel hf) (hb.relabel hf) fun hop run rest heq => ?_
    obtain ⟨item, rest', rfl, hitem, -⟩ := List.map_eq_cons_iff.1 heq
    cases item with
    | digits run' => exact hdigits hop run' rest' rfl
    | letter | call | ref | sign => cases hitem

/-- A sentence is written with at least one character. -/
theorem Sentence.charCount_pos (h : Sentence letters M l e) : 0 < l.line.charCount := by
  cases h with
  | factor h hindex =>
    cases h with
    | @item item e h =>
      have hpos : 0 < item.line.charCount := Item.charCount_pos fun k hk => hindex k (by rw [hk])
      simpa using hpos
    | power => simp [Item.line]
  | negation | operation => simp [Item.line]

/-! ### Phrases without parentheses -/

/-- An atom is read from one item that is no index. -/
theorem Reads.exists_item (h : Reads letters M .atom l e) : ∃ item, l = [item] ∧ item.Reads letters M e ∧ ∀ k, item ≠ .ref k := by
  cases h with
  | digits run => exact ⟨_, rfl, .digits run, by simp⟩
  | letter hc he => exact ⟨_, rfl, .letter hc he, by simp⟩
  | call h => exact ⟨_, rfl, .call h, by simp⟩

/-- Without parentheses a base is read from one item. -/
theorem Reads.exists_base (h : Reads letters M .base l e) (hflat : .sign '(' ∉ l) : ∃ item, l = [item] ∧ item.Reads letters M e := by
  cases h with
  | reference h => exact ⟨_, rfl, .ref h⟩
  | parentheses => simp at hflat
  | baseOfAtom h =>
    obtain ⟨item, rfl, hitem, -⟩ := h.exists_item
    exact ⟨item, rfl, hitem⟩

/-- Without parentheses a power is read as a factor that is no index alone. -/
theorem Reads.factor_of_power (h : Reads letters M .power l e) (hflat : .sign '(' ∉ l) :
    Factor letters M l e ∧ ∀ k, l ≠ [.ref k] := by
  cases h with
  | power ha hb =>
    obtain ⟨item, rfl, hitem⟩ := ha.exists_base fun hmem => hflat (List.mem_append_left _ hmem)
    exact ⟨.power hitem hb, by simp⟩

/-- Without parentheses an operand is read as a factor. -/
theorem Reads.factor (h : Reads letters M .operand l e) (hflat : .sign '(' ∉ l) : Factor letters M l e := by
  cases h with
  | operandOfBase h =>
    obtain ⟨item, rfl, hitem⟩ := h.exists_base hflat
    exact .item hitem
  | operandOfPower h => exact (h.factor_of_power hflat).1

/-- A phrase without parentheses is a sentence. -/
theorem Reads.sentence (h : Reads letters M .whole l e) (hflat : .sign '(' ∉ l) : Sentence letters M l e := by
  cases h with
  | wholeOfAtom h =>
    obtain ⟨item, rfl, hitem, hindex⟩ := h.exists_item
    exact .factor (.item hitem) fun k hk => hindex k (List.singleton_inj.1 hk)
  | wholeOfPower h =>
    obtain ⟨hfactor, hindex⟩ := h.factor_of_power hflat
    exact .factor hfactor hindex
  | negation ha => exact .negation (ha.factor fun hmem => hflat (List.mem_cons_of_mem _ hmem))
  | operation op ha hb hdigits =>
    exact .operation op (ha.factor fun hmem => hflat (List.mem_append_left _ hmem))
      (hb.factor fun hmem => hflat (List.mem_append_right _ (List.mem_cons_of_mem _ hmem))) hdigits

/-! ### Parts of sentences -/

/-- The phrase before an operand: none, or one that ends with an operator. -/
def IsBefore (u : Phrase) : Prop := u = [] ∨ ∃ u' op, u = u' ++ [.sign (Operator.char op)]

/-- The phrase after an operand: none, or one that begins with an operator. -/
def IsAfter (v : Phrase) : Prop := v = [] ∨ ∃ op v', v = .sign (Operator.char op) :: v'

/-- A sentence with one of its operands brought out. Another operand that stands for the same may take its place. -/
structure Framed (letters : List Char) (M : Nat → Expression → Prop) (u l v : Phrase) (e : Expression) : Prop where
  before : IsBefore u
  after : IsAfter v
  fill : ∃ a, Factor letters M l a ∧ ∀ l', Factor letters M l' a → (∀ run rest, l' ≠ .digits run :: rest) →
    (u ≠ [] ∨ v ≠ [] ∨ ∀ k, l' ≠ [.ref k]) → Sentence letters M (u ++ (l' ++ v)) e
  stroke : ∀ u', u = u' ++ [.sign '/'] → ∀ run rest, l ≠ .digits run :: rest

/-- Every item but an operator belongs to an operand. -/
theorem Sentence.exists_framed (h : Sentence letters M (l₁ ++ item :: l₂) e) (hitem : ∀ op : Operator, item ≠ .sign op.char) :
    ∃ u u' v' v, l₁ = u ++ u' ∧ l₂ = v' ++ v ∧ Framed letters M u (u' ++ item :: v') v e := by
  generalize hl : l₁ ++ item :: l₂ = l at h
  cases h with
  | factor h hindex =>
    refine ⟨[], l₁, l₂, [], rfl, (List.append_nil _).symm, .inl rfl, .inl rfl, ⟨e, hl ▸ h, fun l' h' _ hpart => ?_⟩, by simp⟩
    rw [List.nil_append, List.append_nil]
    exact .factor h' (by simpa using hpart)
  | @negation l a ha =>
    obtain ⟨t, rfl, ht⟩ : ∃ t, l₁ = .sign '-' :: t ∧ t ++ item :: l₂ = l := by
      cases l₁ with
      | nil => exact absurd (List.cons.inj hl).1 (hitem .minus)
      | cons x t => exact ⟨t, by rw [(List.cons.inj hl).1], (List.cons.inj hl).2⟩
    refine ⟨[.sign '-'], t, l₂, [], rfl, (List.append_nil _).symm, .inr ⟨[], .minus, rfl⟩, .inl rfl,
      ⟨_, ht ▸ ha, fun l' h' _ _ => ?_⟩, fun u' hu => ?_⟩
    · rw [List.append_nil]
      exact .negation h'
    · have hlast := congrArg List.getLast? hu
      simp at hlast
  | @operation op l l' a b ha hb hdigits =>
    rcases List.append_eq_append_iff.1 hl with ⟨t, rfl, ht⟩ | ⟨t, rfl, ht⟩
    · -- the item stands before the operator
      obtain ⟨v, rfl, rfl⟩ : ∃ v, t = item :: v ∧ l₂ = v ++ .sign op.char :: l' := by
        cases t with
        | nil => exact absurd (List.cons.inj ht).1 (hitem op)
        | cons x v => exact ⟨v, by rw [(List.cons.inj ht).1], (List.cons.inj ht).2⟩
      refine ⟨[], l₁, v, .sign op.char :: l', rfl, rfl, .inl rfl, .inr ⟨op, l', rfl⟩, ⟨a, ha, fun l h _ _ => ?_⟩, by simp⟩
      exact .operation op h hb hdigits
    · -- the item stands behind it
      obtain ⟨u, rfl, rfl⟩ : ∃ u, t = .sign op.char :: u ∧ l' = u ++ item :: l₂ := by
        cases t with
        | nil => exact absurd (List.cons.inj ht).1.symm (hitem op)
        | cons x u => exact ⟨u, by rw [(List.cons.inj ht).1], (List.cons.inj ht).2⟩
      refine ⟨l ++ [.sign op.char], u, l₂, [], by simp, (List.append_nil _).symm, .inr ⟨l, op, rfl⟩, .inl rfl,
        ⟨b, hb, fun l' h' hfree _ => ?_⟩, fun u' hu => ?_⟩
      · rw [List.append_nil, List.append_assoc, List.singleton_append]
        exact .operation op ha h' fun _ => hfree
      · obtain ⟨-, hop⟩ := List.append_inj' hu rfl
        refine hdigits ?_
        cases op with
        | divide => rfl
        | plus | minus | times => simp [Operator.char] at hop

/-- A part of a sentence that has an expression of its own, for which an index may stand. -/
def IsPart (letters : List Char) (M : Nat → Expression → Prop) (l₁ l l₂ : Phrase) (e : Expression) : Prop :=
  ∃ d, Sentence letters M l d ∧ (l₁ ≠ [] ∨ l₂ ≠ [] → ∀ j, M j d → Sentence letters M (l₁ ++ .ref j :: l₂) e)

/-- What stands framed within a sentence, and is no index alone, is a part of it. -/
theorem Framed.isPart (h : Framed letters M l₁ l l₂ e) (hindex : ∀ k, l ≠ [.ref k]) : IsPart letters M l₁ l l₂ e := by
  obtain ⟨a, ha, hfill⟩ := h.fill
  refine ⟨a, .factor ha hindex, fun hpart j hj => ?_⟩
  have hsentence := hfill [.ref j] (.item (.ref hj)) (by simp) (hpart.elim .inl fun h => .inr (.inl h))
  rwa [List.singleton_append] at hsentence

/-- A factor begins with its base, and a caret with an index follows or nothing. -/
theorem Factor.exists_base (h : Factor letters M (l₁ ++ item :: l₂) e) (hsign : ∀ c, item ≠ .sign c) (hindex : ∀ k, item ≠ .ref k) :
    l₁ = [] ∧ (l₂ = [] ∨ ∃ k, l₂ = [.sign '^', .ref k]) ∧
      ∃ d, item.Reads letters M d ∧ ∀ j, M j d → Factor letters M (.ref j :: l₂) e := by
  generalize hl : l₁ ++ item :: l₂ = l at h
  cases h with
  | @item item' e h =>
    obtain ⟨rfl, hl⟩ := List.append_eq_singleton_iff.1 hl |>.resolve_right (by simp)
    obtain ⟨rfl, rfl⟩ := List.cons.inj hl
    exact ⟨rfl, .inl rfl, e, h, fun j hj => .item (.ref hj)⟩
  | @power item' k a b ha hb =>
    cases l₁ with
    | nil =>
      obtain ⟨rfl, rfl⟩ := List.cons.inj hl
      exact ⟨rfl, .inr ⟨k, rfl⟩, a, ha, fun j hj => .power (.ref hj) hb⟩
    | cons x l₁ =>
      have hmem : item ∈ [Item.sign '^', .ref k] := (List.cons.inj hl).2 ▸ by simp
      simp only [List.mem_cons, List.not_mem_nil, or_false] at hmem
      exact (hmem.elim (hsign _) (hindex k)).elim

/-- A factor with a caret is a power of what stands before it to the index behind it. -/
theorem Factor.exists_power (h : Factor letters M (l₁ ++ .sign '^' :: l₂) e) :
    ∃ item k a b, l₁ = [item] ∧ l₂ = [.ref k] ∧ item.Reads letters M a ∧ M k b ∧ e = .power a b := by
  generalize hl : l₁ ++ Item.sign '^' :: l₂ = l at h
  cases h with
  | @item item' e h =>
    obtain ⟨-, hl⟩ := List.append_eq_singleton_iff.1 hl |>.resolve_right (by simp)
    exact absurd (List.cons.inj hl).1.symm (h.ne_sign '^')
  | @power item' k a b ha hb =>
    cases l₁ with
    | nil => exact absurd (List.cons.inj hl).1.symm (ha.ne_sign '^')
    | cons x l₁ =>
      obtain ⟨rfl, hl'⟩ := List.cons.inj hl
      change l₁ ++ Item.sign '^' :: l₂ = [.sign '^', .ref k] at hl'
      cases l₁ with
      | nil => exact ⟨x, k, a, b, rfl, (List.cons.inj hl').2, ha, hb, rfl⟩
      | cons y l₁ =>
        have hmem : Item.sign '^' ∈ [Item.ref k] := (List.cons.inj hl').2 ▸ by simp
        simp at hmem

/-- A command, a number or a letter can be taken out of a sentence. -/
theorem Sentence.isPart_item (h : Sentence letters M (l₁ ++ item :: l₂) e) (hsign : ∀ c, item ≠ .sign c) (hindex : ∀ k, item ≠ .ref k) :
    IsPart letters M l₁ [item] l₂ e ∧ IsBefore l₁ ∧ (l₂ = [] ∨ ∃ c l, l₂ = .sign c :: l ∧ c.isDigit = false ∧ c ≠ '.') ∧
      (∀ u run, l₁ = u ++ [.sign '/'] → item ≠ .digits run) := by
  obtain ⟨u, u', v', v, rfl, rfl, hframed⟩ := h.exists_framed fun op => hsign op.char
  obtain ⟨a, ha, hfill⟩ := hframed.fill
  obtain ⟨rfl, hv', d, hd, hbase⟩ := ha.exists_base hsign hindex
  rw [List.append_nil]
  refine ⟨⟨d, .factor (.item hd) fun k hk => hindex k (List.singleton_inj.1 hk), fun hpart j hj => ?_⟩, hframed.before, ?_,
    fun w run hw heq => hframed.stroke w hw run v' (by rw [heq]; rfl)⟩
  · refine hfill (.ref j :: v') (hbase j hj) (by simp) ?_
    rcases hpart with hu | hv
    · exact .inl hu
    · by_cases hnil : v = []
      · refine .inr (.inr fun k hk => hv ?_)
        rw [hnil, (List.cons.inj hk).2, List.append_nil]
      · exact .inr (.inl hnil)
  · rcases hv' with rfl | ⟨k, rfl⟩
    · rcases hframed.after with rfl | ⟨op, v, rfl⟩
      · exact .inl rfl
      · exact .inr ⟨op.char, v, rfl, by cases op <;> decide, by cases op <;> decide⟩
    · exact .inr ⟨'^', _, rfl, by decide, by decide⟩

/-- A power can be taken out of a sentence. -/
theorem Sentence.isPart_power (h : Sentence letters M (l₁ ++ .sign '^' :: l₂) e) :
    ∃ u item k v, l₁ = u ++ [item] ∧ l₂ = .ref k :: v ∧ IsPart letters M u [item, .sign '^', .ref k] v e ∧ IsBefore u ∧
      ∃ d, item.Reads letters M d := by
  obtain ⟨u, u', v', v, rfl, rfl, hframed⟩ := h.exists_framed fun op => by cases op <;> simp [Operator.char]
  obtain ⟨a, ha, -⟩ := hframed.fill
  obtain ⟨item, k, b, c, rfl, rfl, hitem, hk, rfl⟩ := ha.exists_power
  exact ⟨u, item, k, v, rfl, rfl, hframed.isPart (by simp), hframed.before, b, hitem⟩

end

end Phrase

end FormulaDag
