import FormulaDag.Proofs.Expression.Occurrences
import FormulaDag.Proofs.Expression.Ungrouping
import FormulaDag.Proofs.Pool.Draining

/-!
# The reduction of an expression

Whatever a rule takes out of a sentence is a sentence of its own, so reduction keeps what the root stands for and never fails. In the end
all rules rest in all sentences, and then each of them is a node: a command, a number, a variable, a power, or a sum of variables and
indices.
-/

namespace FormulaDag

namespace Phrase

section
variable {letters : List Char} {M : Nat → Expression → Prop} {l l₁ l₂ part : Phrase} {d : Expression} {e : Nat × Rule} {id : Nat}

theorem IsTaken.length_eq (h : IsTaken id l) (h' : IsTaken id part) : l.length = part.length := by
  have hrule : ∀ c : Call, c.rule ≠ 5 ∧ c.rule ≠ 6 := fun c => by have := c.rule_lt; omega
  cases h with
  | call c =>
    generalize hid : c.rule = id at h'
    cases h' with
    | call => rfl
    | power => exact absurd hid (hrule c).1
    | digits => exact absurd hid (hrule c).2
  | power =>
    generalize hid : 5 = id at h'
    cases h' with
    | call c => exact absurd hid.symm (hrule c).1
    | power => rfl
    | digits => cases hid
  | digits =>
    generalize hid : 6 = id at h'
    cases h' with
    | call c => exact absurd hid.symm (hrule c).2
    | power => cases hid
    | digits => rfl

/-- What is taken is taken by a standard rule. -/
theorem IsTaken.exists_rule (h : IsTaken id part) : ∃ e ∈ RuleSet.standard.numbered, e.1 = id := by
  have hcommand : ∀ id < 5, ∃ e ∈ RuleSet.standard.numbered, e.1 = id := by
    intro id hid
    interval_cases id <;> simp [RuleSet.mem_numbered_standard]
  cases h with
  | call c => exact hcommand c.rule c.rule_lt
  | power | digits => simp [RuleSet.mem_numbered_standard]

/-- The commands of the rules that have been tried are not parts of something longer. -/
def Cleared (tried : List (Nat × Rule)) (l : Phrase) : Prop := ∀ c, .call c ∈ l → (∃ e ∈ tried, c.rule = e.1) → l = [.call c]

/-- A phrase with an index in the place of a part holds no further commands. -/
theorem Cleared.replace {tried : List (Nat × Rule)} (h : Cleared tried (l₁ ++ (part ++ l₂))) (hpart : l₁ ≠ [] ∨ l₂ ≠ []) (hne : part ≠ [])
    (k : Nat) : Cleared tried (l₁ ++ .ref k :: l₂) := by
  intro c hc htried
  have hmem : .call c ∈ l₁ ++ (part ++ l₂) := by
    simp only [List.mem_append, List.mem_cons, reduceCtorEq, false_or] at hc ⊢
    tauto
  have hlength := congrArg List.length (h c hmem htried)
  simp only [List.length_append, List.length_singleton] at hlength
  have := List.length_pos_of_ne_nil hne
  rcases hpart with hne | hne <;> have := List.length_pos_of_ne_nil hne <;> omega

/-- A phrase that is written as nothing is empty. -/
theorem eq_nil_of_text (h : l.line.text = []) : l = [] := by
  cases l with
  | nil => rfl
  | cons item l => exact absurd h (Line.text_ne_nil (by simp [item.line_ne_nil]))

/-- Only commands are written with a backslash. -/
theorem call_mem (hletters : ∀ c ∈ letters, c.isLower = true) (hfits : ∀ item ∈ l, item.Fits letters) (hc : .char '\\' ∈ l.line) :
    ∃ c, .call c ∈ l := by
  obtain ⟨item, hitem, hc⟩ := List.mem_flatMap.1 hc
  by_contra hnone
  rcases Item.char_mem_line (hfits item hitem) (fun c h => hnone ⟨c, h ▸ hitem⟩) hc with ⟨h, -⟩ | h | h | ⟨op, h⟩
  · exact absurd h (by decide)
  · exact absurd (hletters _ h) (by decide)
  · exact absurd h (by decide)
  · exact op.char_facts.1 h.symm

/-- What a rule that rests takes out is all of the sentence. -/
theorem Sentence.whole_of_rests (hletters : ∀ c ∈ letters, c.isLower = true) (h : Sentence letters M l d)
    (he : e ∈ RuleSet.standard.numbered) (hwithin : l.line.Within Index.bound)
    (hready : e.1 = 5 → .sign '^' ∈ l → ∀ c, .call c ∉ l) (hrests : e.2.rests e.1 l.line.text = true) (htaken : IsTaken e.1 part)
    (hl : l = l₁ ++ (part ++ l₂)) : l₁ = [] ∧ l₂ = [] := by
  rcases h.locate_cases hletters he hwithin hready with ⟨-, hnone⟩ | ⟨l₁', part', l₂', o, hl', htaken', -, -, hlocate⟩
  · exact absurd hl (hnone l₁ part l₂ htaken)
  · have hwhole : o.isWhole l.line.text = true := by
      rw [Rule.rests, hlocate] at hrests
      exact hrests
    obtain ⟨hbefore, hafter⟩ := (Rule.isWhole_iff (RuleSet.standard.isAligned _ (RuleSet.mem_of_numbered he)) hlocate).1 hwhole
    have hlengths := congrArg List.length (hl.symm.trans hl')
    rw [eq_nil_of_text hbefore, eq_nil_of_text hafter, List.nil_append, List.append_nil, ← htaken.length_eq htaken'] at hlengths
    simp only [List.length_append] at hlengths
    exact ⟨List.eq_nil_of_length_eq_zero (by omega), List.eq_nil_of_length_eq_zero (by omega)⟩

/-- Before a power is taken out, there are no commands beside it. -/
theorem Cleared.ready (hletters : ∀ c ∈ letters, c.isLower = true) {tried : List (Nat × Rule)} (h : Cleared tried l)
    (hfits : ∀ item ∈ l, item.Fits letters) (htried : ∀ c : Call, ∃ e ∈ tried, c.rule = e.1) {m : Phrase} (hm : m.line = l.line)
    (hcaret : .sign '^' ∈ m) (c : Call) : .call c ∉ m := by
  intro hc
  have hmem : ∀ {item : Item} {d : Char}, item ∈ m → .char d ∈ item.line → .char d ∈ l.line := fun hitem hd =>
    hm ▸ List.mem_flatMap.2 ⟨_, hitem, hd⟩
  obtain ⟨c', hc'⟩ := call_mem hletters hfits (hmem (d := '\\') hc (by simp [Item.line, Call.line]))
  have hcaret' := caret_mem hletters hfits (hmem (d := '^') hcaret (by simp [Item.line]))
  rw [h c' hc' (htried c')] at hcaret'
  simp at hcaret'

/-- However a line is read as a sentence, what is found divides the sentence in the same way. -/
theorem Sentence.exists_cut (hletters : ∀ c ∈ letters, c.isLower = true) (h : Sentence letters M l d)
    (he : e ∈ RuleSet.standard.numbered) (hwithin : l.line.Within Index.bound)
    (hready : e.1 = 5 → .sign '^' ∈ l → ∀ c, .call c ∉ l) {a u b : Line} (hline : l.line = a ++ (u ++ b)) {o : Occurrence}
    (hotext : o.text = u.text) (hlocate : e.2.locate e.1 l.line.text = .ok (some ⟨a.text, o, b.text⟩)) :
    ∃ l₁ part l₂ : Phrase, l = l₁ ++ (part ++ l₂) ∧ l₁.line = a ∧ part.line = u ∧ l₂.line = b ∧ IsPart letters M l₁ part l₂ d := by
  rcases h.locate_cases hletters he hwithin hready with ⟨hnone, -⟩ | ⟨l₁, part, l₂, o', rfl, -, hpart, hotext', hlocate'⟩
  · rw [hnone] at hlocate
    cases hlocate
  · rw [hlocate, Except.ok.injEq, Option.some.injEq, Located.mk.injEq] at hlocate'
    obtain ⟨ha, rfl, hb⟩ := hlocate'
    have hparts : (line l₁).Within Index.bound ∧ (line part).Within Index.bound ∧ (line l₂).Within Index.bound := by
      rw [line_append, line_append] at hwithin
      exact ⟨hwithin.subset (by simp), hwithin.subset (by simp), hwithin.subset (by simp)⟩
    have hown : a.Within Index.bound ∧ u.Within Index.bound ∧ b.Within Index.bound := by
      rw [hline] at hwithin
      exact ⟨hwithin.subset (by simp), hwithin.subset (by simp), hwithin.subset (by simp)⟩
    exact ⟨l₁, part, l₂, rfl, hparts.1.text_injective hown.1 ha.symm, hparts.2.1.text_injective hown.2.1 (hotext'.symm.trans hotext),
      hparts.2.2.text_injective hown.2.2 hb.symm, hpart⟩

/-- A sentence in which an index takes the place of what a rule finds stands for the same, however its line is read. -/
theorem Sentence.exists_replaced (hletters : ∀ c ∈ letters, c.isLower = true) (h : Sentence letters M l d)
    (he : e ∈ RuleSet.standard.numbered) (hwithin : l.line.Within Index.bound) (hready : e.1 = 5 → .sign '^' ∈ l → ∀ c, .call c ∉ l)
    (hline : l.line = l₁.line ++ (part.line ++ l₂.line)) {o : Occurrence} (hotext : o.text = part.line.text)
    (hlocate : e.2.locate e.1 l.line.text = .ok (some ⟨l₁.line.text, o, l₂.line.text⟩)) (hpart : part.line ≠ [])
    (hne : l₁ ≠ [] ∨ l₂ ≠ []) {k : Nat} (hk : ∀ (m : Phrase) (a : Expression), m.line = part.line → Sentence letters M m a → M k a) :
    ∃ l' : Phrase, l'.line = line (l₁ ++ .ref k :: l₂) ∧ Sentence letters M l' d ∧ ∀ tried, Cleared tried l → Cleared tried l' := by
  obtain ⟨m₁, m, m₂, rfl, h₁, hm, h₂, a, ha, hfill⟩ := h.exists_cut hletters he hwithin hready hline hotext hlocate
  have hne' : m₁ ≠ [] ∨ m₂ ≠ [] := by
    refine hne.imp (fun h₁' hnil => ?_) fun h₂' hnil => ?_
    · exact h₁' (eq_nil_of_text (by rw [← h₁, hnil]; rfl))
    · exact h₂' (eq_nil_of_text (by rw [← h₂, hnil]; rfl))
  refine ⟨m₁ ++ .ref k :: m₂, by simp [h₁, h₂], hfill hne' k (hk m a hm ha), fun tried hcleared => hcleared.replace hne' ?_ k⟩
  rintro rfl
  exact hpart hm.symm

end

/-! ### Nodes -/

end Phrase

namespace Item

/-- A variable or an index. -/
inductive Leaf (letters : List Char) (M : Nat → Expression → Prop) : Item → Expression → Prop where
  | letter {c : Char} (hc : c ∈ letters) (he : c ≠ 'e') : Leaf letters M (.letter c) (.letter c)
  | ref {k : Nat} {e : Expression} (h : M k e) : Leaf letters M (.ref k) e

section
variable {letters : List Char} {M M' : Nat → Expression → Prop} {item : Item} {e : Expression}

/-- A leaf that is read over some meanings of indices is read over more of them. -/
theorem Leaf.mono (hsub : ∀ k e, M k e → M' k e) (h : item.Leaf letters M e) : item.Leaf letters M' e := by
  cases h with
  | letter hc he => exact .letter hc he
  | ref h => exact .ref (hsub _ _ h)

theorem Leaf.relabel {f : Nat → Nat} (hf : ∀ k e, M k e → M' (f k) e) (h : item.Leaf letters M e) :
    (item.relabel f).Leaf letters M' e := by
  cases h with
  | letter hc he => exact .letter hc he
  | ref h => exact .ref (hf _ _ h)

end

end Item

namespace Phrase

/-- A sentence from which nothing can be taken out. `letters` are those of the variables, `leaves` those that stand in sums and powers. -/
inductive Node (letters leaves : List Char) (M : Nat → Expression → Prop) : Phrase → Expression → Prop where
  | digits (run : DigitRun) : Node letters leaves M [.digits run] (.digits run)
  | letter {c : Char} (hc : c ∈ letters) (he : c ≠ 'e') : Node letters leaves M [.letter c] (.letter c)
  | call {c : Call} {e : Expression} (h : c.Reads M e) : Node letters leaves M [.call c] e
  | power {item : Item} {k : Nat} {a b : Expression} (ha : item.Leaf leaves M a) (hb : M k b) :
    Node letters leaves M [item, .sign '^', .ref k] (.power a b)
  | negation {item : Item} {a : Expression} (ha : item.Leaf leaves M a) : Node letters leaves M [.sign '-', item] (.negation a)
  | operation (op : Operator) {item item' : Item} {a b : Expression} (ha : item.Leaf leaves M a) (hb : item'.Leaf leaves M b) :
    Node letters leaves M [item, .sign op.char, item'] (.operation op a b)

section
variable {letters leaves : List Char} {M M' : Nat → Expression → Prop} {l : Phrase} {e : Expression}

/-- A node that is read over some meanings of indices is read over more of them. -/
theorem Node.mono (hsub : ∀ k e, M k e → M' k e) (h : Node letters leaves M l e) : Node letters leaves M' l e := by
  cases h with
  | digits run => exact .digits run
  | letter hc he => exact .letter hc he
  | call h => exact .call (h.mono hsub)
  | power ha hb => exact .power (ha.mono hsub) (hsub _ _ hb)
  | negation ha => exact .negation (ha.mono hsub)
  | operation op ha hb => exact .operation op (ha.mono hsub) (hb.mono hsub)

theorem Node.relabel {f : Nat → Nat} (hf : ∀ k e, M k e → M' (f k) e) (h : Node letters leaves M l e) :
    Node letters leaves M' (l.map (Item.relabel f)) e := by
  cases h with
  | digits run => exact .digits run
  | letter hc he => exact .letter hc he
  | call h => exact .call (h.relabel hf)
  | power ha hb => exact .power (ha.relabel hf) (hf _ _ hb)
  | negation ha => exact .negation (ha.relabel hf)
  | operation op ha hb => exact .operation op (ha.relabel hf) (hb.relabel hf)

theorem Node.charCount_pos (h : Node letters leaves M l e) : 0 < l.line.charCount := by
  cases h with
  | digits run => simpa [Item.line] using List.length_pos_of_ne_nil run.nonempty
  | letter | call | power | negation | operation => simp [Item.line, Call.line]

/-- A factor from which nothing can be taken out is a leaf. -/
theorem Factor.exists_leaf (h : Factor letters M l e) (hfree : ∀ id l₁ part l₂, IsTaken id part → l ≠ l₁ ++ (part ++ l₂)) :
    ∃ item : Item, l = [item] ∧ item.Leaf letters M e := by
  cases h with
  | @item item e h =>
    cases h with
    | digits run => exact absurd rfl (hfree 6 [] _ [] (.digits run))
    | letter hc he => exact ⟨_, rfl, .letter hc he⟩
    | @call c e h => exact absurd rfl (hfree c.rule [] _ [] (.call c))
    | ref h => exact ⟨_, rfl, .ref h⟩
  | power ha => exact absurd rfl (hfree 5 [] _ [] (.power _ ha.ne_sign))

/-- A sentence in which all rules rest is a node. -/
theorem Sentence.node_of_rests (hletters : ∀ c ∈ letters, c.isLower = true) (h : Sentence letters M l e)
    (hwithin : l.line.Within Index.bound) (hrests : ∀ r ∈ RuleSet.standard.numbered, r.2.rests r.1 l.line.text = true) :
    Node letters letters M l e := by
  have hall : ∀ id part l₁ l₂, (id = 5 → .sign '^' ∈ l → ∀ c, .call c ∉ l) → IsTaken id part → l = l₁ ++ (part ++ l₂) →
      l₁ = [] ∧ l₂ = [] := by
    intro id part l₁ l₂ hready htaken hl
    obtain ⟨r, hr, rfl⟩ := htaken.exists_rule
    exact h.whole_of_rests hletters hr hwithin hready (hrests r hr) htaken hl
  have hready : .sign '^' ∈ l → ∀ c, .call c ∉ l := by
    intro hcaret c hc
    obtain ⟨l₁, l₂, rfl⟩ := List.append_of_mem hc
    have hrule : c.rule ≠ 5 := Nat.ne_of_lt c.rule_lt
    obtain ⟨rfl, rfl⟩ := hall c.rule [.call c] l₁ l₂ (fun h => absurd h hrule) (.call c) rfl
    simp at hcaret
  have hwhole : ∀ id part l₁ l₂, IsTaken id part → l = l₁ ++ (part ++ l₂) → l₁ = [] ∧ l₂ = [] :=
    fun id part l₁ l₂ => hall id part l₁ l₂ fun _ => hready
  cases h with
  | factor h hindex =>
    cases h with
    | @item item e h =>
      cases h with
      | digits run => exact .digits run
      | letter hc he => exact .letter hc he
      | call h => exact .call h
      | ref => exact absurd rfl (hindex _)
    | @power item k a b ha hb =>
      cases ha with
      | digits run => simpa using hwhole 6 [.digits run] [] [.sign '^', .ref k] (.digits run) rfl
      | letter hc he => exact .power (.letter hc he) hb
      | @call c a h => simpa using hwhole c.rule [.call c] [] [.sign '^', .ref k] (.call c) rfl
      | ref h => exact .power (.ref h) hb
  | @negation l a ha =>
    obtain ⟨item, rfl, hitem⟩ := ha.exists_leaf fun id l₁ part l₂ htaken hl => by
      simpa using hwhole id part (.sign '-' :: l₁) l₂ htaken (by rw [hl]; rfl)
    exact .negation hitem
  | @operation op l l' a b ha hb hdigits =>
    obtain ⟨item, rfl, hitem⟩ := ha.exists_leaf fun id l₁ part l₂ htaken hl => by
      simpa using hwhole id part l₁ (l₂ ++ .sign op.char :: l') htaken (by rw [hl]; simp)
    obtain ⟨item', rfl, hitem'⟩ := hb.exists_leaf fun id l₁ part l₂ htaken hl => by
      simpa using hwhole id part (item :: .sign op.char :: l₁) l₂ htaken (by rw [hl]; simp)
    exact .operation op hitem hitem'

end

end Phrase

/-- The reading of texts without groups. -/
def Reading.flat (letters : List Char) : Reading := fun M => Phrase.Sentence letters M

theorem Reading.proper_flat (letters : List Char) : (flat letters).Proper where
  mono _ _ hsub _ _ h := h.mono hsub
  pos h := h.charCount_pos
  relabel hf h := h.relabel hf

/-- The reading of texts from which nothing can be taken out. -/
def Reading.node (letters : List Char) : Reading := fun M => Phrase.Node letters letters M

theorem Reading.proper_node (letters : List Char) : (node letters).Proper where
  mono _ _ hsub _ _ h := h.mono hsub
  pos h := h.charCount_pos
  relabel hf h := h.relabel hf

namespace Pool

open Phrase

/-- Behind the loop of a rule, the rule rests in the text of the index. -/
theorem Exhausts.rests {i : Nat} {e : Nat × Rule} {s s' : Progress} (h : Exhausts i e s s') :
    s'.pool.holds i = true → e.2.rests e.1 (s'.pool.text i) = true := by
  induction h with
  | rest h => exact h
  | extract _ _ ih => exact ih

section
variable {letters : List Char} {p : Pool} {e : Expression} {n i : Nat} {R R' : Reading}

/-- A pool is read in another way when each of its cells is. -/
theorem Represents.read (hR : R.Monotone) (h : p.Represents R e n)
    (hread : ∀ x (l : Phrase) d, p.Writes x l.line → R (p.Means R) l d → R' (p.Means R) l d) : p.Represents R' e n := by
  have hmeans : ∀ x d, p.Means R x d → p.Means R' x d := fun x d hx => by
    refine .of_conveys (M := p.Means R) (fun y d hy => ?_) hx
    obtain ⟨hlt, l, hl, hreads⟩ := conveys_means hR y d hy
    exact ⟨hlt, l, hl, hread _ l d hl hreads⟩
  exact ⟨h.sound, hmeans _ _ h.root, fun x hx => (h.meant x hx).imp fun d => hmeans x d, h.extent⟩

/-- A pool that represents an expression is written. -/
theorem Represents.written (hR : R.Monotone) (h : p.Represents R e n) : p.Written :=
  ⟨h.sound, fun _ hx => let ⟨l, _, hl, _⟩ := h.exists_phrase hR hx; ⟨l.line, hl⟩⟩

theorem Represents.length_le (h : p.Represents R e n) : p.cells.length ≤ n := (Nat.le_add_right _ _).trans h.extent

/-- Texts without groups are sentences. -/
theorem Represents.flat (h : p.Represents (.whole letters) e n) (hplain : ∀ x, p.holds x = true → '(' ∉ p.text x) :
    p.Represents (.flat letters) e n := by
  refine h.read (Reading.monotone_whole letters) fun x l d hl hreads => hreads.sentence fun hmem => hplain x hl.held ?_
  rw [hl.text]
  refine Line.mem_text ?_
  exact List.mem_flatMap.2 ⟨_, hmem, by simp [Item.line]⟩

/-- A pool of sentences in which the commands of some rules have been taken out of the text of one cell. -/
structure Divided (letters : List Char) (e : Expression) (n i : Nat) (tried : List (Nat × Rule)) (p : Pool) : Prop where
  represents : p.Represents (.flat letters) e n
  cleared : p.holds i = true → ∃ (l : Phrase) (d : Expression), p.Writes i l.line ∧ Sentence letters (p.Means (.flat letters)) l d ∧
    l.Cleared tried

variable {tried : List (Nat × Rule)} {r : Nat × Rule} {s s' : Progress}

section
variable (hletters : ∀ c ∈ letters, c.isLower = true) (hbound : n ≤ Index.bound) (hr : r ∈ RuleSet.standard.numbered)
  (htried : r.1 = 5 → ∀ c : Call, ∃ e ∈ tried, c.rule = e.1)
include hletters hbound hr htried

/-- What is found in a cell, unless it is all of it, stands for an expression and leaves something in the cell. -/
theorem Divided.exists_found (h : Divided letters e n i tried s.pool) (hi : s.pool.holds i = true) {found : Located}
    (hlocate : r.2.locate r.1 (s.pool.text i) = .ok (some found)) (hpart : found.occurrence.isWhole (s.pool.text i) = false) :
    ∃ (l₁ part l₂ : Phrase) (d a : Expression), s.pool.Writes i (l₁ ++ (part ++ l₂)).line ∧
      Sentence letters (s.pool.Means (.flat letters)) (l₁ ++ (part ++ l₂)) d ∧ (l₁ ++ (part ++ l₂)).Cleared tried ∧
      found.before = l₁.line.text ∧ found.occurrence.text = part.line.text ∧ found.after = l₂.line.text ∧
      Sentence letters (s.pool.Means (.flat letters)) part a ∧ (l₁ ≠ [] ∨ l₂ ≠ []) := by
  obtain ⟨l, d, hl, hreads, hcleared⟩ := h.cleared hi
  have hwithin : l.line.Within Index.bound := hl.within.mono (h.represents.length_le.trans hbound)
  rw [hl.text] at hlocate hpart
  rcases hreads.locate_cases hletters hr hwithin fun h5 => hcleared.ready hletters hreads.fits (htried h5) rfl with
    ⟨hnone, -⟩ | ⟨l₁, part, l₂, o, rfl, -, ⟨a, ha, -⟩, hotext, hfound⟩
  · rw [hnone] at hlocate
    cases hlocate
  rw [hfound, Except.ok.injEq, Option.some.injEq] at hlocate
  subst hlocate
  refine ⟨l₁, part, l₂, d, a, hl, hreads, hcleared, rfl, hotext, rfl, ha, ?_⟩
  by_contra hnil
  rw [not_or, not_not, not_not] at hnil
  obtain ⟨rfl, rfl⟩ := hnil
  rw [(Rule.isWhole_iff (RuleSet.standard.isAligned _ (RuleSet.mem_of_numbered hr)) hfound).2 ⟨rfl, rfl⟩] at hpart
  cases hpart

/-- What is taken out of a cell leaves a sentence. -/
theorem Divided.extract (h : Divided letters e n i tried s.pool) (hi : s.pool.holds i = true) {found : Located}
    (hlocate : r.2.locate r.1 (s.pool.text i) = .ok (some found)) (hpart : found.occurrence.isWhole (s.pool.text i) = false) :
    Divided letters e n i tried (s.extract i found).pool := by
  have hR := Reading.proper_flat letters
  obtain ⟨l₁, part, l₂, d, a, hl, hreads, hcleared, hbefore, hotext, hafter, hpartReads, hne⟩ :=
    h.exists_found hletters hbound hr htried hi hlocate hpart
  obtain ⟨before, o, after⟩ := found
  obtain rfl : before = l₁.line.text := hbefore
  obtain rfl : after = l₂.line.text := hafter
  simp only at hotext
  have hwithin : (line (l₁ ++ (part ++ l₂))).Within Index.bound := hl.within.mono (h.represents.length_le.trans hbound)
  have hready : ∀ m : Phrase, m.line = line (l₁ ++ (part ++ l₂)) → r.1 = 5 → .sign '^' ∈ m → ∀ c, .call c ∉ m := fun m hm h5 =>
    hcleared.ready hletters hreads.fits (htried h5) hm
  rw [hl.text] at hlocate
  rw [line_append, line_append] at hl hready hwithin hlocate
  have hpos := hpartReads.charCount_pos
  have hpartWithin : (line part).Within s.pool.cells.length := hl.within.subset (by simp)
  have hpartNe : line part ≠ [] := fun hnil => by simp [hnil] at hpos
  have hsound := h.represents.sound
  have hholding := hsound.holding hpartWithin hpartNe
  have hlater := hholding.later hR.mono ⟨part, rfl, hpartReads⟩
  have hextent := extent_intern_le hsound hpartWithin hpos
  have heq : (s.extract i ⟨l₁.line.text, o, l₂.line.text⟩).pool = (s.pool.intern (line part).text).pool.setText i
      (line (l₁ ++ .ref (s.pool.intern (line part).text).index :: l₂)).text := by
    rw [Progress.extract, hotext]
    simp [Item.line, Mark.text]
  rw [heq]
  generalize (s.pool.intern (line part).text).index = k at *
  generalize (s.pool.intern (line part).text).pool = q at *
  have hreplaced : ∀ (m : Phrase) d, line m = line l₁ ++ (line part ++ line l₂) → Sentence letters (q.Means (.flat letters)) m d →
      ∃ m' : Phrase, m'.line = line (l₁ ++ .ref k :: l₂) ∧ Sentence letters (q.Means (.flat letters)) m' d ∧
        ∀ tried, Cleared tried m → Cleared tried m' := fun m d hm hmreads =>
    hmreads.exists_replaced hletters hr (hm ▸ hwithin) (hready m hm) hm hotext (hm ▸ hlocate) hpartNe hne fun m' a hm' ha =>
      hholding.means_of_says hR.mono ⟨m', hm', ha⟩
  obtain ⟨l', hl', hreads', hcleared'⟩ := hreplaced _ d (by simp) (hreads.mono hlater.means)
  have hwithin' : (line (l₁ ++ .ref k :: l₂)).Within q.cells.length := by
    have hold := hl.within.mono hlater.grows.length_le
    rw [line_append, line_cons]
    exact (hold.subset (by simp)).append ((Line.Within.ref (lt_of_holds hholding.writes.held)).append (hold.subset (by simp)))
  have hpos' : 0 < (line (l₁ ++ .ref k :: l₂)).charCount := hl' ▸ hreads'.charCount_pos
  have hkept : ∀ d, q.Says (.flat letters) (line l₁ ++ (line part ++ line l₂)) d → q.Says (.flat letters) (line (l₁ ++ .ref k :: l₂)) d := by
    rintro d ⟨m, hm, hmreads⟩
    obtain ⟨m', hm', hmreads', -⟩ := hreplaced m d hm hmreads
    exact ⟨m', hm', hmreads'⟩
  have hcount : q.extent + (line (l₁ ++ .ref k :: l₂)).charCount ≤
      s.pool.extent + (line l₁ ++ (line part ++ line l₂)).charCount := by
    simp only [line_append, line_cons, Line.charCount_append, Item.line, Line.charCount_ref, Line.charCount_nil]
    omega
  have hrepresents := h.represents.setText hR.mono hlater hl hwithin' hkept (by simp only [Line.charCount_append]; omega) hpos' hcount
  have hne' : line (l₁ ++ .ref k :: l₂) ≠ [] := by simp [Item.line]
  refine ⟨hrepresents, fun hi' => ⟨l', d, ?_, ?_, hcleared' tried hcleared⟩⟩
  · have htarget := (hlater.sound.replaced (hlater.writes hl).held hwithin' hne').target
    rw [resolve_of_holds hi'] at htarget
    rwa [hl']
  · exact hreads'.mono fun x d hx => hx.rewrite hR.mono hlater hl hwithin' hne' hkept

/-- A rule can be exhausted. -/
theorem Divided.exists_exhaust (turns : Nat) (h : Divided letters e n i tried s.pool) :
    ∃ s', exhaust i r.1 r.2 turns s = .ok s' ∧ Divided letters e n i tried s'.pool := by
  induction turns generalizing s with
  | zero => exact ⟨s, rfl, h⟩
  | succ turns ih =>
    have hwritten := h.represents.written (Reading.proper_flat letters).mono
    have hfound : s.pool.holds i = true → ∃ found, r.2.locate r.1 (s.pool.text i) = .ok found := by
      intro hi
      obtain ⟨l, d, hl, hreads, hcleared⟩ := h.cleared hi
      rw [hl.text]
      rcases hreads.locate_cases hletters hr (hl.within.mono (h.represents.length_le.trans hbound))
        (fun h5 => hcleared.ready hletters hreads.fits (htried h5) rfl) with ⟨hnone, -⟩ | ⟨_, _, _, _, -, -, -, -, hsome⟩
      · exact ⟨_, hnone⟩
      · exact ⟨_, hsome⟩
    rcases hwritten.rests_or_extracts (RuleSet.mem_of_numbered hr) hfound with hrests | ⟨found, hi, hlocate, hpart, -⟩
    · exact ⟨s, exhaust_of_rests hrests, h⟩
    · rw [exhaust_of_part hi hlocate hpart]
      exact ih (h.extract hletters hbound hr htried hi hlocate hpart)

/-- Once a rule rests, its commands are not parts of something longer. -/
theorem Divided.rested (h : Divided letters e n i tried p)
    (hrests : p.holds i = true → r.2.rests r.1 (p.text i) = true) : Divided letters e n i (tried ++ [r]) p := by
  refine ⟨h.represents, fun hi => ?_⟩
  obtain ⟨l, d, hl, hreads, hcleared⟩ := h.cleared hi
  refine ⟨l, d, hl, hreads, fun c hc ⟨r', hr', hrule⟩ => ?_⟩
  rcases List.mem_append.1 hr' with hr' | hr'
  · exact hcleared c hc ⟨r', hr', hrule⟩
  · rw [List.mem_singleton.1 hr'] at hrule
    obtain ⟨l₁, l₂, rfl⟩ := List.append_of_mem hc
    have hwithin := hl.within.mono (h.represents.length_le.trans hbound)
    have hready := fun h5 => hcleared.ready hletters hreads.fits (htried h5) (m := l₁ ++ .call c :: l₂) rfl
    have htaken : IsTaken r.1 [.call c] := hrule ▸ .call c
    obtain ⟨rfl, rfl⟩ := hreads.whole_of_rests hletters hr hwithin hready (hl.text ▸ hrests hi) htaken rfl
    rfl

end

section
variable (hletters : ∀ c ∈ letters, c.isLower = true) (hbound : n ≤ Index.bound)
include hletters hbound

/-- The rules can be tried one after the other. -/
theorem Divided.exists_foldlM {rest : List (Nat × Rule)} (hrest : tried ++ rest = RuleSet.standard.numbered)
    (h : Divided letters e n i tried s.pool) :
    ∃ s', rest.foldlM (fun s (id, r) => exhaust i id r ((s.pool.text i).length + 1) s) s = .ok s' ∧
      s'.pool.Represents (.flat letters) e n := by
  induction rest generalizing tried s with
  | nil => exact ⟨s, rfl, h.represents⟩
  | cons r rest ih =>
    have hr : r ∈ RuleSet.standard.numbered := hrest ▸ by simp
    have htried : r.1 = 5 → ∀ c : Call, ∃ e ∈ tried, c.rule = e.1 := by
      intro h5 c
      obtain ⟨e, he, hc⟩ := (IsTaken.call c).exists_rule
      have hsorted : (tried ++ r :: rest).Pairwise fun e e' => e.1 < e'.1 := by
        rw [hrest, ← List.pairwise_map]
        decide
      have hlt := c.rule_lt
      rw [← hrest, List.mem_append, List.mem_cons] at he
      rcases he with he | rfl | he
      · exact ⟨e, he, hc.symm⟩
      · omega
      · have := List.rel_of_pairwise_cons (List.pairwise_append.1 hsorted).2.1 he
        omega
    obtain ⟨s₁, hs₁, hdivided⟩ := h.exists_exhaust hletters hbound hr htried ((s.pool.text i).length + 1)
    have hturns := Nat.lt_succ_of_le (Token.plainCount_le_length (s.pool.text i))
    have hwritten := h.represents.written (Reading.proper_flat letters).mono
    have hexhausts := hwritten.exhausts (RuleSet.mem_of_numbered hr) hturns hs₁
    obtain ⟨s', hs', hrepresents⟩ := ih (by simp [hrest]) (hdivided.rested hletters hbound hr htried hexhausts.rests)
    refine ⟨s', ?_, hrepresents⟩
    rw [List.foldlM_cons]
    simp only [hs₁]
    exact hs'

/-- The loops of all rules succeed, and the pool represents the same expression. -/
theorem Represents.exists_reduceIndex (h : p.Represents (.flat letters) e n) (i : Nat) :
    ∃ s, reduceIndex RuleSet.standard.numbered p i = .ok s ∧ s.pool.Represents (.flat letters) e n := by
  have hall : [] ++ RuleSet.standard.numbered = RuleSet.standard.numbered := rfl
  refine Divided.exists_foldlM hletters hbound hall ⟨h, fun hi => ?_⟩
  obtain ⟨l, d, hl, hreads⟩ := h.exists_phrase (Reading.proper_flat letters).mono hi
  exact ⟨l, d, hl, hreads, fun c hc ⟨r, hr, _⟩ => absurd hr List.not_mem_nil⟩

/-- The queue succeeds, and the pool represents the same expression. -/
theorem Represents.exists_reduceQueue (turns : Nat) (queue : List Nat) (h : p.Represents (.flat letters) e n) :
    ∃ q, reduceQueue RuleSet.standard.numbered turns p queue = .ok q ∧ q.Represents (.flat letters) e n := by
  induction turns generalizing p queue with
  | zero => exact ⟨p, rfl, h⟩
  | succ turns ih =>
    cases queue with
    | nil => exact ⟨p, rfl, h⟩
    | cons i queue =>
      obtain ⟨s, hs, hrepresents⟩ := h.exists_reduceIndex hletters hbound i
      obtain ⟨q, hq, hq'⟩ := ih (s.waiting i queue) hrepresents
      refine ⟨q, ?_, hq'⟩
      rw [reduceQueue_cons, hs]
      exact hq

/-- The reduction of sentences does not fail and leaves nodes. -/
theorem Represents.exists_reduce (h : p.Represents (.flat letters) e n) :
    ∃ q, reduce RuleSet.standard p = .ok q ∧ q.Represents (.node letters) e n := by
  have hR := (Reading.proper_flat letters).mono
  obtain ⟨q, hq, hrepresents⟩ := h.exists_reduceQueue hletters hbound p.reductionBound p.holders
  refine ⟨q, hq, hrepresents.read hR fun x l d hl hreads => ?_⟩
  refine hreads.node_of_rests hletters (hl.within.mono (hrepresents.length_le.trans hbound)) fun r hr => ?_
  exact hl.text ▸ ((h.written hR).reduce hq).rests x hl.held (by simp) r hr

end

end

end Pool

end FormulaDag
