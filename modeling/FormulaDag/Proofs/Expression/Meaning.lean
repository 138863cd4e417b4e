import FormulaDag.Proofs.Expression.Phrase
import FormulaDag.Proofs.Pool.Canonical
import FormulaDag.Proofs.Pool.Slack
import FormulaDag.Proofs.Pool.Unfolding

/-!
# Cells that stand for expressions

A cell stands for an expression when its line is a phrase that does so, its indices standing for parts of the expression. Expressions are
finite, so no order of the cells is needed: whatever is consistent cell by cell is true. Putting a text into a pool and replacing a text by
one that reads the same keep what all cells stand for.
-/

namespace FormulaDag

/-- How the phrase of a cell is read, given what indices stand for. -/
abbrev Reading := (Nat → Expression → Prop) → Phrase → Expression → Prop

/-- A reading that keeps what it reads when indices come to stand for more. -/
def Reading.Monotone (R : Reading) : Prop :=
  ∀ ⦃M M' : Nat → Expression → Prop⦄, (∀ k e, M k e → M' k e) → ∀ ⦃l e⦄, R M l e → R M' l e

/-- A reading that only sees the indices of a phrase. -/
def Reading.Local (R : Reading) : Prop :=
  ∀ ⦃M : Nat → Expression → Prop⦄ ⦃S : Nat → Prop⦄ ⦃l e⦄, (∀ k, .ref k ∈ l.line → S k) → R M l e → R (fun k e => S k ∧ M k e) l e

/-- A reading of phrases with characters of their own, which does not tell indices apart that stand for the same. -/
structure Reading.Proper (R : Reading) : Prop where
  mono : R.Monotone
  pos : ∀ {M : Nat → Expression → Prop} {l : Phrase} {e : Expression}, R M l e → 0 < l.line.charCount
  relabel : ∀ {M : Nat → Expression → Prop} {f : Nat → Nat} {l : Phrase} {e : Expression}, (∀ k e, M k e → M (f k) e) → R M l e →
    R M (l.map (Item.relabel f)) e

/-- The reading of texts that are being taken apart. -/
def Reading.whole (letters : List Char) : Reading := fun M => Phrase.Reads letters M .whole

/-- More meanings of indices let more be read as a whole. -/
theorem Reading.monotone_whole (letters : List Char) : (whole letters).Monotone := fun _ _ hsub _ _ h => h.mono hsub

/-- What is read as a whole depends on the meanings of its own references. -/
theorem Reading.local_whole (letters : List Char) : (whole letters).Local := fun _ _ _ _ hS h => h.restrict hS

theorem Reading.proper_whole (letters : List Char) : (whole letters).Proper where
  mono := monotone_whole letters
  pos h := h.charCount_pos
  relabel hf h := h.relabel hf

namespace Pool

/-- What indices stand for agrees with the phrases of their cells. -/
def Conveys (R : Reading) (p : Pool) (M : Nat → Expression → Prop) : Prop :=
  ∀ x e, M x e → x < p.cells.length ∧ ∃ l : Phrase, p.Writes (p.resolve x) l.line ∧ R M l e

/-- What an index stands for. -/
def Means (R : Reading) (p : Pool) (x : Nat) (e : Expression) : Prop := ∃ M, p.Conveys R M ∧ M x e

/-- A line that stands for an expression. -/
def Says (R : Reading) (p : Pool) (s : Line) (e : Expression) : Prop := ∃ l : Phrase, l.line = s ∧ R (p.Means R) l e

section
variable {R : Reading} {p q : Pool} {x i : Nat} {e : Expression} {s s' : Line}

/-- Meanings that a pool conveys are meanings in it. -/
theorem Means.of_conveys {M : Nat → Expression → Prop} (h : p.Conveys R M) (hx : M x e) : p.Means R x e := ⟨M, h, hx⟩

section
variable (hR : R.Monotone)
include hR

/-- A pool conveys the meanings in it. -/
theorem conveys_means : p.Conveys R (p.Means R) := by
  rintro x e ⟨M, hM, hx⟩
  obtain ⟨hlt, l, hl, hreads⟩ := hM x e hx
  exact ⟨hlt, l, hl, hR (fun _ _ => Means.of_conveys hM) hreads⟩

/-- Only indices of the pool have a meaning. -/
theorem Means.lt (h : p.Means R x e) : x < p.cells.length := (conveys_means hR x e h).1

/-- An index with a meaning writes a line that says it. -/
theorem Means.exists_writes (h : p.Means R x e) : ∃ s, p.Writes (p.resolve x) s ∧ p.Says R s e := by
  obtain ⟨-, l, hl, hreads⟩ := conveys_means hR x e h
  exact ⟨l.line, hl, l, rfl, hreads⟩

/-- An index stands for what the line of its cell says. -/
theorem Says.means (h : p.Says R s e) (hx : x < p.cells.length) (hs : p.Writes (p.resolve x) s) : p.Means R x e := by
  obtain ⟨l, rfl, hreads⟩ := h
  refine ⟨fun y d => p.Means R y d ∨ y = x ∧ d = e, ?_, .inr ⟨rfl, rfl⟩⟩
  have hsub : ∀ k d, p.Means R k d → p.Means R k d ∨ k = x ∧ d = e := fun _ _ => .inl
  rintro y d (hy | ⟨rfl, rfl⟩)
  · obtain ⟨hlt, l', hl', hreads'⟩ := conveys_means hR y d hy
    exact ⟨hlt, l', hl', hR hsub hreads'⟩
  · exact ⟨hx, l, hs, hR hsub hreads⟩

/-- A line says what it said when no index loses a meaning. -/
theorem Says.mono (hsub : ∀ x e, p.Means R x e → q.Means R x e) (h : p.Says R s e) : q.Says R s e := by
  obtain ⟨l, hl, hreads⟩ := h
  exact ⟨l, hl, hR hsub hreads⟩

/-- Pointers stand for what they point to. -/
theorem Means.resolve (h : p.Means R x e) : p.Means R (p.resolve x) e := by
  obtain ⟨s, hs, hsaid⟩ := h.exists_writes hR
  exact hsaid.means hR (lt_of_holds hs.held) ((resolve_of_holds hs.held).symm ▸ hs)

/-- Replacing a text by one that says the same keeps what all indices stand for. -/
theorem Means.setText (hsound : p.Sound) (hi : p.holds i = true) (hs' : s'.Within p.cells.length) (hne : s' ≠ [])
    (hkept : ∀ s e, p.Writes i s → p.Says R s e → p.Says R s' e) (h : p.Means R x e) : (p.setText i s'.text).Means R x e := by
  have hreplaced := hsound.replaced hi hs' hne
  obtain ⟨j, hrewritten⟩ := hsound.exists_rewritten hi (Line.text_ne_nil hne)
  refine .of_conveys (M := p.Means R) (fun y d hy => ?_) h
  obtain ⟨hlt, l, hl, hreads⟩ := conveys_means hR y d hy
  refine ⟨hreplaced.length.symm ▸ hlt, ?_⟩
  by_cases hyi : p.resolve y = i
  · obtain ⟨l', rfl, hreads'⟩ := hkept l.line d (hyi ▸ hl) ⟨l, rfl, hreads⟩
    refine ⟨l', ?_, hreads'⟩
    rw [hrewritten.resolve y hlt, if_pos hyi, ← hrewritten.resolve_self]
    exact hreplaced.target
  · refine ⟨l, ?_, hreads⟩
    rw [hrewritten.resolve y hlt, if_neg hyi]
    exact hreplaced.others _ _ hyi hl

end

/-- Putting a line into a pool keeps what all indices stand for, and its index stands for what it says. -/
theorem Holding.means (hR : R.Monotone) {k : Nat} (h : Holding p q k s) (hx : p.Means R x e) : q.Means R x e := by
  refine .of_conveys (M := p.Means R) (fun y d hy => ?_) hx
  obtain ⟨hlt, l, hl, hreads⟩ := conveys_means hR y d hy
  exact ⟨Nat.lt_of_lt_of_le hlt h.grows.length_le, l, h.resolve y hlt ▸ h.kept _ _ hl, hreads⟩

/-- An index that holds a line means what the line says. -/
theorem Holding.means_of_says (hR : R.Monotone) {k : Nat} (h : Holding p q k s) (hsaid : q.Says R s e) : q.Means R k e :=
  hsaid.means hR (lt_of_holds h.writes.held) ((resolve_of_holds h.writes.held).symm ▸ h.writes)

/-- An index that takes over a line means what the line said before. -/
theorem Holding.means_index (hR : R.Monotone) {k : Nat} (h : Holding p q k s) (hsaid : p.Says R s e) : q.Means R k e :=
  h.means_of_says hR (hsaid.mono hR fun _ _ => h.means hR)

end

/-- A pool to which lines have been added that stand for expressions. -/
structure Later (R : Reading) (p q : Pool) : Prop where
  sound : q.Sound
  grows : p.cells <+: q.cells
  resolve : ∀ x, x < p.cells.length → q.resolve x = p.resolve x
  means : ∀ x e, p.Means R x e → q.Means R x e
  meant : ∀ x, q.holds x = true → p.holds x = true ∨ ∃ e, q.Means R x e

section
variable {R : Reading} {p q r : Pool}

/-- A pool is later than itself. -/
theorem Later.refl (h : p.Sound) : Later R p p := ⟨h, List.prefix_rfl, fun _ _ => rfl, fun _ _ hx => hx, fun _ hx => .inl hx⟩

/-- A pool later than a later one is later. -/
theorem Later.trans (h : Later R p q) (h' : Later R q r) : Later R p r where
  sound := h'.sound
  grows := h.grows.trans h'.grows
  resolve x hx := (h'.resolve x (Nat.lt_of_lt_of_le hx h.grows.length_le)).trans (h.resolve x hx)
  means x e hx := h'.means x e (h.means x e hx)
  meant x hx := by
    rcases h'.meant x hx with hq | hr
    · exact (h.meant x hq).imp_right fun ⟨e, he⟩ => ⟨e, h'.means x e he⟩
    · exact .inr hr

/-- Cells keep their texts. -/
theorem Later.writes (h : Later R p q) {x : Nat} {s : Line} (hs : p.Writes x s) : q.Writes x s := by
  have hcell := holding_text hs.held
  have hcell' : q.cells[x]? = some (.holding (p.text x)) := by
    obtain ⟨more, heq⟩ := h.grows
    rw [← heq, List.getElem?_append_left (lt_of_holds hs.held), hcell]
  exact ⟨holds_iff.2 ⟨_, hcell'⟩, hs.within.mono h.grows.length_le, hs.nonempty, (text_of_holding hcell').trans hs.text⟩

/-- A pool with one more line is later. -/
theorem Holding.later (hR : R.Monotone) {k : Nat} {s : Line} (h : Holding p q k s) {e : Expression} (hsaid : p.Says R s e) :
    Later R p q where
  sound := h.sound
  grows := h.grows
  resolve := h.resolve
  means _ _ hx := h.means hR hx
  meant x hx := by
    rcases (h.held x).1 hx with hx | rfl
    · exact .inl hx
    · exact .inr ⟨e, h.means_index hR hsaid⟩

end

/-- After lines have been added, replacing a line by one that says the same keeps what all indices stand for. -/
theorem Means.rewrite {R : Reading} {p q : Pool} {i x : Nat} {s s' : Line} {e : Expression} (hR : R.Monotone) (h : q.Means R x e)
    (hlater : Later R p q) (hs : p.Writes i s) (hs' : s'.Within q.cells.length) (hne : s' ≠ [])
    (hkept : ∀ d, q.Says R s d → q.Says R s' d) : (q.setText i s'.text).Means R x e :=
  h.setText hR hlater.sound (hlater.writes hs).held hs' hne fun _ d hu hsaid => hkept d ((hlater.writes hs).unique hu ▸ hsaid)

/-- Lines that are added change nothing about the cells that were there. -/
theorem Later.means_of {R : Reading} {p q : Pool} (hR : R.Monotone) (hlocal : R.Local) (hsound : p.Sound) (h : Later R p q)
    (hwritten : ∀ x, p.holds x = true → ∃ s, p.Writes x s) {x : Nat} (hx : x < p.cells.length) {e : Expression} (hm : q.Means R x e) :
    p.Means R x e := by
  refine .of_conveys (M := fun y d => y < p.cells.length ∧ q.Means R y d) ?_ ⟨hx, hm⟩
  rintro y d ⟨hy, hd⟩
  obtain ⟨-, l, hl, hreads⟩ := conveys_means hR y d hd
  obtain ⟨s, hs⟩ := hwritten _ (hsound.holds_resolve hy)
  rw [h.resolve y hy] at hl
  have heq : s = l.line := (h.writes hs).unique hl
  rw [heq] at hs
  exact ⟨hy, l, hs, hlocal hs.within.refs hreads⟩

/-- A pool whose root stands for an expression, in which all cells stand for something, and which has a bounded extent. -/
structure Represents (R : Reading) (e : Expression) (n : Nat) (p : Pool) : Prop where
  sound : p.Sound
  root : p.Means R Index.root e
  meant : ∀ x, p.holds x = true → ∃ d, p.Means R x d
  extent : p.extent ≤ n

section
variable {R : Reading} {p q : Pool} {e : Expression} {n i : Nat} {s s' : Line}

/-- Every cell is written as a phrase. -/
theorem Represents.exists_phrase (hR : R.Monotone) (h : p.Represents R e n) (hi : p.holds i = true) :
    ∃ (l : Phrase) (d : Expression), p.Writes i l.line ∧ R (p.Means R) l d := by
  obtain ⟨d, hd⟩ := h.meant i hi
  obtain ⟨-, l, hl, hreads⟩ := conveys_means hR i d hd
  exact ⟨l, d, resolve_of_holds hi ▸ hl, hreads⟩

/-- A later pool of no greater extent represents the same expression. -/
theorem Represents.later (h : p.Represents R e n) (hlater : Later R p q) (hextent : q.extent ≤ p.extent) : q.Represents R e n where
  sound := hlater.sound
  root := hlater.means _ _ h.root
  meant x hx := by
    rcases hlater.meant x hx with hx | hx
    · exact (h.meant x hx).imp fun d hd => hlater.means _ _ hd
    · exact hx
  extent := hextent.trans h.extent

/-- After lines have been added, the line of a cell is replaced by a shorter one that says the same. -/
theorem Represents.setText (hR : R.Monotone) (h : p.Represents R e n) (hlater : Later R p q) (hs : p.Writes i s)
    (hs' : s'.Within q.cells.length) (hkept : ∀ d, q.Says R s d → q.Says R s' d) (hpos : 0 < s.charCount) (hpos' : 0 < s'.charCount)
    (hextent : q.extent + s'.charCount ≤ p.extent + s.charCount) : (q.setText i s'.text).Represents R e n := by
  have hne : s' ≠ [] := by
    rintro rfl
    simp at hpos'
  have hsq := hlater.writes hs
  obtain ⟨j, hrewritten⟩ := hlater.sound.exists_rewritten hsq.held (Line.text_ne_nil hne)
  have hmeans : ∀ x d, q.Means R x d → (q.setText i s'.text).Means R x d := fun x d hx => hx.rewrite hR hlater hs hs' hne hkept
  refine ⟨hrewritten.sound, hmeans _ _ (hlater.means _ _ h.root), fun x hx => ?_, ?_⟩
  · rcases hlater.meant x (hrewritten.held_before hx) with hx | ⟨d, hd⟩
    · obtain ⟨d, hd⟩ := h.meant x hx
      exact ⟨d, hmeans _ _ (hlater.means _ _ hd)⟩
    · exact ⟨d, hmeans _ _ hd⟩
  · have htext := extent_setText_le hlater.sound hsq.held (Line.text_ne_nil hne)
    rw [hsq.text, hsq.within.plainCount_eq, hs'.plainCount_eq] at htext
    have := h.extent
    omega

/-- Replacing the indices of a cell by what they point to. -/
theorem Represents.tidy (hR : R.Proper) (h : p.Represents R e n) (hbound : n ≤ Index.bound) (i : Nat) :
    (p.tidy i).Represents R e n := by
  unfold Pool.tidy
  split
  · rename_i hcond
    rw [Bool.and_eq_true] at hcond
    obtain ⟨l, d, hl, hreads⟩ := h.exists_phrase hR.mono hcond.1
    have hsmall : p.cells.length ≤ Index.bound := (Nat.le_add_right _ _).trans (h.extent.trans hbound)
    have hwithin : Line.Within p.cells.length (l.line.map (Mark.relabel p.resolve)) :=
      hl.within.map fun k hk => lt_of_holds (h.sound.holds_resolve (hl.within.refs k hk))
    have hcount := Line.charCount_map_relabel p.resolve l.line
    have hpos := hR.pos hreads
    rw [resolved_eq hl.within hsmall hl.text]
    refine h.setText hR.mono (.refl h.sound) hl hwithin ?_ hpos (by rwa [hcount]) (by rw [hcount])
    rintro d ⟨m, hm, hmreads⟩
    exact ⟨_, by rw [Phrase.line_map_relabel, hm], hR.relabel (fun k d hk => hk.resolve hR.mono) hmreads⟩
  · exact h

/-- A sweep keeps the expression that a pool represents. -/
theorem Represents.sweep (hR : R.Proper) (h : p.Represents R e n) (hbound : n ≤ Index.bound) : p.sweep.Represents R e n := by
  rw [Pool.sweep]
  generalize p.holders = l
  induction l generalizing p with
  | nil => exact h
  | cons i l ih => exact ih (h.tidy hR hbound i)

/-- Making a pool canonical keeps what its root stands for. -/
theorem Represents.canonical (hR : R.Proper) {p : Pool} (h : p.Represents R e n) (hbound : n ≤ Index.bound) :
    p.canonical.Represents R e n := by
  induction p using Pool.canonical.induct with
  | case1 p hless ih =>
    rw [Pool.canonical, if_pos hless]
    exact ih (h.sweep hR hbound)
  | case2 p hless =>
    rw [Pool.canonical, if_neg hless]
    exact h.sweep hR hbound

end

end Pool

end FormulaDag
