import FormulaDag.Proofs.Pool.Occurrences

/-!
# What cells unfold to

Following all indices turns a cell into a tree. An unprotected letter of a variable counts as the cell of that variable, whether it has
been bound or not, so binding does not change the tree, and no more does following a pointer. Cells are merged only when they have the
same text, hence the same tree. The order of the variables does not show in the tree.
-/

namespace FormulaDag

/-- A tree of texts: the characters of a text and the trees between them, in order. -/
inductive Tree where
  | node (parts : List (Char ⊕ Tree))

/-- The tree of a variable. -/
def Tree.letter (c : Char) : Tree := node ((Pool.letterText c).map .inl)

theorem Tree.letter_injective {c d : Char} (h : letter c = letter d) : c = d := by
  rw [letter, letter, node.injEq, List.map_inj_right fun _ _ heq => Sum.inl.inj heq, Pool.letterText, Pool.letterText] at h
  split at h
  · rename_i hc
    split at h
    · rename_i hd
      rw [hc, hd]
    · cases h
  · split at h
    · cases h
    · exact List.singleton_inj.1 h

/-- What a mark stands for, given the trees of the indices. -/
def Mark.tree (letters : List Char) (meaning : Nat → Tree) : Mark × Bool → Char ⊕ Tree
  | (char c, isProtected) => if c ∈ letters ∧ isProtected = false then .inr (Tree.letter c) else .inl c
  | (ref k, _) => .inr (meaning k)

namespace Line

/-- The variable that a line is, if it is the letter of one and nothing else. -/
def letter? (letters : List Char) : Line → Option Char
  | [.char c] => if c ∈ letters then some c else none
  | _ => none

/-- The tree of a line, given those of the indices. -/
def tree (names : List Text) (letters : List Char) (meaning : Nat → Tree) (s : Line) : Tree :=
  match letter? letters s with
  | some c => .letter c
  | none => .node ((marked names s).map (Mark.tree letters meaning))

section
variable {names : List Text} {letters : List Char} {meaning meaning' : Nat → Tree} {s : Line} {c : Char}

theorem letter?_eq_some : letter? letters s = some c ↔ s = [.char c] ∧ c ∈ letters := by
  unfold letter?
  split
  · rename_i d
    rw [Option.ite_none_right_eq_some]
    constructor
    · rintro ⟨hd, hdc⟩
      exact Option.some.inj hdc ▸ ⟨rfl, hd⟩
    · rintro ⟨heq, hc⟩
      obtain rfl : d = c := by simpa using heq
      exact ⟨hc, rfl⟩
  · rename_i hne
    simp only [reduceCtorEq, false_iff, not_and]
    rintro rfl
    exact absurd rfl (hne c)

theorem tree_congr (h : ∀ k, .ref k ∈ s → meaning k = meaning' k) : tree names letters meaning s = tree names letters meaning' s := by
  have hmarks : (marked names s).map (Mark.tree letters meaning) = (marked names s).map (Mark.tree letters meaning') := by
    refine List.map_congr_left fun e he => ?_
    obtain ⟨m, isProtected⟩ := e
    cases m with
    | char c => rfl
    | ref k => exact congrArg Sum.inr (h k (List.of_mem_zip he).1)
  rw [tree, tree, hmarks]

/-- Giving the indices of a line other names gives their trees to the new ones. -/
theorem tree_relabel (f : Nat → Nat) (s : Line) :
    tree names letters meaning (s.map (Mark.relabel f)) = tree names letters (fun k => meaning (f k)) s := by
  have hletter : letter? letters (s.map (Mark.relabel f)) = letter? letters s := by
    cases s with
    | nil => rfl
    | cons m s =>
      cases s with
      | nil => cases m <;> rfl
      | cons m' s => cases m <;> rfl
  have hmark : Mark.tree letters meaning ∘ (fun e => (e.1.relabel f, e.2)) = Mark.tree letters fun k => meaning (f k) := by
    funext ⟨m, isProtected⟩
    cases m <;> rfl
  rw [tree, tree, hletter, marked_relabel, List.map_map, hmark]

section
variable (hnames : ∀ name ∈ names, name ≠ [] ∧ ∀ d ∈ name, d.isAlpha = true)
include hnames

/-- Binding a letter to its cell keeps the tree, unless the line is the text of that cell. -/
theorem tree_bind (hlower : c.isLower = true) (hc : c ∈ letters) {i : Nat} (hi : meaning i = .letter c) (hs : s ≠ [.char c]) :
    tree names letters meaning (bind names c i s) = tree names letters meaning s := by
  have hletter : letter? letters (bind names c i s) = letter? letters s := by
    ext d
    rw [letter?_eq_some, letter?_eq_some]
    refine and_congr_left fun _ => ⟨eq_of_bind_eq_char, ?_⟩
    rintro rfl
    refine (bound_bind names c i _).eq_of_not_mem fun hmem => hs ?_
    rw [← Mark.char.inj (List.mem_singleton.1 hmem)]
  have hmarks : (marked names (bind names c i s)).map (Mark.tree letters meaning) = (marked names s).map (Mark.tree letters meaning) := by
    rw [marked_bind hnames hlower, List.map_map]
    refine List.map_congr_left fun e _ => ?_
    obtain ⟨m, isProtected⟩ := e
    rw [Function.comp_apply]
    split
    · rename_i hcond
      simp only [Bool.and_eq_true, decide_eq_true_eq, Bool.not_eq_true'] at hcond
      rw [hcond.1, Mark.tree, Mark.tree, if_pos ⟨hc, hcond.2⟩, hi]
    · rfl
  rw [tree, tree, hletter, hmarks]

/-- After binding a letter no unprotected occurrence of it is left. -/
theorem not_mem_marked_bind (hlower : c.isLower = true) (i : Nat) (s : Line) : (.char c, false) ∉ marked names (bind names c i s) := by
  rw [marked_bind hnames hlower]
  intro hmem
  obtain ⟨e, -, he⟩ := List.mem_map.1 hmem
  obtain ⟨m, isProtected⟩ := e
  simp only [Prod.mk.injEq] at he
  obtain ⟨hm, rfl⟩ := he
  split at hm
  · cases hm
  · rename_i hcond
    simp [hm] at hcond

end

/-- The cell of a variable has the tree of that variable. -/
theorem tree_letterText (hletters : ∀ l ∈ letters, l.isLower = true) (hc : c ∈ letters) :
    tree names letters meaning (ofText (Pool.letterText c)) = .letter c := by
  by_cases he : c = 'e'
  · have heuler : Pool.letterText c = Symbol.eulerNumber := if_pos he
    have hnot : ∀ d ∈ Symbol.eulerNumber, d ∉ letters := by
      intro d hd hmem
      have hlower := hletters d hmem
      rcases Pool.isDigit_of_mem_eulerNumber hd with hdigit | rfl
      · have := Text.not_isAlpha_of_isDigit hdigit
        simp [Char.isAlpha, hlower] at this
      · simp at hlower
    have hletter : letter? letters (ofText Symbol.eulerNumber) = none := by
      rw [Pool.eulerNumber_eq]
      rfl
    have hmarks : ∀ e ∈ marked names (ofText Symbol.eulerNumber), Mark.tree letters meaning e = .inl e.1.shade := by
      rintro ⟨m, isProtected⟩ he
      obtain ⟨d, hd, rfl⟩ := List.mem_map.1 (List.of_mem_zip he).1
      rw [Mark.tree, if_neg fun h => hnot d hd h.1]
      rfl
    have hparts : (marked names (ofText Symbol.eulerNumber)).map (Mark.tree letters meaning) = Symbol.eulerNumber.map .inl :=
      calc (marked names (ofText Symbol.eulerNumber)).map (Mark.tree letters meaning)
          = ((marked names (ofText Symbol.eulerNumber)).map Prod.fst).map fun m => .inl m.shade := by
            rw [List.map_map]
            exact List.map_congr_left hmarks
        _ = Symbol.eulerNumber.map .inl := by
            rw [map_fst_marked, ofText, List.map_map]
            rfl
    rw [heuler, tree, hletter, Tree.letter, heuler, ← hparts]
  · have hletter : letter? letters (ofText [c]) = some c := letter?_eq_some.2 ⟨rfl, hc⟩
    rw [Pool.letterText, if_neg he, tree, hletter]

/-- Only the letter of a variable and the text of its cell have the tree of that variable. -/
theorem eq_of_tree_eq_letter (h : tree names letters meaning s = .letter c) : s = [.char c] ∨ s = ofText (Pool.letterText c) := by
  unfold tree at h
  split at h
  · rename_i d hd
    obtain ⟨rfl, -⟩ := letter?_eq_some.1 hd
    exact .inl (by rw [Tree.letter_injective h])
  · rw [Tree.letter, Tree.node.injEq] at h
    have hmarks : List.Forall₂ (fun e d => Mark.tree letters meaning e = .inl d) (marked names s) (Pool.letterText c) := by
      have hparts : List.Forall₂ Eq ((marked names s).map (Mark.tree letters meaning)) ((Pool.letterText c).map .inl) :=
        List.forall₂_eq_eq_eq ▸ h
      rwa [List.forall₂_map_left_iff, List.forall₂_map_right_iff] at hparts
    have hchars : List.Forall₂ Eq ((marked names s).map Prod.fst) ((Pool.letterText c).map .char) := by
      rw [List.forall₂_map_left_iff, List.forall₂_map_right_iff]
      refine hmarks.imp fun e d hed => ?_
      obtain ⟨m, isProtected⟩ := e
      cases m with
      | char c =>
        rw [Mark.tree] at hed
        split at hed
        · cases hed
        · rw [Sum.inl.inj hed]
      | ref k => cases hed
    rw [List.forall₂_eq_eq_eq, map_fst_marked] at hchars
    exact .inr hchars

end

end Line

namespace Pool

/-- A cell with a text, which is written as a line. -/
structure Writes (p : Pool) (x : Nat) (s : Line) : Prop where
  held : p.holds x = true
  within : s.Within p.cells.length
  nonempty : s ≠ []
  text : p.text x = s.text

/-- A cell that holds a text means the tree of its text, and one that points to another means what that one does. -/
structure Denotes (names : List Text) (letters : List Char) (meaning : Nat → Tree) (p : Pool) : Prop where
  sound : p.Sound
  meant : ∀ x, p.holds x = true → ∃ s, p.Writes x s ∧ meaning x = s.tree names letters meaning
  pointed : ∀ k, k < p.cells.length → meaning (p.resolve k) = meaning k

section
variable {names : List Text} {letters : List Char} {meaning : Nat → Tree} {p : Pool} {x y i : Nat} {s s' : Line} {c : Char}

theorem Writes.unique (h : p.Writes x s) (h' : p.Writes x s') : s = s' :=
  h.within.text_injective h'.within (h.text.symm.trans h'.text)

/-- The line of a cell has the tree of the cell. -/
theorem Denotes.eq_tree (h : p.Denotes names letters meaning) (hs : p.Writes x s) : meaning x = s.tree names letters meaning := by
  obtain ⟨s', hs', hmeaning⟩ := h.meant x hs.held
  exact hs.unique hs' ▸ hmeaning

/-- Replacing the text of a cell by one with the same tree keeps what all cells mean. -/
theorem Denotes.setText (h : p.Denotes names letters meaning) (hs : p.Writes i s) (hs' : s'.Within p.cells.length) (hne : s' ≠ [])
    (htree : s'.tree names letters meaning = s.tree names letters meaning) :
    (p.setText i s'.text).Denotes names letters meaning := by
  obtain ⟨j, hq⟩ := h.sound.exists_rewritten hs.held (Line.text_ne_nil hne)
  generalize p.setText i s'.text = q at hq
  have hmeant : ∀ x, q.holds x = true → ∃ u, q.Writes x u ∧ meaning x = u.tree names letters meaning := by
    intro x hx
    obtain ⟨u, hu, hmeaning⟩ := h.meant x (hq.held_before hx)
    rcases hq.text_cases hx with htext | ⟨-, -, htext⟩
    · refine ⟨s', ⟨hx, hq.length ▸ hs', hne, htext⟩, ?_⟩
      by_cases hxi : x = i
      · rw [hxi, htree]
        exact h.eq_tree hs
      · rw [hq.text_of_ne hxi hu.held, hu.text] at htext
        rw [hmeaning, hu.within.text_injective hs' htext]
    · exact ⟨u, ⟨hx, hq.length ▸ hu.within, hu.nonempty, htext.trans hu.text⟩, hmeaning⟩
  refine ⟨hq.sound, hmeant, fun k hk => ?_⟩
  rw [hq.length] at hk
  rw [hq.resolve k hk, ← h.pointed k hk]
  split
  · rename_i hki
    obtain ⟨u, hu, hmeaning⟩ := hmeant j (holds_iff.2 ⟨_, hq.target⟩)
    have hus : u = s' := hu.within.text_injective hs' (hu.text.symm.trans hq.text_target)
    rw [hmeaning, hus, htree, hki, h.eq_tree hs]
  · rfl

/-- The other cells keep their lines. -/
theorem Rewritten.writes_iff {q : Pool} {j : Nat} {t : Text} (hq : Rewritten p q i j t) (hx : x ≠ i) : q.Writes x s ↔ p.Writes x s := by
  have hcell := hq.others x hx
  have hheld : q.holds x = p.holds x := by rw [holds, holds, hcell]
  constructor
  · intro hs
    have hxp := hheld ▸ hs.held
    exact ⟨hxp, hq.length ▸ hs.within, hs.nonempty, (hq.text_of_ne hx hxp).symm.trans hs.text⟩
  · intro hs
    exact ⟨hheld.trans hs.held, hq.length.symm ▸ hs.within, hs.nonempty, (hq.text_of_ne hx hs.held).trans hs.text⟩

/-- What the cells hold after the text of one was replaced. -/
structure Replaced (p q : Pool) (i : Nat) (s : Line) : Prop where
  length : q.cells.length = p.cells.length
  target : q.Writes (q.resolve i) s
  others : ∀ x u, x ≠ i → p.Writes x u → q.Writes x u
  before : ∀ x u, q.Writes x u → p.holds x = true ∧ (u = s ∨ x ≠ i ∧ p.Writes x u)

theorem Sound.replaced (h : p.Sound) (hi : p.holds i = true) (hs : s.Within p.cells.length) (hne : s ≠ []) :
    Replaced p (p.setText i s.text) i s := by
  obtain ⟨j, hq⟩ := h.exists_rewritten hi (Line.text_ne_nil hne)
  generalize p.setText i s.text = q at hq
  refine ⟨hq.length, ?_, fun x u hxi hu => ?_, fun x u hu => ⟨hq.held_before hu.held, ?_⟩⟩
  · rw [hq.resolve_self]
    exact ⟨holds_iff.2 ⟨_, hq.target⟩, hq.length ▸ hs, hne, hq.text_target⟩
  · exact ⟨hq.holds_iff_of.2 (.inr ⟨hxi, hu.held⟩), hq.length ▸ hu.within, hu.nonempty, (hq.text_of_ne hxi hu.held).trans hu.text⟩
  · rcases hq.text_cases hu.held with htext | ⟨hxi, hx, htext⟩
    · exact .inl (hu.within.text_injective hs (hu.text.symm.trans htext))
    · exact .inr ⟨hxi, hx, hq.length ▸ hu.within, hu.nonempty, htext ▸ hu.text⟩

/-- What a pool is after a line was put into it, be it new or not. -/
structure Holding (p q : Pool) (k : Nat) (s : Line) : Prop where
  sound : q.Sound
  grows : p.cells <+: q.cells
  held : ∀ x, q.holds x = true ↔ p.holds x = true ∨ x = k
  kept : ∀ x u, p.Writes x u → q.Writes x u
  resolve : ∀ x, x < p.cells.length → q.resolve x = p.resolve x
  writes : q.Writes k s
  news : ∀ x, x < q.cells.length → x < p.cells.length ∨ x = k

theorem Sound.holding (hsound : p.Sound) (hs : s.Within p.cells.length) (hne : s ≠ []) :
    Holding p (p.intern s.text).pool (p.intern s.text).index s := by
  rcases intern_cases p s.text with ⟨k, hfound, heq⟩ | ⟨hnew, heq⟩
  · rw [heq]
    have hcell := hsound.found _ _ hfound
    have hheld : p.holds k = true := holds_iff.2 ⟨_, hcell⟩
    refine ⟨hsound, List.prefix_rfl, fun x => ⟨.inl, ?_⟩, fun _ _ hu => hu, fun _ _ => rfl, ⟨hheld, hs, hne, text_of_holding hcell⟩,
      fun _ => .inl⟩
    rintro (hx | rfl)
    · exact hx
    · exact hheld
  · rw [heq]
    refine ⟨hsound.add (Line.text_ne_nil hne) hnew, List.prefix_append _ _, fun x => holds_add, fun x u hu => ?_, fun x hx => hsound.resolve_add hx,
      ⟨holds_add.2 (.inr rfl), ?_, hne, text_of_holding getElem?_add_length⟩, fun x hx => ?_⟩
    · refine ⟨holds_add.2 (.inl hu.held), ?_, hu.nonempty, (hsound.text_add (lt_of_holds hu.held)).trans hu.text⟩
      exact hu.within.mono (by simp)
    · exact hs.mono (by simp)
    · rw [length_cells_add] at hx
      exact Nat.lt_or_eq_of_le (Nat.le_of_lt_succ hx)

/-- A cell for a variable may be added. -/
theorem Denotes.add (h : p.Denotes names letters meaning) (hletters : ∀ l ∈ letters, l.isLower = true) (hc : c ∈ letters)
    (hnew : p.find? (letterText c) = none) :
    (p.add (letterText c)).Denotes names letters (fun x => if x = p.cells.length then .letter c else meaning x) ∧
      ∀ x u, (p.add (letterText c)).Writes x u → u = Line.ofText (letterText c) ∨ p.Writes x u := by
  obtain ⟨hplain, hat, -⟩ := letterText_facts (hletters c hc)
  have hsound := h.sound
  have hold : ∀ k, k < p.cells.length → (if k = p.cells.length then Tree.letter c else meaning k) = meaning k :=
    fun k hk => if_neg (Nat.ne_of_lt hk)
  have hlast : (p.add (letterText c)).text p.cells.length = letterText c := text_of_holding getElem?_add_length
  refine ⟨⟨hsound.add hplain.1 hnew, fun x hx => ?_, fun k hk => ?_⟩, fun x u hu => ?_⟩
  · rcases holds_add.1 hx with hxp | rfl
    · obtain ⟨u, hu, hmeaning⟩ := h.meant x hxp
      refine ⟨u, ⟨hx, ?_, hu.nonempty, (hsound.text_add (lt_of_holds hxp)).trans hu.text⟩, ?_⟩
      · rw [length_cells_add]
        exact hu.within.mono (Nat.le_succ _)
      · rw [hold x (lt_of_holds hxp), hmeaning]
        exact Line.tree_congr fun k hk => (hold k (hu.within.refs k hk)).symm
    · refine ⟨Line.ofText (letterText c), ⟨hx, .ofText hat, by simpa [Line.ofText] using hplain.1, ?_⟩, ?_⟩
      · rw [hlast, Line.text_ofText]
      · rw [if_pos rfl, Line.tree_letterText hletters hc]
  · rw [length_cells_add] at hk
    rcases Nat.lt_or_eq_of_le (Nat.le_of_lt_succ hk) with hk | rfl
    · rw [hsound.resolve_add hk, hold k hk, hold _ (lt_of_holds (hsound.holds_resolve hk)), h.pointed k hk]
    · rw [resolve_of_holds (holds_add.2 (.inr rfl))]
  · rcases holds_add.1 hu.held with hxp | rfl
    · obtain ⟨u', hu', -⟩ := h.meant x hxp
      refine .inr ⟨hxp, ?_, hu.nonempty, (hsound.text_add (lt_of_holds hxp)).symm.trans hu.text⟩
      have heq : u = u' := hu.within.text_injective hu'.within (by rw [← hu.text, ← hu'.text, hsound.text_add (lt_of_holds hxp)])
      exact heq ▸ hu'.within
    · refine .inl (hu.within.text_injective (.ofText (n := 0) hat) ?_)
      rw [← hu.text, hlast, Line.text_ofText]

end

/-- The tree of a cell down to a depth. -/
def unfoldTo (names : List Text) (letters : List Char) (p : Pool) (view : Nat → Line) : Nat → Nat → Tree
  | 0, _ => .node []
  | depth + 1, x => (view (p.resolve x)).tree names letters (unfoldTo names letters p view depth)

/-- Cells that refer to each other without a cycle unfold to trees. -/
theorem Plain.exists_denotes {bound : List Char} {write : Char → Text} {goal : Text} {p : Pool} (h : Plain bound write goal p)
    (names : List Text) (letters : List Char) : ∃ meaning, p.Denotes names letters meaning := by
  obtain ⟨⟨view, _, hlinked, hreads, -⟩, hplain⟩ := h
  obtain ⟨rank, hrank⟩ := hlinked.ranked
  have hsound := hlinked.sound
  -- beyond the rank of a cell the depth does not matter
  have hstable : ∀ depth depth' x, x < p.cells.length → rank (p.resolve x) < depth → rank (p.resolve x) < depth' →
      unfoldTo names letters p view depth x = unfoldTo names letters p view depth' x := by
    intro depth
    induction depth with
    | zero => exact fun _ _ _ hlt => absurd hlt (Nat.not_lt_zero _)
    | succ depth ih =>
      intro depth' x hx hlt hlt'
      cases depth' with
      | zero => exact absurd hlt' (Nat.not_lt_zero _)
      | succ depth' =>
        rw [unfoldTo, unfoldTo]
        refine Line.tree_congr fun k hk => ?_
        have hheld := hsound.holds_resolve hx
        have hbelow := hrank _ hheld k hk
        exact ih depth' k ((hlinked.within _ hheld).refs k hk) (by omega) (by omega)
  refine ⟨fun x => unfoldTo names letters p view (rank (p.resolve x) + 1) x, hsound, fun x hx => ?_, fun k hk => ?_⟩
  · refine ⟨view x, ⟨hx, hlinked.within x hx, ?_, hreads x hx⟩, ?_⟩
    · intro hnil
      have htext := (hplain x hx).1
      rw [hreads x hx, hnil] at htext
      exact htext rfl
    · rw [resolve_of_holds hx, unfoldTo, resolve_of_holds hx]
      refine Line.tree_congr fun k hk => ?_
      exact hstable _ _ k ((hlinked.within x hx).refs k hk) (hrank x hx k hk) (Nat.lt_succ_self _)
  · have hheld := hsound.holds_resolve hk
    simp only [resolve_of_holds hheld]
    rw [unfoldTo, unfoldTo, resolve_of_holds hheld]

end Pool

end FormulaDag
