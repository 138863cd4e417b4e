import FormulaDag.Proofs.Pool.Canonical
import FormulaDag.Proofs.Pool.Unfolding

/-!
# Trees under binding

`Grown` says what binding some of the variables of a pool leads to, whatever their order: the cells unfold to the trees they had, new
cells to those of variables, and no letter that has been bound is left. It is kept by each binding and by making the pool canonical, and
in the end it determines the pool up to the numbers of its cells.
-/

namespace FormulaDag

/-- A line in which a letter has been bound: it is the text of the cell of that letter or has no unprotected occurrence of it. -/
def Line.Freed (names : List Text) (c : Char) (s : Line) : Prop :=
  s = [.char c] ∧ c ≠ 'e' ∨ s ≠ [.char c] ∧ (.char c, false) ∉ marked names s

namespace Line.Freed
variable {names : List Text} {c d : Char} {s : Line}

/-- A line without a letter is freed of it. -/
theorem of_not_mem (h : .char c ∉ s) : Freed names c s :=
  .inr ⟨fun heq => h (by simp [heq]), fun hmem => h (List.of_mem_zip hmem).1⟩

/-- A relabelled line is freed of the same letters. -/
theorem relabel (h : Freed names c s) (f : Nat → Nat) : Freed names c (s.map (Mark.relabel f)) := by
  rcases h with ⟨rfl, hc⟩ | ⟨hs, hmem⟩
  · exact .inl ⟨rfl, hc⟩
  · refine .inr ⟨fun heq => hs ?_, fun hmarked => hmem ?_⟩
    · obtain ⟨m, rfl, hm⟩ := List.map_eq_singleton_iff.1 heq
      cases m with
      | char d => rw [← hm, Mark.relabel]
      | ref k => cases hm
    · rw [marked_relabel] at hmarked
      obtain ⟨⟨m, isProtected⟩, he, heq⟩ := List.mem_map.1 hmarked
      obtain ⟨hm, rfl⟩ := Prod.mk.inj heq
      cases m with
      | char d => rwa [← hm]
      | ref k => cases hm

/-- The text of the cell of one variable holds no other. -/
theorem letterText (hd : d.isLower = true) (hc : c.isLower = true) : Freed names c (ofText (Pool.letterText d)) := by
  by_cases hmem : c ∈ Pool.letterText d
  · obtain rfl := (Pool.letterText_facts hd).2.2 c hmem hc
    by_cases he : c = 'e'
    · subst he
      rcases Pool.isDigit_of_mem_eulerNumber hmem with hdigit | hdot
      · simp at hdigit
      · simp at hdot
    · exact .inl ⟨by rw [Pool.letterText, if_neg he]; rfl, he⟩
  · exact of_not_mem (by simpa [ofText] using hmem)

section
variable (hnames : ∀ name ∈ names, name ≠ [] ∧ ∀ d ∈ name, d.isAlpha = true)
include hnames

/-- A letter that has been bound stays so when another one is. -/
theorem bind (h : Freed names d s) (hlower : c.isLower = true) (hs : s ≠ [.char c]) (i : Nat) : Freed names d (bind names c i s) := by
  rcases h with ⟨rfl, hd⟩ | ⟨hsd, hmem⟩
  · rw [(bound_bind names c i _).eq_of_not_mem fun hmem => hs (by rw [← Mark.char.inj (List.mem_singleton.1 hmem)])]
    exact .inl ⟨rfl, hd⟩
  · refine .inr ⟨fun heq => hsd (eq_of_bind_eq_char heq), fun hmarked => hmem ?_⟩
    rw [marked_bind hnames hlower] at hmarked
    obtain ⟨⟨m, isProtected⟩, he, heq⟩ := List.mem_map.1 hmarked
    obtain ⟨hm, rfl⟩ := Prod.mk.inj heq
    split at hm
    · cases hm
    · rwa [← hm]

/-- Binding a letter frees a line of it. -/
theorem bind_self (hlower : c.isLower = true) (hs : s ≠ [.char c]) (i : Nat) : Freed names c (Line.bind names c i s) :=
  .inr ⟨fun heq => hs (eq_of_bind_eq_char heq), not_mem_marked_bind hnames hlower i s⟩

end

end Line.Freed

/-- The characters and the trees of a text, in order. -/
abbrev Parts := List (Char ⊕ Tree)

/-- What a mark stands for when no letter is to be bound any more. -/
def Mark.part (meaning : Nat → Tree) : Mark → Char ⊕ Tree
  | char c => .inl c
  | ref k => .inr (meaning k)

/-- Parts only depend on what the indices of a line stand for. -/
theorem Line.Within.map_part {n : Nat} {s : Line} {val val' : Nat → Tree} (h : s.Within n) (hval : ∀ k, k < n → val' k = val k) :
    s.map (Mark.part val') = s.map (Mark.part val) := by
  refine List.map_congr_left fun m hm => ?_
  cases m with
  | char c => rfl
  | ref k => exact congrArg Sum.inr (hval k (h.refs k hm))

/-- Lines for the same parts are related mark by mark when their characters and the references to the same trees are. -/
theorem Line.forall₂_of_parts {meaning meaning' : Nat → Tree} {R : Mark → Mark → Prop} {s s' : Line}
    (h : s.map (Mark.part meaning) = s'.map (Mark.part meaning')) (hchar : ∀ c, R (.char c) (.char c))
    (href : ∀ k k', .ref k ∈ s → .ref k' ∈ s' → meaning k = meaning' k' → R (.ref k) (.ref k')) : List.Forall₂ R s s' := by
  have hparts : List.Forall₂ (fun m m' => Mark.part meaning m = Mark.part meaning' m') s s' := by
    have hmap : List.Forall₂ Eq (s.map (Mark.part meaning)) (s'.map (Mark.part meaning')) := List.forall₂_eq_eq_eq ▸ h
    rwa [List.forall₂_map_left_iff, List.forall₂_map_right_iff] at hmap
  rw [List.forall₂_iff_zip] at hparts ⊢
  refine ⟨hparts.1, fun {m m'} hm => ?_⟩
  have hpart := hparts.2 hm
  obtain ⟨hmem, hmem'⟩ := List.of_mem_zip hm
  cases m with
  | char c =>
    cases m' with
    | char c' => exact Sum.inl.inj hpart ▸ hchar c
    | ref k' => cases hpart
  | ref k =>
    cases m' with
    | char c' => cases hpart
    | ref k' => exact href k k' hmem hmem' (Sum.inr.inj hpart)

/-- The tree of a line without letters to be bound is made of its marks. -/
theorem Line.tree_of_freed {names : List Text} {letters : List Char} {meaning : Nat → Tree} {s : Line}
    (h : ∀ c ∈ letters, Freed names c s) : s.tree names letters meaning = .node (s.map (Mark.part meaning)) := by
  cases hletter : letter? letters s with
  | some c =>
    obtain ⟨rfl, hc⟩ := letter?_eq_some.1 hletter
    obtain ⟨-, he⟩ := (h c hc).resolve_right fun hne => hne.1 rfl
    rw [tree, hletter]
    simp only
    rw [Tree.letter, Pool.letterText, if_neg he]
    rfl
  | none =>
    have hmarks : ∀ e ∈ marked names s, Mark.tree letters meaning e = e.1.part meaning := by
      rintro ⟨m, isProtected⟩ he
      cases m with
      | ref k => rfl
      | char c =>
        refine if_neg fun hcond => ?_
        obtain ⟨hc, hflag⟩ := hcond
        rcases h c hc with ⟨hs, -⟩ | ⟨-, hnot⟩
        · rw [letter?_eq_some.2 ⟨hs, hc⟩] at hletter
          cases hletter
        · exact hnot (hflag ▸ he)
    have hparts : (marked names s).map (Mark.tree letters meaning) = s.map (Mark.part meaning) :=
      calc (marked names s).map (Mark.tree letters meaning)
          = (marked names s).map (Mark.part meaning ∘ Prod.fst) := List.map_congr_left hmarks
        _ = ((marked names s).map Prod.fst).map (Mark.part meaning) := List.map_map.symm
        _ = s.map (Mark.part meaning) := by rw [map_fst_marked]
    rw [tree, hletter, ← hparts]

namespace Pool

open scoped Classical in
/-- A pool that has grown out of one with `n` cells and the given trees: the known variables have been given cells, where there were
none, and those done have been bound in all texts. -/
structure Grown (names : List Text) (letters : List Char) (n : Nat) (base : Nat → Tree) (known done : List Char) (meaning : Nat → Tree)
    (p : Pool) : Prop where
  denotes : p.Denotes names letters meaning
  size : p.cells.length = n + known.countP fun c => ∀ x, x < n → base x ≠ .letter c
  kept : ∀ x, x < n → meaning x = base x
  fresh : ∀ x, n ≤ x → x < p.cells.length → ∃ c ∈ known, meaning x = .letter c
  cells : ∀ c ∈ known, ∃ x, x < p.cells.length ∧ meaning x = .letter c
  freed : ∀ c ∈ done, ∀ x s, p.Writes x s → s.Freed names c

/-- A pool in which a letter is being bound to a cell. -/
structure BindsTo (names : List Text) (letters : List Char) (n : Nat) (base : Nat → Tree) (known done : List Char)
    (meaning : Nat → Tree) (c : Char) (j : Nat) (p : Pool) : Prop where
  grown : p.Grown names letters n base known done meaning
  cell : p.Writes j (.ofText (letterText c))
  only : ∀ x, p.Writes x [.char c] → x = j

section
variable {names : List Text} {letters : List Char} {n : Nat} {base : Nat → Tree} {known done : List Char} {meaning : Nat → Tree}
  {p : Pool} {i j : Nat} {s s' : Line} {c : Char}

/-- The text of a letter is not empty. -/
theorem ofText_letterText_ne_nil (h : c.isLower = true) : Line.ofText (letterText c) ≠ [] := by
  simpa [Line.ofText] using (letterText_facts h).1.1

/-- The cell of a letter is written as the text of it. -/
theorem writes_letterText (h : c.isLower = true) (hi : p.cells[i]? = some (.holding (letterText c))) :
    p.Writes i (.ofText (letterText c)) :=
  ⟨holds_iff.2 ⟨_, hi⟩, .ofText (letterText_facts h).2.1, ofText_letterText_ne_nil h, by rw [text_of_holding hi, Line.text_ofText]⟩

theorem writes_char (h : c.isLower = true) (hi : p.cells[i]? = some (.holding [c])) : p.Writes i [.char c] := by
  refine ⟨holds_iff.2 ⟨_, hi⟩, ⟨?_, by simp⟩, by simp, text_of_holding hi⟩
  rw [List.mem_singleton]
  rintro heq
  rw [← Mark.char.inj heq] at h
  simp at h

/-- A grown pool has no fewer cells than before. -/
theorem Grown.larger (h : p.Grown names letters n base known done meaning) : n ≤ p.cells.length := by
  rw [h.size]
  exact Nat.le_add_right n _

/-- A grown pool has at most one more cell for each known letter. -/
theorem Grown.length_le (h : p.Grown names letters n base known done meaning) : p.cells.length ≤ n + known.length := by
  rw [h.size]
  exact Nat.add_le_add_left List.countP_le_length n

/-- The order in which variables were bound does not matter. -/
theorem Grown.perm {known' done' : List Char} (h : p.Grown names letters n base known done meaning) (hknown : known.Perm known')
    (hdone : done.Perm done') : p.Grown names letters n base known' done' meaning where
  denotes := h.denotes
  size := h.size.trans (by rw [hknown.countP_eq])
  kept := h.kept
  fresh x hx hlt := by simpa only [← hknown.mem_iff] using h.fresh x hx hlt
  cells c hc := h.cells c (hknown.mem_iff.2 hc)
  freed c hc := h.freed c (hdone.mem_iff.2 hc)

/-- Setting a text with the same tree keeps a pool grown. -/
theorem Grown.setText (h : p.Grown names letters n base known done meaning) (hs : p.Writes i s) (hs' : s'.Within p.cells.length)
    (hne : s' ≠ []) (htree : s'.tree names letters meaning = s.tree names letters meaning) (hfreed : ∀ d ∈ done, s'.Freed names d) :
    (p.setText i s'.text).Grown names letters n base known done meaning := by
  have hreplaced := h.denotes.sound.replaced hs.held hs' hne
  refine ⟨h.denotes.setText hs hs' hne htree, ?_, h.kept, ?_, ?_, fun d hd x u hu => ?_⟩
  · rw [hreplaced.length]
    exact h.size
  · rw [hreplaced.length]
    exact h.fresh
  · rw [hreplaced.length]
    exact h.cells
  · rcases (hreplaced.before x u hu).2 with rfl | ⟨-, hu⟩
    · exact hfreed d hd
    · exact h.freed d hd x u hu

/-- A variable that has a cell becomes known. -/
theorem Grown.know (h : p.Grown names letters n base known done meaning) (hnew : c ∉ known)
    (hcell : ∃ x, x < p.cells.length ∧ meaning x = .letter c) : p.Grown names letters n base (known ++ [c]) done meaning := by
  have hbase : ¬∀ x, x < n → base x ≠ .letter c := by
    intro hlacks
    obtain ⟨x, hx, hmeaning⟩ := hcell
    by_cases hxn : x < n
    · exact hlacks x hxn ((h.kept x hxn).symm.trans hmeaning)
    · obtain ⟨d, hd, hmeaning'⟩ := h.fresh x (Nat.le_of_not_lt hxn) hx
      exact hnew (Tree.letter_injective (hmeaning.symm.trans hmeaning') ▸ hd)
  refine ⟨h.denotes, ?_, h.kept, fun x hx hlt => ?_, fun d hd => ?_, h.freed⟩
  · rw [h.size, List.countP_append, List.countP_singleton, if_neg (by simpa using hbase), Nat.add_zero]
  · obtain ⟨d, hd, hmeaning⟩ := h.fresh x hx hlt
    exact ⟨d, List.mem_append_left _ hd, hmeaning⟩
  · rcases List.mem_append.1 hd with hd | hd
    · exact h.cells d hd
    · exact List.mem_singleton.1 hd ▸ hcell

section
variable (hletters : ∀ l ∈ letters, l.isLower = true) (hdone : done ⊆ letters) (hc : c ∈ letters)
include hletters hdone hc

/-- A new letter grows the pool by one cell. -/
theorem Grown.add (h : p.Grown names letters n base known done meaning) (hnew : p.find? (letterText c) = none)
    (hlacks : ∀ x, x < n → base x ≠ .letter c) : (p.add (letterText c)).Grown names letters n base (known ++ [c]) done
      fun x => if x = p.cells.length then .letter c else meaning x := by
  obtain ⟨hdenotes, hbefore⟩ := h.denotes.add hletters hc hnew
  have hold : ∀ k, k < p.cells.length → (if k = p.cells.length then Tree.letter c else meaning k) = meaning k :=
    fun k hk => if_neg (Nat.ne_of_lt hk)
  refine ⟨hdenotes, ?_, fun x hx => ?_, fun x hx hlt => ?_, fun d hd => ?_, fun d hd x u hu => ?_⟩
  · rw [length_cells_add, h.size, List.countP_append, List.countP_singleton, if_pos (by simpa using hlacks), Nat.add_assoc]
  · rw [hold x (Nat.lt_of_lt_of_le hx h.larger), h.kept x hx]
  · rw [length_cells_add] at hlt
    rcases Nat.lt_or_eq_of_le (Nat.le_of_lt_succ hlt) with hlt | rfl
    · obtain ⟨d, hd, hmeaning⟩ := h.fresh x hx hlt
      exact ⟨d, List.mem_append_left _ hd, (hold x hlt).trans hmeaning⟩
    · exact ⟨c, by simp, if_pos rfl⟩
  · rw [length_cells_add]
    rcases List.mem_append.1 hd with hd | hd
    · obtain ⟨x, hx, hmeaning⟩ := h.cells d hd
      exact ⟨x, Nat.lt_succ_of_lt hx, (hold x hx).trans hmeaning⟩
    · exact ⟨p.cells.length, Nat.lt_succ_self _, List.mem_singleton.1 hd ▸ if_pos rfl⟩
  · rcases hbefore x u hu with rfl | hu
    · exact .letterText (hletters c hc) (hletters d (hdone hd))
    · exact h.freed d hd x u hu

omit hdone in
/-- A cell with the text of a variable has its tree. -/
theorem Grown.meaning_of_letterText (h : p.Grown names letters n base known done meaning) (hi : p.Writes i (.ofText (letterText c))) :
    meaning i = .letter c := (h.denotes.eq_tree hi).trans (Line.tree_letterText hletters hc)

/-- A cell with nothing but the letter is the one of the variable. -/
theorem Grown.letterIndex_of_find? (h : p.Grown names letters n base known done meaning) (hnew : c ∉ known)
    (hfind : p.find? [c] = some i) : BindsTo names letters n base (known ++ [c]) done meaning c (p.letterIndex c).2 (p.letterIndex c).1 := by
  have hlower := hletters c hc
  have hsound := h.denotes.sound
  have hi := hsound.found _ _ hfind
  have hwrites : p.Writes i [.char c] := writes_char hlower hi
  have honly : ∀ x, p.Writes x [.char c] → x = i := fun x hx =>
    hsound.eq_of_text_eq hx.held hwrites.held (hx.text.trans hwrites.text.symm) (by rw [hx.text]; simp [Line.text, Mark.text])
  have htree : (Line.ofText (letterText c)).tree names letters meaning = Line.tree names letters meaning [.char c] := by
    rw [Line.tree_letterText hletters hc, Line.tree, Line.letter?_eq_some.2 ⟨rfl, hc⟩]
  have hgrown := h.know hnew ⟨i, lt_of_holds hwrites.held, (h.denotes.eq_tree hwrites).trans
    (htree.symm.trans (Line.tree_letterText hletters hc))⟩
  rw [Pool.letterIndex, hfind]
  simp only
  split
  · rename_i he
    have heuler : Symbol.eulerNumber = (Line.ofText (letterText c)).text := by rw [Line.text_ofText, letterText, if_pos he]
    have hwithin : Line.Within p.cells.length (.ofText (letterText c)) := .ofText (letterText_facts hlower).2.1
    have hreplaced := hsound.replaced hwrites.held hwithin (ofText_letterText_ne_nil hlower)
    rw [heuler]
    refine ⟨hgrown.setText hwrites hwithin (ofText_letterText_ne_nil hlower) htree
      fun d hd => .letterText hlower (hletters d (hdone hd)), hreplaced.target, fun x hx => ?_⟩
    rcases (hreplaced.before x _ hx).2 with heq | ⟨hxi, hx⟩
    · exact absurd heq (by rw [letterText, if_pos he, eulerNumber_eq]; simp [Line.ofText])
    · exact absurd (honly x hx) hxi
  · rename_i he
    rw [resolve_of_holds hwrites.held]
    exact ⟨hgrown, writes_letterText hlower (by rw [letterText, if_neg he]; exact hi), honly⟩

omit hdone in
/-- Before a variable has got a cell nothing has its tree. -/
theorem Grown.lacks (h : p.Grown names letters n base known done meaning) (hchar : ∀ x, ¬p.Writes x [.char c])
    (hlacking : p.find? (letterText c) = none) {x : Nat} (hx : x < n) : base x ≠ .letter c := by
  intro hbase
  have hxp := Nat.lt_of_lt_of_le hx h.larger
  obtain ⟨u, hu, hmeaning⟩ := h.denotes.meant _ (h.denotes.sound.holds_resolve hxp)
  rw [h.denotes.pointed x hxp, h.kept x hx, hbase] at hmeaning
  rcases Line.eq_of_tree_eq_letter hmeaning.symm with rfl | rfl
  · exact hchar _ hu
  · have hcells := holding_text hu.held
    rw [hu.text, Line.text_ofText] at hcells
    rw [h.denotes.sound.listed _ _ hcells (letterText_facts (hletters c hc)).1.1] at hlacking
    cases hlacking

/-- When no cell has nothing but the letter, a cell with the text of the variable is found or made. -/
theorem Grown.letterIndex_of_find?_eq_none (h : p.Grown names letters n base known done meaning) (hnew : c ∉ known)
    (hfind : p.find? [c] = none) :
    ∃ meaning', BindsTo names letters n base (known ++ [c]) done meaning' c (p.letterIndex c).2 (p.letterIndex c).1 := by
  have hlower := hletters c hc
  have hsound := h.denotes.sound
  have hchar : ∀ x, ¬p.Writes x [.char c] := by
    intro x hx
    have hcells := holding_text hx.held
    rw [hx.text] at hcells
    have hfound := hsound.listed x _ hcells (by simp [Line.text, Mark.text])
    rw [show Line.text [.char c] = [c] from rfl, hfind] at hfound
    cases hfound
  rw [Pool.letterIndex, hfind]
  simp only
  rcases p.intern_cases (letterText c) with ⟨k, hfound, heq⟩ | ⟨hlacking, heq⟩ <;> rw [heq]
  · have hk := writes_letterText hlower (hsound.found _ _ hfound)
    exact ⟨meaning, h.know hnew ⟨k, lt_of_holds hk.held, h.meaning_of_letterText hletters hc hk⟩, hk, fun x hx => absurd hx (hchar x)⟩
  · have hlast : (p.add (letterText c)).Writes p.cells.length (.ofText (letterText c)) := writes_letterText hlower getElem?_add_length
    have hgrown := h.add hletters hdone hc hlacking fun x hx => h.lacks hletters hc hchar hlacking hx
    refine ⟨_, hgrown, hlast, fun x hx => ?_⟩
    rcases (h.denotes.add hletters hc hlacking).2 x _ hx with heq | hx'
    · refine hgrown.denotes.sound.eq_of_text_eq hx.held hlast.held ?_ (by rw [hx.text]; simp [Line.text, Mark.text])
      rw [hx.text, hlast.text, heq]
    · exact absurd hx' (hchar x)

/-- The cell of a letter is found or made. -/
theorem Grown.letterIndex (h : p.Grown names letters n base known done meaning) (hnew : c ∉ known) :
    ∃ meaning', BindsTo names letters n base (known ++ [c]) done meaning' c (p.letterIndex c).2 (p.letterIndex c).1 := by
  cases hfind : p.find? [c] with
  | some i => exact ⟨meaning, h.letterIndex_of_find? hletters hdone hc hnew hfind⟩
  | none => exact h.letterIndex_of_find?_eq_none hletters hdone hc hnew hfind

end

section
variable (hnames : ∀ name ∈ names, name ≠ [] ∧ ∀ d ∈ name, d.isAlpha = true) (hletters : ∀ l ∈ letters, l.isLower = true)
  (hc : c ∈ letters)
include hnames hletters hc

/-- Binding a letter in the text of one cell frees that text of it. -/
theorem BindsTo.bindIn (h : BindsTo names letters n base known done meaning c j p) (i : Nat) :
    BindsTo names letters n base known done meaning c j (bindIn names c j p i) ∧
      (∀ x, (bindIn names c j p i).holds x = true → p.holds x = true) ∧
      ∀ x, x = i ∨ (∀ s, p.Writes x s → s.Freed names c) → ∀ s, (bindIn names c j p i).Writes x s → s.Freed names c := by
  have hlower := hletters c hc
  have hmeaning : meaning j = .letter c := (h.grown.denotes.eq_tree h.cell).trans (Line.tree_letterText hletters hc)
  unfold Pool.bindIn
  split
  · rename_i hcond
    refine ⟨h, fun _ hx => hx, fun x hx s hs => ?_⟩
    rcases hx with rfl | hx
    · simp only [Bool.or_eq_true, decide_eq_true_eq, Bool.not_eq_true'] at hcond
      rcases hcond with rfl | hcond
      · exact hs.unique h.cell ▸ .letterText hlower hlower
      · rw [hs.held] at hcond
        cases hcond
    · exact hx s hs
  · rename_i hcond
    simp only [Bool.or_eq_true, decide_eq_true_eq, Bool.not_eq_true', not_or, Bool.not_eq_false] at hcond
    obtain ⟨hij, hi⟩ := hcond
    obtain ⟨s, hs, -⟩ := h.grown.denotes.meant i hi
    have hne : s ≠ [.char c] := by
      rintro rfl
      exact hij (h.only i hs)
    have hbound := Line.bound_bind names c j s
    rw [hs.text, Line.replaceLetter_text hnames hlower]
    have hwithin := hbound.within hs.within (lt_of_holds h.cell.held)
    split
    · rename_i heq
      have hsame : Line.bind names c j s = s := hwithin.text_injective hs.within heq
      refine ⟨h, fun _ hx => hx, fun x hx u hu => ?_⟩
      rcases hx with rfl | hx
      · rw [hu.unique hs, ← hsame]
        exact .bind_self hnames hlower hne j
      · exact hx u hu
    · have hnonempty := hbound.nonempty hs.nonempty
      have hreplaced := h.grown.denotes.sound.replaced hi hwithin hnonempty
      refine ⟨⟨?_, ?_, fun x hx => ?_⟩, fun x hx => ?_, fun x hx u hu => ?_⟩
      · refine h.grown.setText hs hwithin hnonempty (Line.tree_bind hnames hlower hc hmeaning hne) fun d hd => ?_
        exact (h.grown.freed d hd i s hs).bind hnames hlower hne j
      · exact hreplaced.others j _ (Ne.symm hij) h.cell
      · rcases (hreplaced.before x _ hx).2 with heq | ⟨-, hx⟩
        · exact absurd (Line.eq_of_bind_eq_char heq.symm) hne
        · exact h.only x hx
      · obtain ⟨u, hu, -⟩ := (h.grown.denotes.setText hs hwithin hnonempty
          (Line.tree_bind hnames hlower hc hmeaning hne)).meant x hx
        exact (hreplaced.before x u hu).1
      · rcases (hreplaced.before x u hu).2 with rfl | ⟨hxi, hu'⟩
        · exact .bind_self hnames hlower hne j
        · exact (hx.resolve_left hxi) u hu'

/-- Binding a letter in a list of indices frees their lines of it. -/
theorem BindsTo.foldl_bindIn (l : List Nat) {p : Pool} (h : BindsTo names letters n base known done meaning c j p) :
    BindsTo names letters n base known done meaning c j (l.foldl (Pool.bindIn names c j) p) ∧
      (∀ x, (l.foldl (Pool.bindIn names c j) p).holds x = true → p.holds x = true) ∧
      ∀ x, x ∈ l ∨ (∀ s, p.Writes x s → s.Freed names c) →
        ∀ s, (l.foldl (Pool.bindIn names c j) p).Writes x s → s.Freed names c := by
  induction l generalizing p with
  | nil => exact ⟨h, fun _ hx => hx, fun x hx => hx.resolve_left (by simp)⟩
  | cons i l ih =>
    obtain ⟨hbinds, hheld, hfreed⟩ := h.bindIn hnames hletters hc i
    obtain ⟨hbinds', hheld', hfreed'⟩ := ih hbinds
    refine ⟨hbinds', fun x hx => hheld x (hheld' x hx), fun x hx => hfreed' x ?_⟩
    rcases hx with hx | hx
    · exact (List.mem_cons.1 hx).elim (fun hxi => .inr (hfreed x (.inl hxi))) .inl
    · exact .inr (hfreed x (.inr hx))

/-- Binding a letter in all texts. -/
theorem Grown.bindLetter (h : p.Grown names letters n base done done meaning) (hdone : done ⊆ letters) (hnew : c ∉ done) :
    ∃ meaning', (bindLetter names p c).Grown names letters n base (done ++ [c]) (done ++ [c]) meaning' := by
  obtain ⟨meaning', hbinds⟩ := h.letterIndex hletters hdone hc hnew
  obtain ⟨hbinds', hheld, hfreed⟩ := hbinds.foldl_bindIn hnames hletters hc (p.letterIndex c).1.holders
  have hgrown := hbinds'.grown
  refine ⟨meaning', hgrown.denotes, hgrown.size, hgrown.kept, hgrown.fresh, hgrown.cells, fun d hd x s hs => ?_⟩
  rcases List.mem_append.1 hd with hd | hd
  · exact hgrown.freed d hd x s hs
  · obtain rfl := List.mem_singleton.1 hd
    have hx := hheld x hs.held
    exact hfreed x (.inl (by simp [holders, hx, lt_of_holds hx])) s hs

end

section
variable (hnames : ∀ name ∈ names, name ≠ [] ∧ ∀ d ∈ name, d.isAlpha = true) (hletters : ∀ l ∈ letters, l.isLower = true)
include hnames hletters

/-- Binding letters one after the other frees all lines of them. -/
theorem Grown.bindLetters (more : List Char) {done : List Char} {meaning : Nat → Tree} {p : Pool}
    (h : p.Grown names letters n base done done meaning) (hsub : done ++ more ⊆ letters) (hdistinct : (done ++ more).Nodup) :
    ∃ meaning', (p.bindLetters names more).Grown names letters n base (done ++ more) (done ++ more) meaning' := by
  induction more generalizing done meaning p with
  | nil =>
    rw [List.append_nil]
    exact ⟨meaning, h⟩
  | cons c more ih =>
    have hsplit : done ++ c :: more = done ++ [c] ++ more := by simp
    have hc : c ∈ letters := hsub (by simp)
    have hnew : c ∉ done := by
      rw [List.nodup_append] at hdistinct
      exact fun hmem => hdistinct.2.2 c hmem c (by simp) rfl
    obtain ⟨meaning', hgrown⟩ := h.bindLetter hnames hletters hc (fun d hd => hsub (by simp [hd])) hnew
    rw [hsplit] at hsub hdistinct ⊢
    exact ih hgrown hsub hdistinct

end

/-- Tidying a text keeps a pool grown. -/
theorem Grown.tidy (h : p.Grown names letters n base known done meaning) (hbound : p.cells.length ≤ Index.bound) (i : Nat) :
    (p.tidy i).Grown names letters n base known done meaning := by
  unfold Pool.tidy
  split
  · rename_i hcond
    simp only [Bool.and_eq_true] at hcond
    obtain ⟨s, hs, -⟩ := h.denotes.meant i hcond.1
    have hrefs := hs.within.refs
    rw [resolved_eq hs.within hbound hs.text]
    refine h.setText hs (hs.within.map fun k hk => lt_of_holds (h.denotes.sound.holds_resolve (hrefs k hk)))
      (by simpa using hs.nonempty) ?_ fun d hd => (h.freed d hd i s hs).relabel _
    rw [Line.tree_relabel]
    exact Line.tree_congr fun k hk => h.denotes.pointed k (hrefs k hk)
  · exact h

/-- A sweep keeps a pool grown. -/
theorem Grown.sweep (h : p.Grown names letters n base known done meaning) (hbound : p.cells.length ≤ Index.bound) :
    p.sweep.Grown names letters n base known done meaning := by
  have hfold : ∀ (l : List Nat) (p : Pool), p.Grown names letters n base known done meaning → p.cells.length ≤ Index.bound →
      (l.foldl Pool.tidy p).Grown names letters n base known done meaning := by
    intro l
    induction l with
    | nil => exact fun _ h _ => h
    | cons i l ih => exact fun p h hbound => ih _ (h.tidy hbound i) (length_cells_tidy p i ▸ hbound)
  exact hfold p.holders p h hbound

/-- Merging equal texts keeps a pool grown. -/
theorem Grown.canonical {p : Pool} (h : p.Grown names letters n base known done meaning) (hbound : p.cells.length ≤ Index.bound) :
    p.canonical.Grown names letters n base known done meaning := by
  induction p using canonical.induct with
  | case1 p hless ih =>
    rw [Pool.canonical, if_pos hless]
    exact ih (h.sweep hbound) (length_cells_sweep p ▸ hbound)
  | case2 p hless =>
    rw [Pool.canonical, if_neg hless]
    exact h.sweep hbound

end

end Pool

end FormulaDag
