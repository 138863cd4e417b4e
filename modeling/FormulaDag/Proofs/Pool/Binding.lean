import FormulaDag.Pool.Binding
import FormulaDag.Proofs.Pool.Plain

/-!
# Binding keeps pools plain

Binding a letter puts a cell for it into the pool, to which nothing need refer, and replaces characters of other texts by the token of
that cell. The cell means what the letter does, so the root means what it meant.
-/

namespace FormulaDag

/-- A line in which some occurrences of a letter have become references to a cell. -/
def Line.Bound (letter : Char) (i : Nat) (s s' : Line) : Prop :=
  List.Forall₂ (fun m m' => m' = m ∨ (m = .char letter ∧ m' = .ref i)) s s'

namespace Line.Bound
variable {letter : Char} {i : Nat} {s s' : Line}

/-- The characters of a bound line are characters of the line. -/
theorem char_mem (h : Bound letter i s s') {c : Char} (hc : .char c ∈ s') : .char c ∈ s := by
  induction h with
  | nil => exact hc
  | cons hm _ ih =>
    rcases List.mem_cons.1 hc with rfl | hc
    · rcases hm with hm | ⟨-, hm⟩
      · simp [hm]
      · simp at hm
    · exact List.mem_cons_of_mem _ (ih hc)

/-- The references of a line are kept when a letter is bound. -/
theorem ref_mem (h : Bound letter i s s') {k : Nat} (hk : .ref k ∈ s) : .ref k ∈ s' := by
  induction h with
  | nil => exact hk
  | cons hm _ ih =>
    rcases List.mem_cons.1 hk with rfl | hk
    · rcases hm with hm | ⟨hm, -⟩
      · simp [hm]
      · simp at hm
    · exact List.mem_cons_of_mem _ (ih hk)

/-- The references of a bound line are those of the line and the bound index. -/
theorem ref_mem_cases (h : Bound letter i s s') {k : Nat} (hk : .ref k ∈ s') : .ref k ∈ s ∨ k = i := by
  induction h with
  | nil => exact .inl hk
  | cons hm _ ih =>
    rcases List.mem_cons.1 hk with rfl | hk
    · rcases hm with hm | ⟨-, hm⟩
      · exact .inl (by simp [hm])
      · exact .inr (Mark.ref.inj hm)
    · exact (ih hk).imp (List.mem_cons_of_mem _) id

/-- A line without the letter is left as it is. -/
theorem eq_of_not_mem (h : Bound letter i s s') (hletter : .char letter ∉ s) : s' = s := by
  induction h with
  | nil => rfl
  | cons hm _ ih =>
    simp only [List.mem_cons, not_or] at hletter
    rw [ih hletter.2]
    rcases hm with rfl | ⟨rfl, -⟩
    · rfl
    · exact absurd rfl hletter.1

/-- A bound line has the same expansion when the index stands for the letter. -/
theorem expand_eq (h : Bound letter i s s') {write : Char → Text} {meaning : Nat → Text} (hi : meaning i = write letter) :
    expand write meaning s' = expand write meaning s := by
  induction h with
  | nil => rfl
  | cons hm _ ih =>
    rw [expand_cons, expand_cons, ih]
    rcases hm with rfl | ⟨rfl, rfl⟩
    · rfl
    · rw [Mark.expand, Mark.expand, hi]

/-- A bound line is within the bounds of the line. -/
theorem within (h : Bound letter i s s') {n : Nat} (hs : s.Within n) (hi : i < n) : s'.Within n where
  plain hc := hs.plain (h.char_mem hc)
  refs k hk := by
    rcases h.ref_mem_cases hk with hk | rfl
    · exact hs.refs k hk
    · exact hi

/-- Binding does not empty a line. -/
theorem nonempty (h : Bound letter i s s') (hs : s ≠ []) : s' ≠ [] := by
  rintro rfl
  cases h
  exact hs rfl

/-- Replacing characters of a text outside of its tokens, whatever the flags. -/
theorem exists_of_flags (hletter : ∀ k, letter ∉ Index.token k) (s : Line) (l : List (Char × Bool)) (hl : l.map Prod.fst = text s) :
    ∃ s', Bound letter i s s' ∧
      (l.flatMap fun e => if e.1 = letter && !e.2 then Index.token i else [e.1]) = text s' := by
  induction s generalizing l with
  | nil =>
    rw [text_nil, List.map_eq_nil_iff] at hl
    exact ⟨[], .nil, by rw [hl]; rfl⟩
  | cons m s ih =>
    rw [text_cons, List.map_eq_append_iff] at hl
    obtain ⟨l₁, l₂, rfl, hm, hs⟩ := hl
    obtain ⟨s', hbound, htext⟩ := ih l₂ hs
    rw [List.flatMap_append, htext]
    cases m with
    | char c =>
      rw [Mark.text, List.map_eq_singleton_iff] at hm
      obtain ⟨⟨d, flag⟩, rfl, rfl⟩ := hm
      rw [List.flatMap_singleton]
      split
      · rename_i hcond
        simp only [Bool.and_eq_true, decide_eq_true_eq] at hcond
        exact ⟨.ref i :: s', .cons (.inr ⟨by rw [hcond.1], rfl⟩) hbound, rfl⟩
      · exact ⟨.char d :: s', .cons (.inl rfl) hbound, rfl⟩
    | ref k =>
      have htoken : (l₁.flatMap fun e => if e.1 = letter && !e.2 then Index.token i else [e.1]) = Index.token k := by
        rw [show Index.token k = l₁.map Prod.fst from hm.symm, List.map_eq_flatMap]
        refine List.flatMap_congr fun e he => if_neg ?_
        simp only [Bool.and_eq_true, decide_eq_true_eq, not_and]
        intro heq
        have hmem : e.1 ∈ Mark.text (.ref k) := by
          rw [← hm]
          exact List.mem_map_of_mem he
        exact absurd (heq ▸ hmem) (hletter k)
      exact ⟨.ref k :: s', .cons (.inl rfl) hbound, by rw [htoken]; rfl⟩

end Line.Bound

namespace Pool

/-- Replacing a letter by a token in a written line binds it there. -/
theorem exists_bound {letter : Char} (hletter : letter.isLower = true) (names : List Text) (i : Nat) (s : Line) :
    ∃ s', Line.Bound letter i s s' ∧ replaceLetter names letter (Index.token i) (Line.text s) = Line.text s' := by
  refine Line.Bound.exists_of_flags (fun k => Index.not_mem_token_of_isLower hletter) s (Source.marked names (Line.text s)) ?_
  rw [Source.marked, List.map_fst_zip (by rw [Source.length_protection])]

/-- The cell that stands for a letter. -/
def IsCellOf (p : Pool) (letter : Char) (j : Nat) : Prop := p.holds j = true ∧ p.text j = letterText letter

theorem eulerNumber_eq : Symbol.eulerNumber = ['2', '.', '7', '1', '8', '2', '8', '1', '8', '2', '8', '4'] := rfl

/-- The number of Euler is written with digits and a point. -/
theorem isDigit_of_mem_eulerNumber {c : Char} (h : c ∈ Symbol.eulerNumber) : c.isDigit = true ∨ c = '.' := by
  have hall : Symbol.eulerNumber.all (fun c => c.isDigit || c == '.') = true := by
    rw [eulerNumber_eq]
    rfl
  simpa using List.all_eq_true.1 hall c h

/-- The text of the cell of a letter is plain and refers to nothing, and it holds no letter but its own. -/
theorem letterText_facts {letter : Char} (h : letter.isLower = true) :
    IsPlain (letterText letter) ∧ '@' ∉ letterText letter ∧ ∀ c ∈ letterText letter, c.isLower = true → c = letter := by
  have hne : ∀ c : Char, c.isLower = false → letter ≠ c := by
    rintro c hc rfl
    rw [hc] at h
    simp at h
  unfold letterText
  split
  · refine ⟨⟨by simp [eulerNumber_eq], fun c hc hmem => ?_⟩, fun hmem => ?_, fun c hc hlower => ?_⟩
    · simp only [List.mem_cons, List.not_mem_nil, or_false] at hc
      rcases isDigit_of_mem_eulerNumber hmem with hdigit | rfl
      · rcases hc with rfl | rfl | rfl | rfl <;> simp at hdigit
      · simp at hc
    · rcases isDigit_of_mem_eulerNumber hmem with hdigit | heq
      · simp at hdigit
      · simp at heq
    · rcases isDigit_of_mem_eulerNumber hc with hdigit | rfl
      · have := Text.not_isAlpha_of_isDigit hdigit
        simp [Char.isAlpha, hlower] at this
      · simp at hlower
  · refine ⟨⟨by simp, fun c hc hmem => ?_⟩, fun hmem => ?_, fun c hc _ => List.mem_singleton.1 hc⟩
    · rw [List.mem_singleton.1 hmem] at hc
      simp only [List.mem_cons, List.not_mem_nil, or_false] at hc
      rcases hc with hc | hc | hc | hc <;> exact hne _ (by decide) hc
    · exact hne '@' (by decide) (List.mem_singleton.1 hmem).symm

section
variable {letters : List Char} {write : Char → Text} {goal : Text} {p : Pool} {i j : Nat} {s s' : Line}
  {letter : Char}

/-- Occurrences of a letter in a draft become references to its cell. -/
theorem Drafts.bind (h : Drafts letters write goal p i s) (htext : p.text i = Line.text s) (hb : Line.Bound letter j s s')
    (hlower : letter.isLower = true) (hletters : ∀ l ∈ letters, l.isLower = true)
    (hmeaning : (letterText letter).flatMap write = write letter) (hcell : p.IsCellOf letter j) (hji : j ≠ i) :
    Drafts letters write goal p i s' := by
  obtain ⟨hj, hjtext⟩ := hcell
  obtain ⟨hplain, hat, -⟩ := letterText_facts hlower
  have hs := h.within
  have hsound := h.sound
  obtain ⟨view, meaning, hlinked, hreads, hi, rfl, hgoal⟩ := h
  have hview : view j = Line.ofText (letterText letter) := by
    refine (hlinked.within j hj).text_injective (.ofText (n := 0) hat) ?_
    rw [← hreads j hj hji, hjtext, Line.text_ofText]
  have hleaf : ∀ k, .ref k ∉ view j := by
    intro k hk
    rw [hview] at hk
    simp [Line.ofText] at hk
  have hmeans : meaning j = write letter := by
    rw [hlinked.meant j hj, hview, ← hmeaning, Line.expand, Line.ofText, List.flatMap_map]
    rfl
  refine ⟨fun x => if x = i then s' else view x, meaning, ?_, fun x hx hxi => ?_, hi, if_pos rfl, hgoal⟩
  · refine hlinked.change hi (hb.within hs (lt_of_holds hj)) (hb.expand_eq hmeans) (fun k hk => ⟨k, hb.ref_mem hk, rfl⟩) ?_ ?_
    · intro k hk
      rcases hb.ref_mem_cases hk with hk | rfl
      · exact .inl ⟨k, hk, rfl⟩
      · rw [resolve_of_holds hj]
        exact .inr ⟨hji, hleaf⟩
    · intro l hl hltext
      by_cases hmem : .char letter ∈ view i
      · obtain ⟨-, -, hown⟩ := letterText_facts (hletters l hl)
        obtain rfl := hown letter (hltext ▸ Line.mem_text hmem) hlower
        exact absurd (hsound.eq_of_text_eq hj hi (by rw [hjtext, htext, hltext]) (hjtext ▸ hplain.1)) hji
      · rwa [hb.eq_of_not_mem hmem]
  · simp only [if_neg hxi]
    exact hreads x hx hxi

/-- Binding a letter in the text of one cell. -/
theorem Plain.bindIn (h : Plain letters write goal p) (hlower : letter.isLower = true) (hletters : ∀ l ∈ letters, l.isLower = true)
    (hmeaning : (letterText letter).flatMap write = write letter) (hcell : p.IsCellOf letter j) (names : List Text) (i : Nat) :
    Plain letters write goal (bindIn names letter j p i) ∧ (bindIn names letter j p i).IsCellOf letter j := by
  unfold Pool.bindIn
  split
  · exact ⟨h, hcell⟩
  · rename_i hcond
    simp only [Bool.or_eq_true, decide_eq_true_eq, Bool.not_eq_true', not_or, Bool.not_eq_false] at hcond
    obtain ⟨hij, hi⟩ := hcond
    split
    · exact ⟨h, hcell⟩
    · obtain ⟨s, htext, hdraft⟩ := h.stands.draft hi
      have hplain := h.plain i hi
      obtain ⟨s', hb, heq⟩ := exists_bound hlower names j s
      rw [htext] at hplain
      rw [htext, heq]
      have hplain' : IsPlain (Line.text s') :=
        hplain.of_subset (hb.nonempty (isPlain_text_iff.1 hplain).1) fun c => hb.char_mem
      refine ⟨(hdraft.bind htext hb hlower hletters hmeaning hcell (Ne.symm hij)).plain hplain' fun x hx _ => h.plain x hx, ?_⟩
      obtain ⟨k, hq⟩ := hdraft.sound.exists_rewritten hi hplain'.1
      exact ⟨hq.holds_iff_of.2 (.inr ⟨Ne.symm hij, hcell.1⟩), (hq.text_of_ne (Ne.symm hij) hcell.1).trans hcell.2⟩

/-- Binding a letter in a list of indices keeps a pool plain. -/
theorem Plain.foldl_bindIn (hlower : letter.isLower = true) (hletters : ∀ l ∈ letters, l.isLower = true)
    (hmeaning : (letterText letter).flatMap write = write letter) (names : List Text) (l : List Nat) {p : Pool}
    (h : Plain letters write goal p) (hcell : p.IsCellOf letter j) :
    Plain letters write goal (l.foldl (Pool.bindIn names letter j) p) := by
  induction l generalizing p with
  | nil => exact h
  | cons i l ih =>
    obtain ⟨hplain, hcell'⟩ := h.bindIn hlower hletters hmeaning hcell names i
    exact ih hplain hcell'

/-- A pool that stands for some letters stands for more of them. -/
theorem Stands.mono {letters' : List Char} (h : Stands letters write goal p) (hsub : letters ⊆ letters') :
    Stands letters' write goal p := by
  obtain ⟨view, meaning, hlinked, hreads, hgoal⟩ := h
  refine ⟨view, meaning, ⟨hlinked.sound, hlinked.rooted, hlinked.within, hlinked.ranked, fun S hroot hclosed x hx => ?_,
    hlinked.meant, hlinked.pointed⟩, hreads, hgoal⟩
  exact (hlinked.covered S hroot hclosed x hx).imp id fun ⟨l, hl, htext⟩ => ⟨l, hsub hl, htext⟩

/-- A cell for a letter may be added, although nothing refers to it. -/
theorem Stands.add (h : Stands letters write goal p) (hlower : letter.isLower = true) (hmem : letter ∈ letters)
    (hnew : p.find? (letterText letter) = none) : Stands letters write goal (p.add (letterText letter)) := by
  obtain ⟨hplain, hat, -⟩ := letterText_facts hlower
  obtain ⟨view, meaning, hlinked, hreads, hgoal⟩ := h
  have hsound := hlinked.sound
  have hold : ∀ x, (p.add (letterText letter)).holds x = true → x ≠ p.cells.length → p.holds x = true :=
    fun x hx hne => (holds_add.1 hx).resolve_right hne
  have hne : ∀ k, k < p.cells.length → k ≠ p.cells.length := fun k hk => Nat.ne_of_lt hk
  have hrefs : ∀ k, .ref k ∉ Line.ofText (letterText letter) := by simp [Line.ofText]
  refine ⟨fun x => if x = p.cells.length then Line.ofText (letterText letter) else view x,
    fun x => if x = p.cells.length then (letterText letter).flatMap write else meaning x,
    ⟨hsound.add hplain.1 hnew, by rw [length_cells_add]; exact Nat.lt_succ_of_lt hlinked.rooted, fun x hx => ?_, ?_,
      fun S hroot hclosed x hx => ?_, fun x hx => ?_, fun k hk => ?_⟩, fun x hx => ?_,
    (if_neg (hne _ hlinked.rooted)).trans hgoal⟩
  · rw [length_cells_add]
    split
    · exact .ofText hat
    · rename_i hxc
      exact (hlinked.within x (hold x hx hxc)).mono (Nat.le_succ _)
  · obtain ⟨rank, hrank⟩ := hlinked.ranked
    refine ⟨rank, fun x hx k hk => ?_⟩
    split at hk
    · exact absurd hk (hrefs k)
    · rename_i hxc
      have hxp := hold x hx hxc
      rw [hsound.resolve_add ((hlinked.within x hxp).refs k hk)]
      exact hrank x hxp k hk
  · by_cases hxc : x = p.cells.length
    · exact .inr ⟨letter, hmem, by rw [if_pos hxc, Line.text_ofText]⟩
    · rw [if_neg hxc]
      refine hlinked.covered S (hsound.resolve_add hlinked.rooted ▸ hroot) (fun y hy hS k hk => ?_) x (hold x hx hxc)
      rw [← hsound.resolve_add ((hlinked.within y hy).refs k hk)]
      exact hclosed y (holds_add.2 (.inl hy)) hS k (by rwa [if_neg (hne _ (lt_of_holds hy))])
  · split
    · rw [Line.expand, Line.ofText, List.flatMap_map]
      rfl
    · rename_i hxc
      have hxp := hold x hx hxc
      rw [hlinked.meant x hxp]
      exact Line.expand_congr fun k hk => (if_neg (hne k ((hlinked.within x hxp).refs k hk))).symm
  · rw [length_cells_add] at hk
    rcases Nat.lt_or_eq_of_le (Nat.le_of_lt_succ hk) with hk | rfl
    · have hheld := hsound.holds_resolve hk
      rw [hsound.resolve_add hk, if_neg (hne _ (lt_of_holds hheld)), if_neg (hne k hk), hlinked.pointed k hk]
    · rw [resolve_of_holds (holds_add.2 (.inr rfl))]
  · by_cases hxc : x = p.cells.length
    · simp only [hxc, if_true, Line.text_ofText]
      exact text_of_holding getElem?_add_length
    · have hxp := hold x hx hxc
      simp only [if_neg hxc]
      rw [hsound.text_add (lt_of_holds hxp), hreads x hxp]

/-- The cell of the letter `e` is given the number that it stands for. -/
theorem Plain.bindEuler (h : Plain letters write goal p) (hletters : ∀ l ∈ letters, l.isLower = true) (hnew : 'e' ∉ letters)
    (hmeaning : Symbol.eulerNumber.flatMap write = write 'e') (hi : p.cells[i]? = some (.holding ['e'])) :
    Plain letters write goal (p.setText i Symbol.eulerNumber) ∧
      (p.setText i Symbol.eulerNumber).IsCellOf 'e' ((p.setText i Symbol.eulerNumber).resolve i) := by
  obtain ⟨hplain, hat, -⟩ := @letterText_facts 'e' rfl
  have heuler : letterText 'e' = Symbol.eulerNumber := rfl
  rw [heuler] at hplain hat
  have hheld : p.holds i = true := holds_iff.2 ⟨_, hi⟩
  obtain ⟨s, htext, hdraft⟩ := h.stands.draft hheld
  rw [text_of_holding hi] at htext
  obtain rfl : s = Line.ofText ['e'] :=
    hdraft.within.text_injective (.ofText (n := 0) (by decide)) (by rw [← htext, Line.text_ofText])
  have hsound := hdraft.sound
  have hdraft' : Drafts letters write goal p i (Line.ofText Symbol.eulerNumber) := by
    obtain ⟨view, meaning, hlinked, hreads, -, hview, hgoal⟩ := hdraft
    refine ⟨fun x => if x = i then Line.ofText Symbol.eulerNumber else view x, meaning,
      hlinked.change hheld (.ofText hat) ?_ ?_ ?_ ?_, fun x hx hxi => ?_, hheld, if_pos rfl, hgoal⟩
    · have hexpand : ∀ t : Text, Line.expand write meaning (Line.ofText t) = t.flatMap write := by
        intro t
        rw [Line.expand, Line.ofText, List.flatMap_map]
        rfl
      rw [hview, hexpand, hexpand, hmeaning]
      simp
    · rw [hview]
      simp [Line.ofText]
    · simp [Line.ofText]
    · intro l hl hltext
      rw [hview, Line.text_ofText] at hltext
      have := (letterText_facts (hletters l hl)).2.2 'e' (hltext ▸ by simp) rfl
      exact absurd (this ▸ hl) hnew
    · simp only [if_neg hxi]
      exact hreads x hx hxi
  obtain ⟨j, hq⟩ := hsound.exists_rewritten hheld hplain.1
  rw [← Line.text_ofText Symbol.eulerNumber] at hplain
  have hplain' := hdraft'.plain hplain fun x hx _ => h.plain x hx
  rw [Line.text_ofText] at hplain'
  exact ⟨hplain', by rw [hq.resolve_self]; exact ⟨holds_iff.2 ⟨_, hq.target⟩, hq.text_target⟩⟩

/-- The cell of a letter is found or made. -/
theorem Plain.letterIndex (h : Plain letters write goal p) (hlower : letter.isLower = true)
    (hletters : ∀ l ∈ letters, l.isLower = true) (hnew : letter ∉ letters)
    (hmeaning : (letterText letter).flatMap write = write letter) :
    Plain (letters ++ [letter]) write goal (p.letterIndex letter).1 ∧
      (p.letterIndex letter).1.IsCellOf letter (p.letterIndex letter).2 := by
  have hsound := h.stands.sound
  have hmono : ∀ {q : Pool}, Plain letters write goal q → Plain (letters ++ [letter]) write goal q :=
    fun hq => ⟨hq.stands.mono (List.subset_append_left _ _), hq.plain⟩
  unfold Pool.letterIndex
  split
  · rename_i i hfind
    have hi := hsound.found _ _ hfind
    split
    · rename_i he
      subst he
      obtain ⟨hplain, hcell⟩ := h.bindEuler hletters hnew hmeaning hi
      exact ⟨hmono hplain, hcell⟩
    · rename_i he
      have hheld : p.holds i = true := holds_iff.2 ⟨_, hi⟩
      refine ⟨hmono h, ?_⟩
      rw [resolve_of_holds hheld]
      exact ⟨hheld, by rw [text_of_holding hi, letterText, if_neg he]⟩
  · have htext := (letterText_facts hlower).1
    refine ⟨⟨?_, fun x hx => ?_⟩, (hsound.holds_intern htext.1 _).2 (.inr rfl), hsound.text_index htext.1⟩
    · rcases p.intern_cases (letterText letter) with ⟨c, -, heq⟩ | ⟨hfind, heq⟩
      · rw [heq]
        exact (hmono h).stands
      · rw [heq]
        exact (hmono h).stands.add hlower (by simp) hfind
    · rcases (hsound.holds_intern htext.1 x).1 hx with hx | rfl
      · rw [hsound.text_intern htext.1 hx]
        exact h.plain x hx
      · rwa [hsound.text_index htext.1]

/-- Binding distinct letters keeps a pool plain. -/
theorem Plain.bindLetters (names : List Text) (more : List Char) {letters : List Char} {p : Pool} (h : Plain letters write goal p)
    (hletters : ∀ l ∈ letters ++ more, l.isLower = true) (hdistinct : (letters ++ more).Nodup)
    (heuler : 'e' ∈ more → Symbol.eulerNumber.flatMap write = write 'e') :
    Plain (letters ++ more) write goal (p.bindLetters names more) := by
  induction more generalizing letters p with
  | nil =>
    rw [List.append_nil]
    exact h
  | cons letter more ih =>
    have hsplit : letters ++ letter :: more = letters ++ [letter] ++ more := by simp
    have hlower : letter.isLower = true := hletters letter (by simp)
    have hmeaning : (letterText letter).flatMap write = write letter := by
      unfold letterText
      split
      · rename_i he
        rw [he]
        exact heuler (by simp [he])
      · simp
    have hnew : letter ∉ letters := by
      rw [List.nodup_append] at hdistinct
      exact fun hmem => hdistinct.2.2 letter hmem letter (by simp) rfl
    rw [hsplit] at hletters hdistinct ⊢
    obtain ⟨hplain, hcell⟩ := h.letterIndex hlower (fun l hl => hletters l (by simp [hl])) hnew hmeaning
    exact ih (hplain.foldl_bindIn hlower (fun l hl => hletters l (List.mem_append_left _ hl)) hmeaning names _ hcell) hletters
      hdistinct fun he => heuler (List.mem_cons_of_mem _ he)

end

/-- Binding letters takes no cell away. -/
theorem length_le_bindLetters (names : List Text) (letters : List Char) (p : Pool) :
    p.cells.length ≤ (p.bindLetters names letters).cells.length := by
  have hindex : ∀ (p : Pool) (letter : Char), p.cells.length ≤ (p.letterIndex letter).1.cells.length := by
    intro p letter
    unfold letterIndex
    split
    · split
      · rw [length_cells_setText]
      · exact Nat.le_refl _
    · exact p.length_cells_le_intern _
  have hin : ∀ (letter : Char) (j : Nat) (l : List Nat) (p : Pool),
      (l.foldl (bindIn names letter j) p).cells.length = p.cells.length := by
    intro letter j l
    induction l with
    | nil => exact fun _ => rfl
    | cons i l ih =>
      intro p
      refine (ih _).trans ?_
      unfold bindIn
      split
      · rfl
      · split
        · rfl
        · exact length_cells_setText _ _ _
  induction letters generalizing p with
  | nil => exact Nat.le_refl _
  | cons letter letters ih =>
    refine Nat.le_trans ?_ (ih (bindLetter names p letter))
    rw [bindLetter, hin]
    exact hindex p letter

end Pool

end FormulaDag
