import FormulaDag.Proofs.Pool.Linked

/-!
# Pools with a draft

The passes over a pool take one cell at a time. `Drafts goal p i s` says that the pool is linked and that the root means `goal` once
the text of cell `i` is the line `s`; `Stands goal p` says the same of the pool as it is. A pass starts a draft with the text of a
cell, changes the line step by step, each step keeping what it means, and commits it.
-/

namespace FormulaDag.Pool

/-- A linked pool whose root means the given text. -/
def Stands (letters : List Char) (write : Char → Text) (goal : Text) (p : Pool) : Prop :=
  ∃ view meaning, p.Linked letters write view meaning ∧ p.Reads view ∧ meaning Index.root = goal

/-- A pool that is linked, and whose root means the given text, once a cell has the given line. -/
def Drafts (letters : List Char) (write : Char → Text) (goal : Text) (p : Pool) (i : Nat) (s : Line) : Prop :=
  ∃ view meaning, p.Linked letters write view meaning ∧ p.ReadsBut i view ∧ p.holds i = true ∧ view i = s ∧
    meaning Index.root = goal

section
variable {letters : List Char} {write : Char → Text} {goal : Text} {p : Pool} {i : Nat} {s : Line}

/-- A pool that stands for a goal is sound. -/
theorem Stands.sound (h : Stands letters write goal p) : p.Sound := h.choose_spec.choose_spec.1.sound

/-- A pool with a draft is sound. -/
theorem Drafts.sound (h : Drafts letters write goal p i s) : p.Sound := h.choose_spec.choose_spec.1.sound

/-- A draft is within the pool. -/
theorem Drafts.within (h : Drafts letters write goal p i s) : s.Within p.cells.length := by
  obtain ⟨view, meaning, hlinked, -, hi, hview, -⟩ := h
  exact hview ▸ hlinked.within i hi

/-- The index of a draft holds a text. -/
theorem Drafts.holds (h : Drafts letters write goal p i s) : p.holds i = true := h.choose_spec.choose_spec.2.2.1

/-- The text of a cell as a draft. -/
theorem Stands.draft (h : Stands letters write goal p) (hi : p.holds i = true) :
    ∃ s, p.text i = Line.text s ∧ Drafts letters write goal p i s := by
  obtain ⟨view, meaning, hlinked, hreads, hgoal⟩ := h
  exact ⟨view i, hreads i hi, view, meaning, hlinked, fun x hx _ => hreads x hx, hi, rfl, hgoal⟩

/-- A draft that is the text of its cell. -/
theorem Drafts.stands (h : Drafts letters write goal p i s) (hs : p.text i = Line.text s) : Stands letters write goal p := by
  obtain ⟨view, meaning, hlinked, hreads, -, hview, hgoal⟩ := h
  refine ⟨view, meaning, hlinked, fun x hx => ?_, hgoal⟩
  by_cases hxi : x = i
  · rw [hxi, hs, hview]
  · exact hreads x hx hxi

/-- A draft that is written leaves a pool that stands for the goal. -/
theorem Drafts.commit (h : Drafts letters write goal p i s) (hne : Line.text s ≠ []) :
    Stands letters write goal (p.setText i (Line.text s)) := by
  obtain ⟨view, meaning, hlinked, hreads, hi, rfl, hgoal⟩ := h
  obtain ⟨hlinked', hreads'⟩ := hlinked.commit hreads hi hne
  exact ⟨view, meaning, hlinked', hreads', hgoal⟩

/-- A part of a draft may lose characters that mean nothing. -/
theorem Drafts.trim {a m b m' : Line} (h : Drafts [] write goal p i (a ++ m ++ b)) (hm' : m'.Within p.cells.length)
    (hrefs : ∀ k, .ref k ∈ m' ↔ .ref k ∈ m)
    (hmeaning : ∀ meaning, Line.expand write meaning m' = Line.expand write meaning m) :
    Drafts [] write goal p i (a ++ m' ++ b) := by
  have hs := h.within
  obtain ⟨view, meaning, hlinked, hreads, hi, hview, hgoal⟩ := h
  have hmem : ∀ k, .ref k ∈ a ++ m' ++ b ↔ .ref k ∈ view i := by
    intro k
    rw [hview]
    simp only [List.mem_append, hrefs]
  have hwithin : (a ++ m' ++ b : Line).Within p.cells.length :=
    ((hs.subset fun y hy => by simp [hy]).append hm').append (hs.subset fun y hy => by simp [hy])
  refine ⟨fun x => if x = i then a ++ m' ++ b else view x, meaning, hlinked.change hi hwithin ?_ ?_ ?_ (by simp), ?_, hi,
    if_pos rfl, hgoal⟩
  · rw [hview]
    simp only [Line.expand_append, hmeaning]
  · exact fun k hk => ⟨k, (hmem k).2 hk, rfl⟩
  · exact fun k hk => .inl ⟨k, (hmem k).1 hk, rfl⟩
  · intro x hx hxi
    simp only [if_neg hxi]
    exact hreads x hx hxi

/-- Interning a text adds at most the cell of it and changes nothing else. -/
theorem Sound.intern_sound (h : p.Sound) {t : Text} (ht : t ≠ []) :
    (p.intern t).pool.Sound ∧ p.cells.length ≤ (p.intern t).pool.cells.length ∧
      (p.intern t).pool.cells[(p.intern t).index]? = some (.holding t) ∧
      (∀ k, k < p.cells.length → (p.intern t).pool.cells[k]? = p.cells[k]? ∧
        (p.intern t).pool.resolve k = p.resolve k) ∧
      ∀ k, k < (p.intern t).pool.cells.length → k < p.cells.length ∨ k = (p.intern t).index := by
  rcases p.intern_cases t with ⟨c, hfind, heq⟩ | ⟨hnew, heq⟩
  · rw [heq]
    exact ⟨h, Nat.le_refl _, h.found t c hfind, fun k hk => ⟨rfl, rfl⟩, fun k hk => .inl hk⟩
  · rw [heq]
    refine ⟨h.add ht hnew, by simp, getElem?_add_length, fun k hk => ⟨getElem?_add_of_lt hk, h.resolve_add hk⟩, ?_⟩
    intro k hk
    rw [length_cells_add] at hk
    exact Nat.lt_or_eq_of_le (Nat.le_of_lt_succ hk)

/-- The cells with texts are those before and the one of the text that was put in. -/
theorem Sound.holds_intern (h : p.Sound) {t : Text} (ht : t ≠ []) (x : Nat) :
    (p.intern t).pool.holds x = true ↔ p.holds x = true ∨ x = (p.intern t).index := by
  obtain ⟨-, -, hcell, hsame, hcells⟩ := h.intern_sound ht
  rw [holds_iff, holds_iff]
  constructor
  · rintro ⟨u, hu⟩
    refine (hcells x (List.getElem?_eq_some_iff.1 hu).1).imp (fun hx => ⟨u, ?_⟩) id
    rw [← (hsame x hx).1, hu]
  · rintro (⟨u, hu⟩ | rfl)
    · exact ⟨u, by rw [(hsame x (List.getElem?_eq_some_iff.1 hu).1).1, hu]⟩
    · exact ⟨_, hcell⟩

/-- Interning leaves the texts of the holders. -/
theorem Sound.text_intern (h : p.Sound) {t : Text} (ht : t ≠ []) {x : Nat} (hx : p.holds x = true) :
    (p.intern t).pool.text x = p.text x := by
  obtain ⟨-, -, -, hsame, -⟩ := h.intern_sound ht
  apply text_of_holding
  rw [(hsame x (lt_of_holds hx)).1]
  exact holding_text hx

/-- The index of an interned text has that text. -/
theorem Sound.text_index (h : p.Sound) {t : Text} (ht : t ≠ []) : (p.intern t).pool.text (p.intern t).index = t :=
  text_of_holding (h.intern_sound ht).2.2.1

/-- A part of a draft is put into the pool and replaced by its token. -/
theorem Drafts.extract {a m b m' : Line} (h : Drafts [] write goal p i (a ++ m ++ b)) (hm' : m'.Within p.cells.length)
    (hrefs : ∀ k, .ref k ∈ m' ↔ .ref k ∈ m)
    (hmeaning : ∀ meaning, Line.expand write meaning m' = Line.expand write meaning m) (hne : Line.text m' ≠ [])
    (hother : p.text i ≠ Line.text m') :
    Drafts [] write goal (p.intern (Line.text m')).pool i (a ++ .ref (p.intern (Line.text m')).index :: b) := by
  obtain ⟨view, meaning, hlinked, hreads, hi, hview, hgoal⟩ := h
  have hsound := hlinked.sound
  have hheld := hsound.holds_intern hne
  have htext := @Sound.text_intern p hsound _ hne
  have hindex := hsound.text_index hne
  obtain ⟨hq, hlen, hcell, hsame, hcells⟩ := hsound.intern_sound hne
  generalize p.intern (Line.text m') = q at hq hlen hcell hsame hcells hheld htext hindex ⊢
  obtain ⟨pool, c, created⟩ := q
  simp only at hq hlen hcell hsame hcells hheld htext hindex ⊢
  have hc : (p.holds c = true ∧ p.text c = Line.text m') ∨ p.cells.length ≤ c := by
    by_cases hlt : c < p.cells.length
    · rw [(hsame c hlt).1] at hcell
      exact .inl ⟨holds_iff.2 ⟨_, hcell⟩, text_of_holding hcell⟩
    · exact .inr (Nat.le_of_not_lt hlt)
  have hci : c ≠ i := by
    rintro rfl
    rcases hc with ⟨-, htext⟩ | hge
    · exact hother htext
    · exact absurd (lt_of_holds hi) (by omega)
  have hcview : (p.holds c = true ∧ view c = m') ∨ p.cells.length ≤ c := by
    refine hc.imp (fun ⟨hpc, htext⟩ => ⟨hpc, (hlinked.within c hpc).text_injective hm' ?_⟩) id
    rw [← hreads c hpc hci, htext]
  have hspliced : Spliced write p pool view meaning i c a m b m' :=
    ⟨hi, hview, hm', hrefs, hmeaning meaning, hq, hlen, hcells, hheld, fun k hk => (hsame k hk).2, hci, hcview⟩
  refine ⟨_, _, hspliced.linked hlinked, fun x hx hxi => ?_, (hheld i).2 (.inl hi), by rw [if_neg (Ne.symm hci), if_pos rfl], ?_⟩
  · simp only
    by_cases hxc : x = c
    · rw [if_pos hxc, hxc, hindex]
    · have hxp := ((hheld x).1 hx).resolve_right hxc
      rw [if_neg hxc, if_neg hxi, ← hreads x hxp hxi, htext hxp]
  · split
    · rename_i heq
      rcases hcview with ⟨hpc, hviewc⟩ | hge
      · rw [← hviewc, ← hlinked.meant c hpc, ← heq, hgoal]
      · exact absurd hlinked.rooted (by omega)
    · exact hgoal

end

end FormulaDag.Pool
