import FormulaDag.Pool.Binding
import FormulaDag.Proofs.Line
import FormulaDag.Proofs.Pool.Rewriting

/-!
# Linked pools

The texts of a pool refer to each other. `Linked` says that they do so without a cycle, that nothing is in the pool but what the
root leads to, and that what the indices mean is consistent with what is written: the meaning of a text is put together from those
of its marks. The texts are given as lines by a view, which may run ahead of the pool in the cell that is being rewritten: there it
shows the text that the cell is going to have.
-/

namespace FormulaDag.Pool

/-- The lines of a view refer to each other without a cycle; all are led to from the root, apart from the letters of variables; and
the meaning of every index is that of its line. -/
structure Linked (letters : List Char) (write : Char → Text) (p : Pool) (view : Nat → Line) (meaning : Nat → Text) :
    Prop where
  sound : p.Sound
  rooted : Index.root < p.cells.length
  within : ∀ x, p.holds x = true → (view x).Within p.cells.length
  ranked : ∃ rank : Nat → Nat, ∀ x, p.holds x = true → ∀ k, .ref k ∈ view x → rank (p.resolve k) < rank x
  covered : ∀ S : Nat → Prop, S (p.resolve Index.root) →
    (∀ x, p.holds x = true → S x → ∀ k, .ref k ∈ view x → S (p.resolve k)) →
    ∀ x, p.holds x = true → S x ∨ ∃ letter ∈ letters, Line.text (view x) = letterText letter
  meant : ∀ x, p.holds x = true → meaning x = Line.expand write meaning (view x)
  pointed : ∀ k, k < p.cells.length → meaning (p.resolve k) = meaning k

/-- The texts of a pool are the lines of a view, but for one cell at most. -/
def ReadsBut (p : Pool) (i : Nat) (view : Nat → Line) : Prop :=
  ∀ x, p.holds x = true → x ≠ i → p.text x = Line.text (view x)

/-- The texts of a pool are the lines of a view. -/
def Reads (p : Pool) (view : Nat → Line) : Prop := ∀ x, p.holds x = true → p.text x = Line.text (view x)

namespace Rewritten

/-- Pointers may be followed before or after rewriting. -/
theorem resolve_resolve {p q : Pool} {i j k : Nat} {t : Text} (h : Rewritten p q i j t) (hp : p.Sound)
    (hk : k < p.cells.length) : q.resolve (p.resolve k) = q.resolve k := by
  have hheld := hp.holds_resolve hk
  rw [h.resolve _ (lt_of_holds hheld), h.resolve k hk, resolve_of_holds hheld]

end Rewritten

namespace Linked
variable {letters : List Char} {write : Char → Text} {p : Pool} {view : Nat → Line} {meaning : Nat → Text} {i : Nat}

/-- The references of a line are indices of the pool. -/
theorem refs_lt (h : p.Linked letters write view meaning) {x k : Nat} (hx : p.holds x = true) (hk : .ref k ∈ view x) :
    k < p.cells.length := (h.within x hx).refs k hk

section
variable {q : Pool} {j : Nat} {t : Text}

/-- Lines still refer to each other without a cycle when another cell with the same line takes the place of a cell: the lower of their
ranks fits both. -/
theorem ranked_of_rewritten (h : p.Linked letters write view meaning) (hq : Rewritten p q i j t) (hj : p.holds j = true)
    (hview : view j = view i) :
    ∃ rank : Nat → Nat, ∀ x, q.holds x = true → ∀ k, .ref k ∈ view x → rank (q.resolve k) < rank x := by
  obtain ⟨rank, hrank⟩ := h.ranked
  refine ⟨fun y => if y = j then min (rank i) (rank j) else rank y, fun x hx k hk => ?_⟩
  have hxp := hq.held_before hx
  have hlt := hrank x hxp k hk
  rw [hq.resolve k (h.refs_lt hxp hk)]
  by_cases hxj : x = j
  · subst hxj
    have hlt' := hrank i hq.held k (hview ▸ hk)
    have h1 : p.resolve k ≠ i := fun heq => by rw [heq] at hlt'; omega
    have h2 : p.resolve k ≠ x := fun heq => by rw [heq] at hlt; omega
    simp only [if_neg h1, if_neg h2, if_true]
    omega
  · simp only [if_neg hxj]
    by_cases hki : p.resolve k = i
    · rw [if_pos hki, if_pos rfl]
      rw [hki] at hlt
      omega
    · rw [if_neg hki]
      by_cases hkj : p.resolve k = j
      · rw [if_pos hkj]
        rw [hkj] at hlt
        omega
      · rwa [if_neg hkj]

/-- What the root led to, it leads to when another cell with the same line takes the place of a cell. -/
theorem covered_of_rewritten (h : p.Linked letters write view meaning) (hq : Rewritten p q i j t) (hview : view j = view i)
    (S : Nat → Prop) (hroot : S (q.resolve Index.root))
    (hclosed : ∀ x, q.holds x = true → S x → ∀ k, .ref k ∈ view x → S (q.resolve k)) {x : Nat} (hx : q.holds x = true) :
    S x ∨ ∃ letter ∈ letters, Line.text (view x) = letterText letter := by
  have hset := h.covered (fun y => S (q.resolve y)) (by rwa [hq.resolve_resolve h.sound h.rooted]) ?_ x (hq.held_before hx)
  · rwa [resolve_of_holds hx] at hset
  · intro y hy hS k hk
    rw [hq.resolve_resolve h.sound (h.refs_lt hy hk)]
    by_cases hyi : y = i
    · subst hyi
      rw [hq.resolve_self] at hS
      exact hclosed j (holds_iff.2 ⟨_, hq.target⟩) hS k (hview ▸ hk)
    · have hyq : q.holds y = true := hq.holds_iff_of.2 (.inr ⟨hyi, hy⟩)
      rw [resolve_of_holds hyq] at hS
      exact hclosed y hyq hS k hk

end

/-- The text of a cell is replaced by the line that the view shows there. Another cell with the same text takes its place. -/
theorem commit (h : p.Linked letters write view meaning) (hreads : p.ReadsBut i view) (hi : p.holds i = true)
    (hne : Line.text (view i) ≠ []) :
    (p.setText i (Line.text (view i))).Linked letters write view meaning ∧
      (p.setText i (Line.text (view i))).Reads view := by
  obtain ⟨j, hq⟩ := h.sound.exists_rewritten hi hne
  generalize p.setText i (Line.text (view i)) = q at hq
  have hj : p.holds j = true := hq.held_before (holds_iff.2 ⟨_, hq.target⟩)
  have hview : view j = view i := by
    by_cases hji : j = i
    · rw [hji]
    · refine (h.within j hj).text_injective (h.within i hi) ?_
      rw [← hreads j hj hji, (hq.text_before hji).2]
  refine ⟨⟨hq.sound, hq.length ▸ h.rooted, fun x hx => ?_, h.ranked_of_rewritten hq hj hview,
    fun S hroot hclosed x hx => h.covered_of_rewritten hq hview S hroot hclosed hx, fun x hx => h.meant x (hq.held_before hx),
    fun k hk => ?_⟩, fun x hx => ?_⟩
  · rw [hq.length]
    exact h.within x (hq.held_before hx)
  · rw [hq.length] at hk
    rw [hq.resolve k hk, ← h.pointed k hk]
    split
    · rename_i heq
      rw [heq, h.meant j hj, hview, ← h.meant i hi]
    · rfl
  · by_cases hxj : x = j
    · rw [hxj, hq.text_target, hview]
    · obtain ⟨hxi, hxp⟩ := (hq.holds_iff_of.1 hx).resolve_left hxj
      rw [hq.text_of_ne hxi hxp]
      exact hreads x hxp hxi

/-- Lines still refer to each other without a cycle when one of them changes and what it refers to now was referred to before or refers
to nothing, which gets the lowest rank. -/
theorem ranked_of_change (h : p.Linked letters write view meaning) (hi : p.holds i = true) {s : Line}
    (hrefs : ∀ k, .ref k ∈ s → (∃ k', .ref k' ∈ view i ∧ p.resolve k' = p.resolve k) ∨
      (p.resolve k ≠ i ∧ ∀ k', .ref k' ∉ view (p.resolve k))) :
    ∃ rank : Nat → Nat, ∀ x, p.holds x = true → ∀ k, .ref k ∈ (if x = i then s else view x) → rank (p.resolve k) < rank x := by
  obtain ⟨rank, hrank⟩ := h.ranked
  classical
  refine ⟨fun y => if y = i ∨ ∃ k, .ref k ∈ view y then rank y + 1 else 0, fun x hx k hk => ?_⟩
  have hle : ∀ y, (if y = i ∨ ∃ k, .ref k ∈ view y then rank y + 1 else 0) ≤ rank y + 1 := by
    intro y
    split <;> omega
  simp only at hk ⊢
  split at hk
  · rename_i hxi
    subst hxi
    rw [if_pos (Or.inl rfl)]
    rcases hrefs k hk with ⟨k', hk', hres⟩ | ⟨hne, hleaf⟩
    · have hlt := hrank x hx k' hk'
      rw [hres] at hlt
      have := hle (p.resolve k)
      omega
    · rw [if_neg]
      · omega
      · rintro (heq | ⟨k', hk'⟩)
        · exact hne heq
        · exact hleaf k' hk'
  · have hown : (if x = i ∨ ∃ k, .ref k ∈ view x then rank x + 1 else 0) = rank x + 1 := if_pos (.inr ⟨k, hk⟩)
    have hlt := hrank x hx k hk
    have := hle (p.resolve k)
    omega

/-- The line of one cell may change to one with the same meaning that refers to the same cells, and to others that refer to
nothing. -/
theorem change (h : p.Linked letters write view meaning) (hi : p.holds i = true) {s : Line}
    (hs : s.Within p.cells.length) (hmeaning : Line.expand write meaning s = Line.expand write meaning (view i))
    (hkept : ∀ k, .ref k ∈ view i → ∃ k', .ref k' ∈ s ∧ p.resolve k' = p.resolve k)
    (hrefs : ∀ k, .ref k ∈ s → (∃ k', .ref k' ∈ view i ∧ p.resolve k' = p.resolve k) ∨
      (p.resolve k ≠ i ∧ ∀ k', .ref k' ∉ view (p.resolve k)))
    (hletter : ∀ letter ∈ letters, Line.text (view i) = letterText letter → Line.text s = letterText letter) :
    p.Linked letters write (fun x => if x = i then s else view x) meaning := by
  refine ⟨h.sound, h.rooted, fun x hx => ?_, h.ranked_of_change hi hrefs, fun S hroot hclosed x hx => ?_, fun x hx => ?_, h.pointed⟩
  · split
    · exact hs
    · exact h.within x hx
  · have hset := h.covered S hroot ?_ x hx
    · refine hset.imp id fun ⟨letter, hmem, htext⟩ => ⟨letter, hmem, ?_⟩
      split
      · rename_i hxi
        exact hletter letter hmem (hxi ▸ htext)
      · exact htext
    · intro y hy hS k hk
      by_cases hyi : y = i
      · subst hyi
        obtain ⟨k', hk', hres⟩ := hkept k hk
        rw [← hres]
        exact hclosed y hy hS k' (by rwa [if_pos rfl])
      · exact hclosed y hy hS k (by rwa [if_neg hyi])
  · split
    · rename_i hxi
      rw [hmeaning, hxi]
      exact h.meant i hi
    · exact h.meant x hx

end Linked

/-- A pool in which the part `m` of the line of the cell `i` has got the cell `c` for the line `m'`, be that cell new or not. -/
structure Spliced (write : Char → Text) (p q : Pool) (view : Nat → Line) (meaning : Nat → Text) (i c : Nat) (a m b m' : Line) :
    Prop where
  held : p.holds i = true
  line : view i = a ++ m ++ b
  within : m'.Within p.cells.length
  refs : ∀ k, .ref k ∈ m' ↔ .ref k ∈ m
  expand_eq : Line.expand write meaning m' = Line.expand write meaning m
  sound : q.Sound
  grows : p.cells.length ≤ q.cells.length
  news : ∀ k, k < q.cells.length → k < p.cells.length ∨ k = c
  holds_iff : ∀ x, q.holds x = true ↔ p.holds x = true ∨ x = c
  resolve : ∀ k, k < p.cells.length → q.resolve k = p.resolve k
  ne : c ≠ i
  fresh : (p.holds c = true ∧ view c = m') ∨ p.cells.length ≤ c

namespace Spliced
variable {write : Char → Text} {p q : Pool} {view : Nat → Line} {meaning : Nat → Text} {i c k x : Nat} {a m b m' : Line}

theorem holds_new (hs : Spliced write p q view meaning i c a m b m') : q.holds c = true := (hs.holds_iff c).2 (.inr rfl)

theorem held_before (hs : Spliced write p q view meaning i c a m b m') (hx : q.holds x = true) (hxc : x ≠ c) : p.holds x = true :=
  ((hs.holds_iff x).1 hx).resolve_right hxc

theorem left_subset (hs : Spliced write p q view meaning i c a m b m') : a ⊆ view i := fun y hy => by simp [hs.line, hy]

theorem right_subset (hs : Spliced write p q view meaning i c a m b m') : b ⊆ view i := fun y hy => by simp [hs.line, hy]

/-- The new line of the cell refers to the part, and otherwise to what the old one referred to. -/
theorem ref_line (hs : Spliced write p q view meaning i c a m b m') (hk : .ref k ∈ a ++ .ref c :: b) : k = c ∨ .ref k ∈ view i := by
  rw [hs.line]
  simp only [List.mem_append, List.mem_cons, Mark.ref.injEq] at hk ⊢
  tauto

theorem ref_part (hs : Spliced write p q view meaning i c a m b m') (hk : .ref k ∈ m') : .ref k ∈ view i := by
  rw [hs.line]
  simp [(hs.refs k).1 hk]

variable {letters : List Char}

/-- An index of the old pool means what it meant. -/
theorem meaning_eq (hs : Spliced write p q view meaning i c a m b m') (h : p.Linked letters write view meaning)
    (hk : k < p.cells.length) : (if k = c then Line.expand write meaning m' else meaning k) = meaning k := by
  split
  · rename_i hkc
    rcases hs.fresh with ⟨hpc, hviewc⟩ | hge
    · rw [hkc, h.meant c hpc, hviewc]
    · omega
  · rfl

theorem expand_line (hs : Spliced write p q view meaning i c a m b m') (h : p.Linked letters write view meaning) {s : Line}
    (hwithin : s.Within p.cells.length) :
    Line.expand write (fun x => if x = c then Line.expand write meaning m' else meaning x) s = Line.expand write meaning s :=
  Line.expand_congr fun k hk => hs.meaning_eq h (hwithin.refs k hk)

/-- The lines of the new pool are lines of it. -/
theorem within_view (hs : Spliced write p q view meaning i c a m b m') (h : p.Linked letters write view meaning)
    (hx : q.holds x = true) :
    Line.Within q.cells.length (if x = c then m' else if x = i then a ++ .ref c :: b else view x) := by
  have hwi := h.within i hs.held
  split
  · exact hs.within.mono hs.grows
  · split
    · exact ((hwi.subset hs.left_subset).mono hs.grows).append
        ((Line.Within.ref (lt_of_holds hs.holds_new)).append ((hwi.subset hs.right_subset).mono hs.grows))
    · rename_i hxc _
      exact (h.within x (hs.held_before hx hxc)).mono hs.grows

/-- There is a rank above those of the references of the part that the cell of the part reaches if it is an old one. -/
theorem exists_top (hs : Spliced write p q view meaning i c a m b m') {rank : Nat → Nat}
    (hrank : ∀ x, p.holds x = true → ∀ k, .ref k ∈ view x → rank (p.resolve k) < rank x) :
    ∃ top, (∀ k, .ref k ∈ m' → rank (p.resolve k) < top) ∧ (p.holds c = true → top ≤ rank c) := by
  rcases hs.fresh with ⟨hpc, hviewc⟩ | hge
  · exact ⟨rank c, fun k hk => hrank c hpc k (hviewc ▸ hk), fun _ => Nat.le_refl _⟩
  · exact ⟨rank i, fun k hk => hrank i hs.held k (hs.ref_part hk), fun hpc => absurd (lt_of_holds hpc) (Nat.not_lt.2 hge)⟩

/-- The lines of the new pool refer to each other without a cycle. -/
theorem ranked (hs : Spliced write p q view meaning i c a m b m') (h : p.Linked letters write view meaning) :
    ∃ rank : Nat → Nat, ∀ x, q.holds x = true →
      ∀ k, .ref k ∈ (if x = c then m' else if x = i then a ++ .ref c :: b else view x) → rank (q.resolve k) < rank x := by
  obtain ⟨rank, hrank⟩ := h.ranked
  obtain ⟨top, htop, hctop⟩ := hs.exists_top hrank
  -- the new cell ranks below the one that refers to it now, and an old one is lowered to that rank
  refine ⟨fun y => if y = c then min (2 * top + 1) (2 * rank i) else 2 * rank y + 1, fun x hx k hk => ?_⟩
  have hbelow : ∀ k, k < p.cells.length → ∀ bound, rank (p.resolve k) < bound →
      (if q.resolve k = c then min (2 * top + 1) (2 * rank i) else 2 * rank (q.resolve k) + 1) < 2 * bound + 1 := by
    intro k hk bound hlt
    rw [hs.resolve k hk]
    split
    · rename_i heq
      have := hctop (heq ▸ h.sound.holds_resolve hk)
      rw [heq] at hlt
      omega
    · omega
  simp only at hk ⊢
  by_cases hxc : x = c
  · rw [if_pos hxc] at hk ⊢
    have hki := hrank i hs.held k (hs.ref_part hk)
    have hkt := htop k hk
    have hklt := hs.within.refs k hk
    rw [hs.resolve k hklt, if_neg]
    · omega
    · intro heq
      have := hctop (heq ▸ h.sound.holds_resolve hklt)
      rw [heq] at hkt
      omega
  · rw [if_neg hxc] at hk ⊢
    by_cases hxi : x = i
    · rw [if_pos hxi] at hk
      rw [hxi]
      rcases hs.ref_line hk with rfl | hk
      · rw [resolve_of_holds hs.holds_new, if_pos rfl]
        omega
      · exact hbelow k (h.refs_lt hs.held hk) _ (hrank i hs.held k hk)
    · rw [if_neg hxi] at hk
      have hxp := hs.held_before hx hxc
      exact hbelow k (h.refs_lt hxp hk) _ (hrank x hxp k hk)

/-- What the root led to, it still leads to, and so it leads to the cell of the part. -/
theorem covered (hs : Spliced write p q view meaning i c a m b m') (h : p.Linked [] write view meaning) (S : Nat → Prop)
    (hroot : S (q.resolve Index.root))
    (hclosed : ∀ x, q.holds x = true → S x →
      ∀ k, .ref k ∈ (if x = c then m' else if x = i then a ++ .ref c :: b else view x) → S (q.resolve k))
    (hx : q.holds x = true) : S x := by
  have hpart : ∀ k, .ref k ∈ m' → S c → S (p.resolve k) := by
    intro k hk hSc
    rw [← hs.resolve k (hs.within.refs k hk)]
    exact hclosed c hs.holds_new hSc k (by rwa [if_pos rfl])
  have hline : ∀ k, .ref k ∈ a ++ .ref c :: b → S i → S (q.resolve k) := by
    intro k hk hSi
    exact hclosed i ((hs.holds_iff i).2 (.inl hs.held)) hSi k (by rwa [if_neg (Ne.symm hs.ne), if_pos rfl])
  have hnew : S i → S c := by
    intro hSi
    have := hline c (by simp) hSi
    rwa [resolve_of_holds hs.holds_new] at this
  have hset : ∀ y, p.holds y = true → S y := by
    intro y hy
    refine (h.covered S (hs.resolve _ h.rooted ▸ hroot) (fun z hz hS k hk => ?_) y hy).resolve_right (by simp)
    have hklt := h.refs_lt hz hk
    by_cases hzc : z = c
    · subst hzc
      rcases hs.fresh with ⟨-, hviewc⟩ | hge
      · exact hpart k (hviewc ▸ hk) hS
      · exact absurd (lt_of_holds hz) (Nat.not_lt.2 hge)
    · by_cases hzi : z = i
      · subst hzi
        rw [hs.line, List.mem_append, List.mem_append] at hk
        rcases hk with (hk | hk) | hk
        · exact hs.resolve k hklt ▸ hline k (by simp [hk]) hS
        · exact hpart k ((hs.refs k).2 hk) (hnew hS)
        · exact hs.resolve k hklt ▸ hline k (by simp [hk]) hS
      · rw [← hs.resolve k hklt]
        exact hclosed z ((hs.holds_iff z).2 (.inl hz)) hS k (by rwa [if_neg hzc, if_neg hzi])
  by_cases hxc : x = c
  · exact hxc ▸ hnew (hset i hs.held)
  · exact hset x (hs.held_before hx hxc)

/-- The meaning of every text is put together from those of its marks. -/
theorem meant (hs : Spliced write p q view meaning i c a m b m') (h : p.Linked letters write view meaning) (hx : q.holds x = true) :
    (if x = c then Line.expand write meaning m' else meaning x) =
      Line.expand write (fun x => if x = c then Line.expand write meaning m' else meaning x)
        (if x = c then m' else if x = i then a ++ .ref c :: b else view x) := by
  by_cases hxc : x = c
  · rw [if_pos hxc, if_pos hxc, hs.expand_line h hs.within]
  · rw [if_neg hxc, if_neg hxc]
    split
    · rename_i hxi
      have hwi := h.within i hs.held
      rw [hxi, h.meant i hs.held, hs.line, Line.expand_append, Line.expand_append, Line.expand_append, Line.expand_cons,
        hs.expand_line h (hwi.subset hs.left_subset), hs.expand_line h (hwi.subset hs.right_subset), Mark.expand, if_pos rfl,
        hs.expand_eq, List.append_assoc]
    · have hxp := hs.held_before hx hxc
      rw [h.meant x hxp, hs.expand_line h (h.within x hxp)]

/-- A part of a line may be replaced by the token of a cell for it, be it new or not. -/
theorem linked (hs : Spliced write p q view meaning i c a m b m') (h : p.Linked [] write view meaning) :
    q.Linked [] write (fun x => if x = c then m' else if x = i then a ++ .ref c :: b else view x)
      (fun x => if x = c then Line.expand write meaning m' else meaning x) where
  sound := hs.sound
  rooted := Nat.lt_of_lt_of_le h.rooted hs.grows
  within x hx := hs.within_view h hx
  ranked := hs.ranked h
  covered S hroot hclosed x hx := .inl (hs.covered h S hroot hclosed hx)
  meant x hx := hs.meant h hx
  pointed k hk := by
    rcases hs.news k hk with hk | hk
    · rw [hs.resolve k hk, hs.meaning_eq h (lt_of_holds (h.sound.holds_resolve hk)), hs.meaning_eq h hk]
      exact h.pointed k hk
    · rw [hk, resolve_of_holds hs.holds_new]

end Spliced

end FormulaDag.Pool
