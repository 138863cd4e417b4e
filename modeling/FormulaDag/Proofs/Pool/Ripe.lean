import FormulaDag.Proofs.Pool.Trees

/-!
# Ripe pools

In a ripe pool the tree of a cell is made of the marks of its text, and no text refers to a pointer. So no two cells have the same tree,
and a pool whose root has the tree of another's root is mirrored in that one cell by cell.
-/

namespace FormulaDag.Pool

/-- A canonical pool in which every index stands for the tree of its text as it is. -/
structure Ripe (meaning : Nat → Tree) (p : Pool) : Prop where
  sound : p.Sound
  written : ∀ x, p.holds x = true → ∃ s, p.Writes x s
  eq_node : ∀ x s, p.Writes x s → meaning x = .node (s.map (Mark.part meaning))
  pointed : ∀ k, k < p.cells.length → meaning (p.resolve k) = meaning k
  tidied : ∀ x, Tidied p x
  ranked : ∃ rank : Nat → Nat, ∀ x s, p.Writes x s → ∀ k, .ref k ∈ s → rank (p.resolve k) < rank x
  rooted : Index.root < p.cells.length
  small : p.cells.length ≤ Index.bound

/-- A pool whose cells are found again in another one, with the same texts but for the indices. -/
structure Mirrors (f : Nat → Nat) (p p' : Pool) : Prop where
  pointed : ∀ k, k < p.cells.length → f (p.resolve k) = f k
  root : f Index.root = p'.resolve Index.root
  writes : ∀ x s, p.Writes x s → p'.Writes (f x) (s.map (Mark.relabel f))

theorem map_part_relabel (meaning : Nat → Tree) (f : Nat → Nat) (s : Line) :
    (s.map (Mark.relabel f)).map (Mark.part meaning) = s.map (Mark.part fun k => meaning (f k)) := by
  rw [List.map_map]
  refine List.map_congr_left fun m _ => ?_
  cases m <;> rfl

namespace Ripe
variable {meaning meaning' : Nat → Tree} {p p' : Pool} {x y : Nat} {s s' : Line}

/-- Lines refer to cells with texts. -/
theorem resolve_of_ref (h : p.Ripe meaning) (hs : p.Writes x s) {k : Nat} (hk : .ref k ∈ s) : p.resolve k = k := by
  have hheld : ∀ k, .ref k ∈ s → p.holds (p.resolve k) = true := fun k hk => h.sound.holds_resolve (hs.within.refs k hk)
  have hresolved := h.tidied x hs.held
  rw [resolved_eq hs.within h.small hs.text, hs.text] at hresolved
  have hline := (hs.within.map fun k hk => lt_of_holds (hheld k hk)).text_injective hs.within hresolved
  rw [← hline] at hk
  obtain ⟨j, hj, rfl⟩ := Line.ref_mem_map.1 hk
  exact resolve_of_holds (hheld j hj)

theorem holds_of_ref (h : p.Ripe meaning) (hs : p.Writes x s) {k : Nat} (hk : .ref k ∈ s) : p.holds k = true :=
  h.resolve_of_ref hs hk ▸ h.sound.holds_resolve (hs.within.refs k hk)

/-- Cells with the same tree have lines for the same parts. -/
theorem parts_eq (h : p.Ripe meaning) (h' : p'.Ripe meaning') (hs : p.Writes x s) (hs' : p'.Writes y s') (heq : meaning x = meaning' y) :
    s.map (Mark.part meaning) = s'.map (Mark.part meaning') := by
  rwa [h.eq_node x s hs, h'.eq_node y s' hs', Tree.node.injEq] at heq

/-- No two cells have the same tree. -/
theorem injective (h : p.Ripe meaning) (hx : p.holds x = true) (hy : p.holds y = true) (heq : meaning x = meaning y) : x = y := by
  obtain ⟨rank, hrank⟩ := h.ranked
  induction hr : rank x using Nat.strong_induction_on generalizing x y with
  | _ r ih =>
    subst hr
    obtain ⟨s, hs⟩ := h.written x hx
    obtain ⟨s', hs'⟩ := h.written y hy
    have hsame : List.Forall₂ Eq s s' := Line.forall₂_of_parts (h.parts_eq h hs hs' heq) (fun _ => rfl) fun k k' hk hk' heqk => by
      have hlt := hrank x s hs k hk
      rw [h.resolve_of_ref hs hk] at hlt
      rw [ih (rank k) hlt (h.holds_of_ref hs hk) (h.holds_of_ref hs' hk') heqk rfl]
    rw [List.forall₂_eq_eq_eq] at hsame
    exact h.sound.eq_of_text_eq hx hy (by rw [hs.text, hs'.text, hsame]) (by rw [hs.text]; exact Line.text_ne_nil hs.nonempty)

section
variable {letters : List Char} {write : Char → Text} {goal : Text}

/-- A cell that the root leads to has a counterpart in any pool whose root has the same tree. -/
theorem exists_counterpart (h : p.Ripe meaning) (hplain : Plain letters write goal p) (h' : p'.Ripe meaning')
    (hroot : meaning Index.root = meaning' Index.root) (hx : p.holds x = true) :
    (∃ y, p'.holds y = true ∧ meaning x = meaning' y) ∨ ∃ c ∈ letters, p.text x = letterText c := by
  obtain ⟨⟨view, _, hlinked, hreads, -⟩, -⟩ := hplain
  have hview : ∀ x s, p.Writes x s → view x = s := fun x s hs =>
    (hlinked.within x hs.held).text_injective hs.within ((hreads x hs.held).symm.trans hs.text)
  rw [hreads x hx]
  refine hlinked.covered (fun x => ∃ y, p'.holds y = true ∧ meaning x = meaning' y) ?_ (fun x hx hcounterpart k hk => ?_) x hx
  · exact ⟨p'.resolve Index.root, h'.sound.holds_resolve h'.rooted, by rw [h.pointed _ h.rooted, h'.pointed _ h'.rooted, hroot]⟩
  · obtain ⟨y, hy, heq⟩ := hcounterpart
    obtain ⟨s, hs⟩ := h.written x hx
    obtain ⟨s', hs'⟩ := h'.written y hy
    rw [hview x s hs] at hk
    obtain ⟨m', hm', hpart⟩ : ∃ m' ∈ s', Mark.part meaning' m' = Mark.part meaning (.ref k) :=
      List.mem_map.1 (h.parts_eq h' hs hs' heq ▸ List.mem_map_of_mem hk)
    cases m' with
    | char c => cases hpart
    | ref k' =>
      refine ⟨p'.resolve k', h'.sound.holds_resolve (hs'.within.refs k' hm'), ?_⟩
      rw [h.pointed k (hs.within.refs k hk), h'.pointed k' (hs'.within.refs k' hm')]
      exact (Sum.inr.inj hpart).symm

/-- A pool to which the root leads everywhere is mirrored in any pool whose root has the same tree. -/
theorem exists_mirror (h : p.Ripe meaning) (hplain : Plain [] write goal p) (h' : p'.Ripe meaning')
    (hroot : meaning Index.root = meaning' Index.root) : ∃ f, Mirrors f p p' ∧ ∀ k, k < p.cells.length → meaning' (f k) = meaning k := by
  have hcounterpart : ∀ x, ∃ y, p.holds x = true → p'.holds y = true ∧ meaning x = meaning' y := by
    intro x
    by_cases hx : p.holds x = true
    · obtain ⟨y, hy⟩ := (h.exists_counterpart hplain h' hroot hx).resolve_right (by simp)
      exact ⟨y, fun _ => hy⟩
    · exact ⟨0, fun hheld => absurd hheld hx⟩
  choose g hg using hcounterpart
  have hf : ∀ k, k < p.cells.length → p'.holds (g (p.resolve k)) = true ∧ meaning' (g (p.resolve k)) = meaning k := by
    intro k hk
    obtain ⟨hheld, heq⟩ := hg _ (h.sound.holds_resolve hk)
    exact ⟨hheld, by rw [← heq, h.pointed k hk]⟩
  refine ⟨fun k => g (p.resolve k), ⟨fun k hk => ?_, ?_, fun x s hs => ?_⟩, fun k hk => (hf k hk).2⟩
  · rw [resolve_of_holds (h.sound.holds_resolve hk)]
  · obtain ⟨hheld, heq⟩ := hf _ h.rooted
    refine h'.injective hheld (h'.sound.holds_resolve h'.rooted) ?_
    rw [heq, hroot, h'.pointed _ h'.rooted]
  · obtain ⟨hheld, heq⟩ := hf x (lt_of_holds hs.held)
    obtain ⟨s', hs'⟩ := h'.written _ hheld
    have hsame : List.Forall₂ (fun m m' => Mark.relabel (fun k => g (p.resolve k)) m = m') s s' :=
      Line.forall₂_of_parts (h.parts_eq h' hs hs' heq.symm) (fun _ => rfl) fun k k' hk hk' heqk => by
        obtain ⟨hheldk, heqk'⟩ := hf k (hs.within.refs k hk)
        exact congrArg Mark.ref (h'.injective hheldk (h'.holds_of_ref hs' hk') (heqk'.trans heqk))
    have hline : s.map (Mark.relabel fun k => g (p.resolve k)) = s' := by
      rw [← List.forall₂_eq_eq_eq, List.forall₂_map_left_iff]
      exact hsame
    exact hline ▸ hs'

end

end Ripe

namespace Mirrors
variable {f : Nat → Nat} {p p' : Pool} {names : List Text} {letters : List Char} {base : Nat → Tree}

/-- What the cells of a pool denote is seen in its mirror. -/
theorem denotes (h : Mirrors f p p') (hsound : p.Sound) (hwritten : ∀ x, p.holds x = true → ∃ s, p.Writes x s)
    (hbase : p'.Denotes names letters base) : p.Denotes names letters fun k => base (f k) where
  sound := hsound
  meant x hx := by
    obtain ⟨s, hs⟩ := hwritten x hx
    exact ⟨s, hs, by rw [hbase.eq_tree (h.writes x s hs), Line.tree_relabel]⟩
  pointed k hk := by rw [h.pointed k hk]

end Mirrors

section
variable {names : List Text} {letters : List Char} {write : Char → Text} {goal : Text} {meaning : Nat → Tree} {p : Pool}

theorem Plain.ranked (h : Plain letters write goal p) :
    ∃ rank : Nat → Nat, ∀ x s, p.Writes x s → ∀ k, .ref k ∈ s → rank (p.resolve k) < rank x := by
  obtain ⟨⟨view, _, hlinked, hreads, -⟩, -⟩ := h
  obtain ⟨rank, hrank⟩ := hlinked.ranked
  refine ⟨rank, fun x s hs k hk => hrank x hs.held k ?_⟩
  rwa [(hlinked.within x hs.held).text_injective hs.within ((hreads x hs.held).symm.trans hs.text)]

theorem Plain.rooted (h : Plain letters write goal p) : Index.root < p.cells.length :=
  let ⟨_, _, hlinked, _, _⟩ := h.stands
  hlinked.rooted

/-- A canonical pool without variables is ripe. -/
theorem Denotes.ripe (h : p.Denotes [] [] meaning) (hplain : Plain letters write goal p) (htidied : ∀ x, Tidied p x)
    (hsmall : p.cells.length ≤ Index.bound) : p.Ripe meaning where
  sound := h.sound
  written x hx := (h.meant x hx).imp fun _ hs => hs.1
  eq_node _ _ hs := (h.eq_tree hs).trans (Line.tree_of_freed (by simp))
  pointed := h.pointed
  tidied := htidied
  ranked := hplain.ranked
  rooted := hplain.rooted
  small := hsmall

/-- Making a pool canonical keeps what its cells denote. -/
theorem Denotes.canonical (h : p.Denotes names letters meaning) (hsmall : p.cells.length ≤ Index.bound) :
    p.canonical.Denotes names letters meaning := by
  have hgrown : p.Grown names letters p.cells.length meaning [] [] meaning :=
    ⟨h, by simp, fun _ _ => rfl, fun x hx hlt => absurd hlt (Nat.not_lt.2 hx), by simp, by simp⟩
  exact (hgrown.canonical hsmall).denotes

end

end FormulaDag.Pool
