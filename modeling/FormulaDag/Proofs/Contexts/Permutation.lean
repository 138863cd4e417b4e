import FormulaDag.Proofs.Contexts.Counterparts

/-!
# Contexts under another order of the variables

Binding the variables of a pool in two orders takes different ways, through different merges, to pools whose cells unfold to the same
trees. In a canonical pool with all variables bound no two cells have the same tree, so cells of the same tree correspond to each other
and the contexts are the same up to their numbers.
-/

namespace FormulaDag

open Contexts (Renumbered)

namespace Pool

/-- A canonical pool in which all variables have been bound. -/
structure Complete (names : List Text) (letters : List Char) (n : Nat) (base : Nat → Tree) (meaning : Nat → Tree) (p : Pool) : Prop where
  grown : p.Grown names letters n base letters letters meaning
  tidied : ∀ x, Tidied p x
  ranked : ∃ rank : Nat → Nat, ∀ x s, p.Writes x s → ∀ k, .ref k ∈ s → rank (p.resolve k) < rank x
  rooted : Index.root < n
  small : p.cells.length ≤ Index.bound

namespace Complete
variable {names : List Text} {letters : List Char} {n : Nat} {base meaning meaning' : Nat → Tree} {p p' : Pool}

/-- The tree of a cell is made of the marks of its line, for no letter is left to be bound. -/
theorem ripe (h : p.Complete names letters n base meaning) : p.Ripe meaning where
  sound := h.grown.denotes.sound
  written x hx := (h.grown.denotes.meant x hx).imp fun _ hs => hs.1
  eq_node x s hs := (h.grown.denotes.eq_tree hs).trans (Line.tree_of_freed fun c hc => h.grown.freed c hc x s hs)
  pointed := h.grown.denotes.pointed
  tidied := h.tidied
  ranked := h.ranked
  rooted := Nat.lt_of_lt_of_le h.rooted h.grown.larger
  small := h.small

/-- Every cell of one pool has a cell of the other with the same tree. -/
theorem covered (h : p.Complete names letters n base meaning) (h' : p'.Complete names letters n base meaning') :
    Covered p p' meaning meaning' := by
  intro x hx
  have hother : ∃ z, z < p'.cells.length ∧ meaning x = meaning' z := by
    by_cases hxn : x < n
    · exact ⟨x, Nat.lt_of_lt_of_le hxn h'.grown.larger, (h.grown.kept x hxn).trans (h'.grown.kept x hxn).symm⟩
    · obtain ⟨c, hc, hmeaning⟩ := h.grown.fresh x (Nat.le_of_not_lt hxn) (lt_of_holds hx)
      obtain ⟨z, hz, hmeaning'⟩ := h'.grown.cells c hc
      exact ⟨z, hz, hmeaning.trans hmeaning'.symm⟩
  obtain ⟨z, hz, heq⟩ := hother
  exact ⟨p'.resolve z, h'.ripe.sound.holds_resolve hz, heq.trans (h'.grown.denotes.pointed z hz).symm⟩

/-- Pools that were completed in different orders are frozen into contexts that differ in their numbers only. -/
theorem renumbered (h : p.Complete names letters n base meaning) (h' : p'.Complete names letters n base meaning') :
    Renumbered (SameTree p p' meaning meaning') p.toContexts p'.toContexts :=
  h.ripe.renumbered h'.ripe ((h.grown.kept _ h.rooted).trans (h'.grown.kept _ h'.rooted).symm) (h.covered h') (h'.covered h)

end Complete

section
variable {s : RuleSet} {names : List Text} {letters letters' : List Char} {base : Nat → Tree} {p : Pool}

/-- Binding variables in another order makes a pool grow in the same way. -/
theorem Denotes.exists_grown (h : p.Denotes s.functionNames letters base) (hletters : Source.declare s names = .ok letters')
    (hperm : letters'.Perm letters) :
    ∃ meaning, (p.bindLetters s.functionNames letters').Grown s.functionNames letters p.cells.length base letters letters meaning := by
  obtain ⟨hdistinct, hlower⟩ := Source.declare_facts hletters
  have hstart : p.Grown s.functionNames letters p.cells.length base [] [] base :=
    ⟨h, by simp, fun _ _ => rfl, fun x hx hlt => absurd hlt (Nat.not_lt.2 hx), by simp, by simp⟩
  obtain ⟨meaning, hgrown⟩ := hstart.bindLetters s.word_of_mem_functionNames (fun l hl => hlower l (hperm.mem_iff.2 hl)) letters'
    (fun l hl => hperm.mem_iff.1 hl) hdistinct
  exact ⟨meaning, hgrown.perm hperm hperm⟩

/-- The pool of a source text is complete once its variables have been bound and it has been made canonical. -/
theorem Denotes.exists_complete (h : p.Denotes s.functionNames letters base) {t : Text} (hp : ofSource s t = .ok p)
    (hfault : Source.fault? s letters' t = none) (hletters : Source.declare s names = .ok letters') (hperm : letters'.Perm letters)
    (hbound : (p.bindLetters s.functionNames letters').cells.length ≤ Index.bound) :
    ∃ meaning, (p.bindLetters s.functionNames letters').canonical.Complete s.functionNames letters p.cells.length base meaning := by
  obtain ⟨meaning, hgrown⟩ := h.exists_grown hletters hperm
  have hwrite : ∀ c ∈ ['(', ')', '{', '}'], (fun _ => [] : Char → Text) c = [] := fun _ _ => rfl
  have hplain := plain_ofSource hp hfault hwrite
  obtain ⟨⟨⟨view, _, hlinked, hreads, -⟩, -⟩, htidied⟩ := plain_bound hp hfault hletters hwrite fun _ => by simp
  obtain ⟨rank, hrank⟩ := hlinked.ranked
  obtain ⟨_, _, hstart, -, -⟩ := hplain.stands
  refine ⟨meaning, hgrown.canonical hbound, htidied, ⟨rank, fun x u hu k hk => hrank x hu.held k ?_⟩, hstart.rooted,
    by rwa [length_cells_canonical]⟩
  have hline : view x = u := (hlinked.within x hu.held).text_injective hu.within (by rw [← hreads x hu.held, hu.text])
  exact hline ▸ hk

end

end Pool

namespace Source

/-- The first fault of a source text does not depend on the order of the variables. -/
theorem fault?_perm (s : RuleSet) {letters letters' : List Char} (hperm : letters.Perm letters') (t : Text) :
    fault? s letters t = fault? s letters' t := by
  have hundeclared : undeclared? s letters t = undeclared? s letters' t := by
    simp only [undeclared?, hperm.contains_eq]
  have hnone : letters = [] ↔ letters' = [] := by
    rw [← List.length_eq_zero_iff, ← List.length_eq_zero_iff, hperm.length_eq]
  simp only [fault?, hundeclared, hnone]

end Source

namespace Contexts

variable {s : RuleSet} {names names' : List Text} {letters letters' : List Char} {source : Text} {c : Contexts}

theorem fault?_of_ofSource (h : ofSource s letters source = .ok c) :
    Source.fault? s letters (Source.stripBlanks s.functionNames source) = none := by
  unfold ofSource at h
  split at h
  · cases h
  · assumption

/-- As many contexts are created in any order of the variables. -/
theorem created_perm (hletters : Source.declare s names = .ok letters) (hletters' : Source.declare s names' = .ok letters')
    (hperm : letters.Perm letters') (hfault : Source.fault? s letters (Source.stripBlanks s.functionNames source) = none) :
    created s letters' source = created s letters source := by
  cases hp : Pool.ofSource s (Source.stripBlanks s.functionNames source) with
  | error fault => simp only [created, hp]
  | ok p =>
    have hcreated : ∀ l : List Char, created s l source = (p.bindLetters s.functionNames l).cells.length := fun l => by
      rw [created, hp]
    have hwrite : ∀ c ∈ ['(', ')', '{', '}'], (fun _ => [] : Char → Text) c = [] := fun _ _ => rfl
    have hplain := Pool.plain_ofSource hp hfault hwrite
    obtain ⟨base, hbase⟩ := hplain.exists_denotes s.functionNames letters
    obtain ⟨_, hgrown⟩ := hbase.exists_grown hletters (.refl _)
    obtain ⟨_, hgrown'⟩ := hbase.exists_grown hletters' hperm.symm
    rw [hcreated, hcreated, hgrown'.size, hgrown.size]

/-- A source text that has contexts in one order of the variables has them in another, under other numbers. -/
theorem ofSource_perm (hletters : Source.declare s names = .ok letters) (hletters' : Source.declare s names' = .ok letters')
    (hperm : letters.Perm letters') (hsmall : created s letters source ≤ Index.bound) (h : ofSource s letters source = .ok c) :
    ∃ c' ρ, ofSource s letters' source = .ok c' ∧ Renumbered ρ c c' := by
  have hfault := fault?_of_ofSource h
  have hfault' := Source.fault?_perm s hperm (Source.stripBlanks s.functionNames source) ▸ hfault
  have hsmall' := (created_perm hletters hletters' hperm hfault).trans_le hsmall
  rw [ofSource, hfault] at h
  obtain ⟨p, hp, rfl⟩ := map_eq_ok.1 (mapError_eq_ok.1 h)
  rw [created, hp] at hsmall hsmall'
  have hwrite : ∀ c ∈ ['(', ')', '{', '}'], (fun _ => [] : Char → Text) c = [] := fun _ _ => rfl
  have hplain := Pool.plain_ofSource hp hfault hwrite
  obtain ⟨base, hbase⟩ := hplain.exists_denotes s.functionNames letters
  obtain ⟨_, hcomplete⟩ := hbase.exists_complete hp hfault hletters (.refl _) hsmall
  obtain ⟨_, hcomplete'⟩ := hbase.exists_complete hp hfault' hletters' hperm.symm hsmall'
  refine ⟨_, _, ?_, hcomplete.renumbered hcomplete'⟩
  rw [ofSource, hfault']
  simp only
  rw [ofWellFormed, hp]
  rfl

end Contexts

end FormulaDag
