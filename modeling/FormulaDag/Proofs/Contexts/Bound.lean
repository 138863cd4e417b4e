import FormulaDag.Proofs.Contexts.Permutation
import FormulaDag.Proofs.Pool.Draining
import FormulaDag.Proofs.Rule.Reducts

/-!
# Contexts and the texts before binding

Every context but those of the variables comes from a text in which all rules rest. What binding and numbering make of such a text is seen
mark by mark: unprotected letters of variables become tokens of their indices, other characters stay, and tokens get other numbers.
-/

namespace FormulaDag

/-- What may become of a mark, given with its protection, when variables are bound. `stands` relates a variable to its index. -/
inductive Mark.Becomes (letters : List Char) (stands : Char → Nat → Prop) : Mark × Bool → Mark → Prop where
  | char {c : Char} {isProtected : Bool} (h : c ∈ letters → isProtected = true) : Becomes letters stands (char c, isProtected) (char c)
  | letter {c : Char} {k : Nat} (hc : c ∈ letters) (hk : stands c k) : Becomes letters stands (char c, false) (ref k)
  | ref (k k' : Nat) (isProtected : Bool) : Becomes letters stands (ref k, isProtected) (ref k')

/-- What may become of a line when variables are bound. -/
def Line.Becomes (names : List Text) (letters : List Char) (stands : Char → Nat → Prop) (s s' : Line) : Prop :=
  List.Forall₂ (Mark.Becomes letters stands) (marked names s) s'

namespace Line.Becomes
variable {names : List Text} {letters : List Char} {stands stands' : Char → Nat → Prop} {meaning meaning' : Nat → Tree} {s s' : Line}

/-- Numbering the indices anew. -/
theorem relabel (h : Becomes names letters stands s s') {f : Nat → Nat}
    (hf : ∀ c ∈ letters, ∀ k, .ref k ∈ s' → stands c k → stands' c (f k)) : Becomes names letters stands' s (s'.map (Mark.relabel f)) := by
  rw [Becomes, List.forall₂_map_right_iff]
  refine (forall₂_mem h).imp fun e m hm => ?_
  obtain ⟨-, hmem, hm⟩ := hm
  cases hm with
  | char hc => exact .char hc
  | letter hc hk => exact .letter hc (hf _ hc _ hmem hk)
  | ref => exact .ref _ _ _

/-- A line whose marks stand for what its letters and indices stood for. -/
theorem of_parts (h : (marked names s).map (Mark.tree letters meaning) = s'.map (Mark.part meaning')) :
    Becomes names letters (fun c k => meaning' k = .letter c) s s' := by
  have hparts : List.Forall₂ (fun e m => Mark.tree letters meaning e = Mark.part meaning' m) (marked names s) s' := by
    have hmap : List.Forall₂ Eq ((marked names s).map (Mark.tree letters meaning)) (s'.map (Mark.part meaning')) :=
      List.forall₂_eq_eq_eq ▸ h
    rwa [List.forall₂_map_left_iff, List.forall₂_map_right_iff] at hmap
  refine hparts.imp fun e m hm => ?_
  obtain ⟨x, isProtected⟩ := e
  cases x with
  | ref k =>
    cases m with
    | char c => cases hm
    | ref k' => exact .ref k k' isProtected
  | char c =>
    rw [Mark.tree] at hm
    split at hm
    · rename_i hc
      obtain ⟨hc, rfl⟩ := hc
      cases m with
      | char d => cases hm
      | ref k => exact .letter hc (Sum.inr.inj hm).symm
    · rename_i hc
      cases m with
      | char d =>
        obtain rfl := Sum.inl.inj hm
        exact .char fun hmem => by_contra fun hnot => hc ⟨hmem, by simpa using hnot⟩
      | ref k => cases hm

end Line.Becomes

namespace Pool

section
variable {r : RuleSet} {text : Text} {letters : List Char} {p : Pool}

/-- All rules rest in the texts of a source text before its variables are bound. -/
theorem rests_ofSource (hp : ofSource r text = .ok p) (hfault : Source.fault? r letters text = none) (hsmall : p.cells.length ≤ Index.bound)
    {x : Nat} {s : Line} (hs : p.Writes x s) {e : Nat × Rule} (he : e ∈ r.numbered) : e.2.rests e.1 s.text = true := by
  obtain ⟨hne, hat, hnested⟩ := Source.facts_of_fault? hfault
  have hwrite : ∀ c ∈ ['(', ')', '{', '}'], (fun _ => [] : Char → Text) c = [] := fun _ _ => rfl
  have hplain := (plain_ofGroups hnested hne hat hwrite).1
  obtain ⟨q, hq, rfl⟩ := map_eq_ok.1 hp
  rw [length_cells_canonical] at hsmall
  obtain ⟨start, hstart⟩ := hplain.exists_denotes [] []
  have hsettled := Written.reduce ⟨hstart.sound, fun x hx => (hstart.meant x hx).imp fun _ h => h.1⟩ hq
  -- the cell had a text for the same parts before it was made canonical
  obtain ⟨base, hbase⟩ := (hplain.reduce hq).exists_denotes [] []
  have hx : x < q.cells.length := length_cells_canonical q ▸ lt_of_holds hs.held
  obtain ⟨u, hu, hmeaning⟩ := hbase.meant _ (hbase.sound.holds_resolve hx)
  have hparts : u.map (Mark.part base) = s.map (Mark.part base) := by
    have heq := (hbase.canonical hsmall).eq_tree hs
    rwa [← hbase.pointed x hx, hmeaning, Line.tree_of_freed (by simp), Line.tree_of_freed (by simp), Tree.node.injEq] at heq
  obtain ⟨huniform, hseparate⟩ := r.uniform_and_separate e he
  refine Rule.rests_along huniform hseparate (show u.Spells base _ from ⟨hu.within.mono hsmall, rfl⟩)
    ⟨hs.within.mono (length_cells_canonical q ▸ hsmall), hparts.symm⟩ ?_
  rw [← hu.text]
  exact hsettled.rests _ hu.held (by simp) e he

end

namespace Complete
variable {names : List Text} {letters : List Char} {base meaning : Nat → Tree} {p p' : Pool} {x : Nat} {s s' : Line}

/-- The cell of a variable has the text of that variable. -/
theorem eq_letterText (h : p'.Complete names letters p.cells.length base meaning) (hs' : p'.Writes x s') {c : Char} (hc : c ∈ letters)
    (hmeaning : meaning x = .letter c) : s' = .ofText (letterText c) := by
  rcases Line.eq_of_tree_eq_letter ((h.grown.denotes.eq_tree hs').symm.trans hmeaning) with rfl | rfl
  · obtain ⟨-, he⟩ := (h.grown.freed c hc x _ hs').resolve_right fun hne => hne.1 rfl
    rw [letterText, if_neg he]
    rfl
  · rfl

/-- A cell has the text of a variable, or what its text before became of it. -/
theorem becomes (h : p'.Complete names letters p.cells.length base meaning) (hp : p.Denotes names letters base) (hx : x < p.cells.length)
    (hs : p.Writes (p.resolve x) s) (hs' : p'.Writes (p'.resolve x) s') : (∃ c ∈ letters, s = [.char c] ∧ s' = .ofText (letterText c)) ∨
      s.Becomes names letters (fun c k => meaning k = .letter c) s' := by
  have hx' := Nat.lt_of_lt_of_le hx h.grown.larger
  have htree : meaning (p'.resolve x) = s.tree names letters base := by
    rw [h.grown.denotes.pointed x hx', h.grown.kept x hx, ← hp.pointed x hx, hp.eq_tree hs]
  cases hletter : s.letter? letters with
  | some c =>
    obtain ⟨hsc, hc⟩ := Line.letter?_eq_some.1 hletter
    rw [Line.tree, hletter] at htree
    exact .inl ⟨c, hc, hsc, h.eq_letterText hs' hc htree⟩
  | none =>
    rw [Line.tree, hletter, h.ripe.eq_node _ s' hs', Tree.node.injEq] at htree
    exact .inr (.of_parts htree.symm)

end Complete

end Pool

namespace Contexts

variable {s : RuleSet} {names : List Text} {letters : List Char} {source : Text} {c : Contexts}

/-- The contexts of a source text, each with the text before binding that it comes from. -/
structure Bound (s : RuleSet) (letters : List Char) (p p' : Pool) (base meaning : Nat → Tree) : Prop where
  denotes : p.Denotes s.functionNames letters base
  complete : p'.Complete s.functionNames letters p.cells.length base meaning
  rests : ∀ x u, p.Writes x u → ∀ e ∈ s.numbered, e.2.rests e.1 u.text = true

theorem exists_bound (hletters : Source.declare s names = .ok letters) (hsmall : created s letters source ≤ Index.bound)
    (h : ofSource s letters source = .ok c) : ∃ p p' base meaning,
      Pool.ofSource s (Source.stripBlanks s.functionNames source) = .ok p ∧ Bound s letters p p' base meaning ∧ c = p'.toContexts := by
  have hfault := fault?_of_ofSource h
  rw [ofSource, hfault] at h
  obtain ⟨p, hp, rfl⟩ := map_eq_ok.1 (mapError_eq_ok.1 h)
  rw [created, hp] at hsmall
  have hwrite : ∀ c ∈ ['(', ')', '{', '}'], (fun _ => [] : Char → Text) c = [] := fun _ _ => rfl
  have hpsmall := Nat.le_trans (Pool.length_le_bindLetters _ _ _) hsmall
  obtain ⟨base, hbase⟩ := (Pool.plain_ofSource hp hfault hwrite).exists_denotes s.functionNames letters
  obtain ⟨meaning, hcomplete⟩ := hbase.exists_complete hp hfault hletters (.refl _) hsmall
  exact ⟨p, _, base, meaning, hp, ⟨hbase, hcomplete, fun x u hu e he => Pool.rests_ofSource hp hfault hpsmall hu he⟩, rfl⟩

namespace Bound
variable {p p' : Pool} {base meaning : Nat → Tree} {x : Nat} {u u' : Line}

/-- The indices of variables have the texts of the variables. -/
theorem get?_label (h : Bound s letters p p' base meaning) {d : Char} (hd : d ∈ letters) {k : Nat}
    (hk : k < p'.cells.length) (hmeaning : meaning k = .letter d) : p'.toContexts.get? (p'.label k) = some (Pool.letterText d) := by
  have hripe := h.complete.ripe
  obtain ⟨u, hu⟩ := hripe.written _ (hripe.sound.holds_resolve hk)
  have hline := h.complete.eq_letterText hu hd ((hripe.pointed k hk).trans hmeaning)
  refine hripe.get?_toContexts.2 ⟨_, u, Pool.getElem?_label hripe.sound hripe.rooted hk, hu, ?_⟩
  rw [hline, Line.map_relabel_self (by simp [Line.ofText]), Line.text_ofText]

/-- What became of the text of a cell is the context with the number of the cell. -/
theorem becomes (h : Bound s letters p p' base meaning) (hx : x < p.cells.length)
    (hu : p.Writes (p.resolve x) u) (hu' : p'.Writes (p'.resolve x) u') :
    (∃ d ∈ letters, u = [.char d] ∧ u'.map (Mark.relabel p'.label) = Line.ofText (Pool.letterText d)) ∨
      u.Becomes s.functionNames letters (fun d k => p'.toContexts.get? k = some (Pool.letterText d)) (u'.map (Mark.relabel p'.label)) := by
  rcases h.complete.becomes h.denotes hx hu hu' with ⟨d, hd, hud, rfl⟩ | hbecomes
  · exact .inl ⟨d, hd, hud, Line.map_relabel_self (by simp [Line.ofText])⟩
  · exact .inr (hbecomes.relabel fun d hd k hk hmeaning => h.get?_label hd (hu'.within.refs k hk) hmeaning)

/-- Every context is that of a variable or comes from a text of the pool, in which all rules rest. -/
theorem exists_becomes (h : Bound s letters p p' base meaning) {i : Nat} {t : Text}
    (ht : p'.toContexts.get? i = some t) : (∃ d ∈ letters, t = Pool.letterText d) ∨
      ∃ (x : Nat) (u u' : Line), p.Writes x u ∧ u.Within Index.bound ∧ u'.Within Index.bound ∧ t = u'.text ∧
        (∀ e ∈ s.numbered, e.2.rests e.1 u.text = true) ∧
        u.Becomes s.functionNames letters (fun d k => p'.toContexts.get? k = some (Pool.letterText d)) u' := by
  have hripe := h.complete.ripe
  obtain ⟨x, u', hi, hu', rfl⟩ := hripe.get?_toContexts.1 ht
  by_cases hx : x < p.cells.length
  · have hself : p'.resolve x = x := Pool.resolve_of_holds hu'.held
    obtain ⟨u, hu, -⟩ := h.denotes.meant _ (h.denotes.sound.holds_resolve hx)
    rcases h.becomes hx hu (hself.symm ▸ hu') with ⟨d, hd, -, hline⟩ | hbecomes
    · exact .inl ⟨d, hd, by rw [hline, Line.text_ofText]⟩
    · exact .inr ⟨_, u, _, hu, hu.within.mono (h.complete.grown.larger.trans h.complete.small), hripe.within_map_label hu', rfl, h.rests _ u hu,
        hbecomes⟩
  · obtain ⟨d, hd, hmeaning⟩ := h.complete.grown.fresh x (Nat.le_of_not_lt hx) (Pool.lt_of_holds hu'.held)
    rw [h.complete.eq_letterText hu' hd hmeaning, Line.map_relabel_self (by simp [Line.ofText]), Line.text_ofText]
    exact .inl ⟨d, hd, rfl⟩

end Bound

end Contexts

end FormulaDag
