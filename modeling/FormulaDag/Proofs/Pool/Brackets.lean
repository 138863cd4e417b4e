import FormulaDag.Proofs.Pool.SourceTree
import FormulaDag.Proofs.Source.Brackets

/-!
# What brackets hold in a pool

The texts of a pool without groups are read off the tree of its source text, so their brackets hold what those of the tree hold: innermost
brackets hold a single token, and all brackets do just when none opens directly inside another one in the source text.
-/

namespace FormulaDag

namespace Line
variable {n : Nat} {val : Nat → Tree} {s : Line}

/-- A character that is in no token divides a line where it divides the text. -/
theorem exists_eq_append_char {c : Char} (hdigit : c.isDigit = false) (hat : c ≠ '@') (hslash : c ≠ '/') {a b : Text}
    (h : s.text = a ++ c :: b) : ∃ x y : Line, s = x ++ .char c :: y ∧ x.text = a ∧ y.text = b := by
  induction s generalizing a with
  | nil => simp at h
  | cons m s ih =>
    rw [text_cons] at h
    rcases List.append_eq_append_iff.1 h with ⟨z, rfl, hz⟩ | ⟨z, hm, hz⟩
    · obtain ⟨x, y, rfl, rfl, rfl⟩ := ih hz
      exact ⟨m :: x, y, rfl, text_cons m x, rfl⟩
    · cases z with
      | nil =>
        obtain ⟨x, y, rfl, hx, rfl⟩ := ih (a := []) hz.symm
        exact ⟨m :: x, y, rfl, by rw [text_cons, hx, hm, List.append_nil, List.append_nil], rfl⟩
      | cons d z =>
        obtain ⟨rfl, rfl⟩ := List.cons.inj hz
        cases m with
        | ref k => exact absurd (by rw [show Index.token k = _ from hm]; simp) (not_mem_token hdigit hat hslash k)
        | char d =>
          rw [Mark.text] at hm
          cases a with
          | nil =>
            obtain ⟨rfl, rfl⟩ := List.cons.inj hm
            exact ⟨[], s, rfl, rfl, rfl⟩
          | cons d' a => simp at hm

/-- A line that is written as a token is that token. -/
theorem Within.eq_ref (h : s.Within n) {k : Nat} (htext : s.text = Index.token k) : s = [.ref k] :=
  h.text_injective (.ref k.lt_succ_self) (by rw [htext, text_cons, text_nil, List.append_nil, Mark.text])

/-- A tree and a closing bracket are written as a token and that bracket. -/
theorem Within.filled_parts (h : s.Within n) : Parts.Filled (s.parts val) ↔ ∃ k t, k < n ∧ s.text = Index.token k ++ ']' :: t := by
  constructor
  · rintro ⟨w, v, hparts⟩
    obtain ⟨m, l, rfl, hm, hl⟩ := List.map_eq_cons_iff.1 hparts
    obtain ⟨m', l, rfl, hm', -⟩ := List.map_eq_cons_iff.1 hl
    cases m with
    | char c => cases hm
    | ref k =>
      cases m' with
      | ref k' => cases hm'
      | char c =>
        obtain rfl := Sum.inl.inj hm'
        exact ⟨k, text l, h.refs k (by simp), by simp [Mark.text]⟩
  · rintro ⟨k, t, -, htext⟩
    obtain ⟨x, y, rfl, hx, rfl⟩ := exists_eq_append_char (by decide) (by decide) (by decide) htext
    obtain rfl := (h.subset (List.subset_append_left x _)).eq_ref hx
    exact ⟨val k, y.parts val, rfl⟩

/-- Where a single tree stands before a closing bracket, it is written as a token. -/
theorem Within.settled_parts (h : s.Within n) (hs : Parts.Settled (s.parts val)) {w t : Text} (htext : s.text = w ++ ']' :: t) (hopen : '[' ∉ w)
    (hclose : ']' ∉ w) : ∃ k, k < n ∧ w = Index.token k := by
  obtain ⟨x, y, rfl, rfl, rfl⟩ := exists_eq_append_char (by decide) (by decide) (by decide) htext
  obtain ⟨v, hv⟩ := hs (x.parts val) (y.parts val) (by simp [Mark.part]) (fun hmem => hopen (mem_text (inl_mem_parts.1 hmem)))
    fun hmem => hclose (mem_text (inl_mem_parts.1 hmem))
  obtain ⟨m, rfl, hm⟩ := List.map_eq_singleton_iff.1 hv
  cases m with
  | char c => cases hm
  | ref k => exact ⟨k, h.refs k (by simp), by simp [Mark.text]⟩

end Line

namespace Pool

section
variable {p : Pool} {val : Nat → Tree} {P : Parts → Prop}

/-- The nodes of the root's tree are the lines of the cells. -/
theorem Denotes.every_iff {write : Char → Text} {goal : Text} (h : p.Denotes [] [] val) (hstands : Stands [] write goal p) :
    (val Index.root).Every P ↔ ∀ x s, p.Writes x s → P (s.parts val) := by
  obtain ⟨view, meaning, hlinked, hreads, -⟩ := hstands
  have hview : ∀ {x s}, p.Writes x s → view x = s := fun {x s} hs =>
    (hlinked.within x hs.held).text_injective hs.within ((hreads x hs.held).symm.trans hs.text)
  have hnode : ∀ {x s}, p.Writes x s → val x = .node (s.parts val) := fun hs => (h.eq_tree hs).trans (Line.tree_of_freed (by simp))
  rw [← h.pointed _ hlinked.rooted]
  constructor
  · intro hroot x s hs
    have hx := hlinked.covered (fun x => (val x).Every P) hroot (fun y hy hevery k hk => ?_) x hs.held
    · rw [hnode hs] at hx
      exact (Tree.every_node.1 (hx.resolve_right (by simp))).1
    · obtain ⟨u, hu, -⟩ := h.meant y hy
      rw [hview hu] at hk
      simp only [hnode hu] at hevery
      rw [h.pointed k (hu.within.refs k hk)]
      exact (Tree.every_node.1 hevery).2 _ (List.mem_map_of_mem hk)
  · intro hall
    obtain ⟨rank, hrank⟩ := hlinked.ranked
    -- a line refers to cells of a lower rank
    suffices hevery : ∀ x, p.holds x = true → (val x).Every P from hevery _ (h.sound.holds_resolve hlinked.rooted)
    intro x hx
    induction hlevel : rank x using Nat.strong_induction_on generalizing x with
    | _ level ih =>
      obtain ⟨s, hs, -⟩ := h.meant x hx
      rw [hnode hs]
      refine .node (hall x s hs) fun w hw => ?_
      obtain ⟨m, hm, hpart⟩ := List.mem_map.1 hw
      cases m with
      | char c => cases hpart
      | ref k =>
        have hk := hs.within.refs k hm
        rw [← Sum.inr.inj hpart, ← h.pointed k hk]
        exact ih _ (hlevel ▸ hrank x hx k (hview hs ▸ hm)) _ (h.sound.holds_resolve hk) rfl

/-- What follows the brackets in the parts of a line follows them in its text. -/
theorem atBrackets_iff {Q : Parts → Prop} {s : Line} : Parts.AtBrackets Q (s.parts val) ↔
    ∀ x y : Line, s = x ++ .char '[' :: y → Q (y.parts val) := by
  constructor
  · rintro h x y rfl
    exact h (x.parts val) (y.parts val) (by simp [Mark.part])
  · intro h a b hparts
    obtain ⟨x, l, rfl, rfl, hl⟩ := List.map_eq_append_iff.1 hparts
    obtain ⟨m, y, rfl, hm, rfl⟩ := List.map_eq_cons_iff.1 hl
    cases m with
    | char c => exact h x y (by rw [Sum.inl.inj hm])
    | ref k => cases hm

end

/-- When the groups of a source text without fault have been taken apart, every innermost pair of brackets holds a single token. Every
bracket that opens is followed by a single token and the bracket that closes just when none opens directly inside another one in the
source. -/
theorem token_in_brackets {r : RuleSet} {letters : List Char} {t : Text} {p : Pool} (hfault : Source.fault? r letters t = none)
    (hp : (ofBraces t).withoutGroups = p) (hsmall : p.cells.length ≤ Index.bound) :
    (∀ i, p.holds i = true → ∀ a w b, p.text i = a ++ '[' :: (w ++ ']' :: b) → '[' ∉ w → ']' ∉ w →
        ∃ k, k < p.cells.length ∧ w = Index.token k) ∧
      ((∀ i, p.holds i = true → ∀ a b, p.text i = a ++ '[' :: b → ∃ k b', k < p.cells.length ∧ b = Index.token k ++ ']' :: b') ↔
        Source.apart [] t = true) := by
  obtain ⟨hne, hat, hnested⟩ := Source.facts_of_fault? hfault
  have hwrite : ∀ c ∈ ['(', ')', '{', '}'], (fun _ => [] : Char → Text) c = [] := fun _ _ => rfl
  subst hp
  have hbraces : (ofBraces t).cells.length ≤ Index.bound :=
    Nat.le_trans (Nat.le_trans (Growth.length_le_foldl _ ⟨_, []⟩) (Growth.length_le_foldl _ ⟨_, []⟩)) hsmall
  have hpending := Pending.ofBraces hwrite hnested hne hat
  obtain ⟨_, _, hvalued, hrooted, hroot⟩ := exists_valued_ofBraces hnested hne hat hbraces
  obtain ⟨val, hdenotes, hroot'⟩ := hvalued.withoutGroups (fun c hc => rfl) hpending hrooted hsmall
  have hstands := (hpending.withoutGroups fun c hc => rfl).stands
  generalize (ofBraces t).withoutGroups = p at *
  have htree : ∀ P, (Source.tree t).Every P ↔ ∀ x s, p.Writes x s → P (s.parts val) := fun P => by
    rw [← hdenotes.every_iff hstands, hroot', hroot]
  have hcut : ∀ {i : Nat} {a b : Text}, p.holds i = true → p.text i = a ++ '[' :: b →
      ∃ x y : Line, p.Writes i (x ++ .char '[' :: y) ∧ y.Within p.cells.length ∧ y.text = b := by
    intro i a b hi htext
    obtain ⟨s, hs, -⟩ := hdenotes.meant i hi
    obtain ⟨x, y, rfl, -, rfl⟩ := Line.exists_eq_append_char (by decide) (by decide) (by decide) (hs.text.symm.trans htext)
    exact ⟨x, y, hs, hs.within.subset fun m hm => by simp [hm], rfl⟩
  refine ⟨fun i hi a w b htext hopen hclose => ?_, ?_⟩
  · obtain ⟨x, y, hs, hy, htext⟩ := hcut hi htext
    have hsettled := (htree _).1 (Source.tree_settled t) i _ hs
    exact hy.settled_parts (atBrackets_iff.1 hsettled x y rfl) htext hopen hclose
  · rw [← Source.every_tree_iff hnested hne, htree]
    constructor
    · intro hall i s hs
      refine atBrackets_iff.2 fun x y hxy => ?_
      subst hxy
      refine (Line.Within.filled_parts (hs.within.subset fun m hm => by simp [hm])).2 (hall i hs.held x.text y.text ?_)
      rw [hs.text]
      simp [Mark.text]
    · intro hall i hi a b htext
      obtain ⟨x, y, hs, hy, rfl⟩ := hcut hi htext
      exact hy.filled_parts.1 (atBrackets_iff.1 (hall i _ hs) x y rfl)

/-- The degree of a root may hold a fraction and, in braces, a root with a degree of its own. -/
theorem token_in_brackets_degree : ∃ (t : Text) (p : Pool), Source.fault? .standard ['x'] t = none ∧ (ofBraces t).withoutGroups = p ∧
    p.cells.length ≤ Index.bound ∧ p.text Index.root = "\\sqrt[@/5/@]@/1/@".toList ∧ ∀ i, p.holds i = true → ∀ a b,
      p.text i = a ++ '[' :: b → ∃ k b', k < p.cells.length ∧ b = Index.token k ++ ']' :: b' := by
  have hfault : Source.fault? .standard ['x'] "\\sqrt[\\frac\x7b(x)\x7d\x7b2\x7d+\x7b\\sqrt[2+1]\x7b(8)\x7d\x7d]\x7bx\x7d".toList = none := by
    decide +kernel
  have hp : (ofBraces "\\sqrt[\\frac\x7b(x)\x7d\x7b2\x7d+\x7b\\sqrt[2+1]\x7b(8)\x7d\x7d]\x7bx\x7d".toList).withoutGroups =
      ⟨["\\sqrt[@/5/@]@/1/@", "x", "2", "8", "\\sqrt[@/6/@]@/3/@", "\\frac@/1/@@/2/@+@/4/@", "2+1"].map fun t => .holding t.toList,
        [("\\sqrt[@/6/@]@/3/@", 4), ("2+1", 6), ("\\sqrt[@/5/@]@/1/@", 0), ("\\frac@/1/@@/2/@+@/4/@", 5), ("8", 3), ("2", 2),
          ("x", 1)].map fun e => (e.1.toList, e.2)⟩ := by
    decide +kernel
  exact ⟨_, _, hfault, hp, by decide, by decide +kernel, (token_in_brackets hfault hp (by decide)).2.2 (by decide +kernel)⟩

/-- A root in the degree of a root, without braces around it, leaves a bracket that is not followed by a token. -/
theorem exists_bracket_unfilled : ∃ (t : Text) (i : Nat) (a b : Text), Source.fault? .standard ['x'] t = none ∧
    (ofBraces t).withoutGroups.cells.length ≤ Index.bound ∧ (ofBraces t).withoutGroups.holds i = true ∧
      (ofBraces t).withoutGroups.text i = a ++ '[' :: b ∧ ∀ k b', b ≠ Index.token k ++ ']' :: b' := by
  have hp : (ofBraces "\\sqrt[\\sqrt[3]\x7b8\x7d+1]\x7bx\x7d".toList).withoutGroups =
      ⟨["\\sqrt[\\sqrt[@/3/@]@/1/@+1]@/2/@", "8", "x", "3"].map fun t => .holding t.toList,
        [("\\sqrt[\\sqrt[@/3/@]@/1/@+1]@/2/@", 0), ("3", 3), ("x", 2), ("8", 1)].map fun e => (e.1.toList, e.2)⟩ := by
    decide +kernel
  refine ⟨"\\sqrt[\\sqrt[3]\x7b8\x7d+1]\x7bx\x7d".toList, Index.root, "\\sqrt".toList, "\\sqrt[@/3/@]@/1/@+1]@/2/@".toList,
    by decide +kernel, ?_, ?_, ?_, fun k b' => ?_⟩
  · rw [hp]
    decide
  · rw [hp]
    rfl
  · rw [hp]
    decide +kernel
  · rw [Index.token_eq]
    simp

end Pool

end FormulaDag
