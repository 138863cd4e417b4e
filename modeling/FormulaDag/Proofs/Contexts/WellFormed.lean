import FormulaDag.Proofs.Contexts.Frozen
import FormulaDag.Proofs.Contexts.Validation
import FormulaDag.Proofs.Pool.OfSource

/-!
# Well-formed contexts

The contexts of a source text form a directed acyclic graph in which equal subexpressions are shared. Every index on the way fits into
a token that can be read back as long as there are not too many, so this is what the theorem asks for.
-/

namespace FormulaDag.Contexts

/-- Contexts that form a maximally shared graph without groups: the indices are the numbers from zero on, every token names one of them,
no index refers to itself through any others, no two contexts are equal, and every index is reached from the root unless its context
stands for a variable. -/
structure WellFormed (letters : List Char) (c : Contexts) : Prop where
  dense : c.indices = List.range c.size
  named : ∀ i t, c.get? i = some t → ∀ number ∈ Token.numerals t, ∃ j ∈ c.indices, Index.read? number = some j
  acyclic : ∀ i, ¬ Relation.TransGen c.Refers i i
  distinct : ∀ i j t, c.get? i = some t → c.get? j = some t → i = j
  ungrouped : ∀ i t, c.get? i = some t → ∀ delimiter ∈ ['(', ')', '{', '}'], delimiter ∉ t
  reached : ∀ i t, c.get? i = some t →
    Relation.ReflTransGen c.Refers Index.root i ∨ ∃ letter ∈ letters, t = Pool.letterText letter

/-- The number of contexts that taking a source text apart creates. Contexts that are merged with others later count, for each takes an
index. -/
def created (s : RuleSet) (letters : List Char) (source : Text) : Nat :=
  match Pool.ofSource s (Source.stripBlanks s.functionNames source) with
  | .ok p => (p.bindLetters s.functionNames letters).cells.length
  | .error _ => 0

section
variable {letters : List Char} {write : Char → Text} {goal : Text} {lines : List Line}

/-- The context of an index is the line at its place. -/
theorem get?_eq_some {i : Nat} {t : Text} :
    (ofTexts (lines.map Line.text)).get? i = some t ↔ ∃ s, lines[i]? = some s ∧ t = Line.text s := by
  rw [get?_ofTexts, List.getElem?_map, Option.map_eq_some_iff]
  exact exists_congr fun s => and_congr_right fun _ => eq_comm

/-- The indices are the places of the lines. -/
theorem mem_indices_lines {i : Nat} : i ∈ (ofTexts (lines.map Line.text)).indices ↔ i < lines.length := by
  rw [indices_ofTexts, List.length_map, List.mem_range]

/-- A context refers to what stands in its line. -/
theorem refers_iff (h : Pool.Frozen letters write goal lines) {i j : Nat} :
    (ofTexts (lines.map Line.text)).Refers i j ↔ ∃ s, lines[i]? = some s ∧ .ref j ∈ s := by
  constructor
  · rintro ⟨t, ht, hj⟩
    obtain ⟨s, hs, rfl⟩ := get?_eq_some.1 ht
    exact ⟨s, hs, ((h.within i s hs).mem_references h.small).1 hj⟩
  · rintro ⟨s, hs, hj⟩
    exact ⟨Line.text s, get?_eq_some.2 ⟨s, hs, rfl⟩, ((h.within i s hs).mem_references h.small).2 hj⟩

/-- The tokens in a frozen line name lines. -/
theorem named_of_frozen (h : Pool.Frozen letters write goal lines) {i : Nat} {s : Line} (hs : lines[i]? = some s) {number : Text}
    (hnumber : number ∈ Token.numerals (Line.text s)) : ∃ j, j < lines.length ∧ Index.read? number = some j := by
  obtain ⟨k, hk, rfl⟩ := (h.within i s hs).numerals_eq hnumber
  have hlt := (h.within i s hs).refs k hk
  exact ⟨k, hlt, Index.read?_ofNat (Nat.lt_of_lt_of_le hlt h.small)⟩

/-- Frozen lines are well-formed contexts. -/
theorem wellFormed_of_frozen (h : Pool.Frozen letters write goal lines) : (ofTexts (lines.map Line.text)).WellFormed letters where
  dense := by rw [indices_ofTexts, size_ofTexts]
  named := by
    intro i t ht number hnumber
    obtain ⟨s, hs, rfl⟩ := get?_eq_some.1 ht
    obtain ⟨j, hj, hread⟩ := named_of_frozen h hs hnumber
    exact ⟨j, mem_indices_lines.2 hj, hread⟩
  acyclic := by
    obtain ⟨rank, hrank⟩ := h.ranked
    have hlt : ∀ i j, Relation.TransGen (ofTexts (lines.map Line.text)).Refers i j → rank j < rank i := by
      intro i j hij
      induction hij with
      | single hstep =>
        obtain ⟨s, hs, hk⟩ := (refers_iff h).1 hstep
        exact hrank _ s hs _ hk
      | tail _ hstep ih =>
        obtain ⟨s, hs, hk⟩ := (refers_iff h).1 hstep
        exact Nat.lt_trans (hrank _ s hs _ hk) ih
    exact fun i hi => Nat.lt_irrefl _ (hlt i i hi)
  distinct := by
    intro i j t hi hj
    obtain ⟨s, hs, rfl⟩ := get?_eq_some.1 hi
    obtain ⟨s', hs', htext⟩ := get?_eq_some.1 hj
    obtain rfl := (h.within i s hs).text_injective (h.within j s' hs') htext
    obtain ⟨hi, -⟩ := List.getElem?_eq_some_iff.1 hs
    exact (List.getElem?_inj hi h.distinct).1 (hs.trans hs'.symm)
  ungrouped := by
    intro i t ht
    obtain ⟨s, hs, rfl⟩ := get?_eq_some.1 ht
    exact (h.plain i s hs).2
  reached := by
    intro i t ht
    obtain ⟨s, hs, rfl⟩ := get?_eq_some.1 ht
    refine h.covered (Relation.ReflTransGen (ofTexts (lines.map Line.text)).Refers Index.root) .refl ?_ i s hs
    exact fun j s hs hj k hk => hj.tail ((refers_iff h).2 ⟨s, hs, hk⟩)

/-- Frozen lines meet every condition on contexts. -/
theorem validate_of_frozen (h : Pool.Frozen letters write goal lines) : (ofTexts (lines.map Line.text)).validate = .ok () := by
  have hw := wellFormed_of_frozen h
  have hroot : Index.root ∈ (ofTexts (lines.map Line.text)).indices := mem_indices_lines.2 h.rooted
  refine validate_eq_ok.2 ⟨fun hnil => ?_, hroot, hw.named, hw.acyclic⟩
  rw [indices, hnil] at hroot
  simp at hroot

end

/-- The contexts of a source text are frozen lines that mean the text. -/
theorem exists_frozen {s : RuleSet} {names : List Text} {letters : List Char} {source : Text} {c : Contexts}
    (hletters : Source.declare s names = .ok letters) {write : Char → Text} (hwrite : ∀ c ∈ ['(', ')', '{', '}'], write c = [])
    (heuler : 'e' ∈ letters → Symbol.eulerNumber.flatMap write = write 'e') (hsmall : created s letters source ≤ Index.bound)
    (h : ofSource s letters source = .ok c) :
    ∃ lines : List Line, c = ofTexts (lines.map Line.text) ∧
      Pool.Frozen letters write ((Source.stripBlanks s.functionNames source).flatMap write) lines := by
  unfold ofSource at h
  split at h
  · simp at h
  · rename_i hfault
    obtain ⟨p, hp, rfl⟩ := map_eq_ok.1 (mapError_eq_ok.1 h)
    have hbound : (p.bindLetters s.functionNames letters).cells.length ≤ Index.bound := by
      rw [created, hp] at hsmall
      exact hsmall
    obtain ⟨hplain, htidied⟩ := Pool.plain_bound hp hfault hletters hwrite heuler
    have hlower := (Source.declare_facts hletters).2
    exact hplain.frozen htidied (by rwa [Pool.length_cells_canonical]) fun l hl => (Pool.letterText_facts (hlower l hl)).2.1

/-- The contexts of a source text are well-formed. They meet every condition on contexts that are given from outside, and renumbering
leaves them as they are. -/
theorem wellFormed_ofSource {s : RuleSet} {names : List Text} {letters : List Char} {source : Text} {c : Contexts}
    (hletters : Source.declare s names = .ok letters) (hsmall : created s letters source ≤ Index.bound)
    (h : ofSource s letters source = .ok c) : c.WellFormed letters ∧ c.validate = .ok () ∧ c.compact = c := by
  have hwrite : ∀ c ∈ ['(', ')', '{', '}'], (fun _ => [] : Char → Text) c = [] := fun _ _ => rfl
  obtain ⟨lines, rfl, hfrozen⟩ := exists_frozen hletters hwrite (fun _ => by simp) hsmall h
  refine ⟨wellFormed_of_frozen hfrozen, validate_of_frozen hfrozen, if_pos ?_⟩
  simp [isDense, indices_ofTexts, size_ofTexts]

theorem pool_product : Pool.ofSource .standard "(x+x)*x".toList =
    .ok ⟨[.holding "@/1/@*x".toList, .holding "x+x".toList], [("@/1/@*x".toList, 0), ("x+x".toList, 1)]⟩ := by
  have hgroups : Pool.ofGroups "(x+x)*x".toList =
      ⟨[.holding "@/1/@*x".toList, .holding "x+x".toList], [("@/1/@*x".toList, 0), ("x+x".toList, 1)]⟩ := by decide +kernel
  have hreduce : Pool.reduce .standard
      ⟨[.holding "@/1/@*x".toList, .holding "x+x".toList], [("@/1/@*x".toList, 0), ("x+x".toList, 1)]⟩ =
      .ok ⟨[.holding "@/1/@*x".toList, .holding "x+x".toList], [("@/1/@*x".toList, 0), ("x+x".toList, 1)]⟩ := by decide +kernel
  have hcanonical : Pool.canonical
      ⟨[.holding "@/1/@*x".toList, .holding "x+x".toList], [("@/1/@*x".toList, 0), ("x+x".toList, 1)]⟩ =
      ⟨[.holding "@/1/@*x".toList, .holding "x+x".toList], [("@/1/@*x".toList, 0), ("x+x".toList, 1)]⟩ := by decide +kernel
  rw [Pool.ofSource, hgroups, hreduce, Except.map, hcanonical]

/-- The product has no blanks to strip. -/
theorem stripBlanks_product : Source.stripBlanks RuleSet.standard.functionNames "(x+x)*x".toList = "(x+x)*x".toList := by decide +kernel

/-- The contexts of a product of sums share their common parts. -/
theorem ofSource_product_eq : ofSource .standard ['x'] "(x+x)*x".toList =
    .ok (ofTexts ["@/1/@*@/2/@".toList, "@/2/@+@/2/@".toList, "x".toList]) := by
  have hfault : Source.fault? .standard ['x'] "(x+x)*x".toList = none := by decide +kernel
  have hfreeze : (Pool.bindLetters RuleSet.standard.functionNames ['x']
      ⟨[.holding "@/1/@*x".toList, .holding "x+x".toList], [("@/1/@*x".toList, 0), ("x+x".toList, 1)]⟩).freeze =
      ofTexts ["@/1/@*@/2/@".toList, "@/2/@+@/2/@".toList, "x".toList] := by cbv
  rw [ofSource, stripBlanks_product, hfault]
  simp only
  rw [ofWellFormed, pool_product, Except.map, hfreeze]
  rfl

/-- The passes on the product stay within the bound. -/
theorem created_product : created .standard ['x'] "(x+x)*x".toList ≤ Index.bound := by
  have hlength : (Pool.bindLetters RuleSet.standard.functionNames ['x']
      ⟨[.holding "@/1/@*x".toList, .holding "x+x".toList], [("@/1/@*x".toList, 0), ("x+x".toList, 1)]⟩).cells.length = 3 := by decide +kernel
  rw [created, stripBlanks_product, pool_product]
  simp only [hlength]
  decide

theorem declare_x : Source.declare .standard ["x".toList] = .ok ['x'] := by decide +kernel

theorem wellFormed_ofSource_product : ∃ c, ofSource .standard ['x'] "(x+x)*x".toList = .ok c ∧ c.WellFormed ['x'] ∧
    c.validate = .ok () ∧ c.compact = c :=
  ⟨_, ofSource_product_eq, wellFormed_ofSource declare_x created_product ofSource_product_eq⟩

end FormulaDag.Contexts
