import FormulaDag.Contexts.OfSource
import FormulaDag.Proofs.Pool.Binding
import FormulaDag.Proofs.Pool.Canonical
import FormulaDag.Proofs.Pool.Reduction
import FormulaDag.Proofs.Pool.Ungrouped

/-!
# The pool of a source text

The passes one after the other. A well-formed source text has nested groups and no character that begins a token, so the pool that it
is taken apart into stands for it from the first pass on.
-/

namespace FormulaDag

namespace Source

/-- A source text without a fault is not empty, holds no sign of a token, and its groups are nested. -/
theorem facts_of_fault? {s : RuleSet} {letters : List Char} {t : Text} (h : fault? s letters t = none) :
    t ≠ [] ∧ '@' ∉ t ∧ (Line.ofText t).Nested := by
  unfold fault? at h
  split at h
  · simp at h
  · rename_i hne
    split at h
    · simp at h
    · rename_i hchars
      split at h
      · simp at h
      · rename_i hgroups
        refine ⟨hne, fun hat => ?_, nested_of_groupFault_eq_none hgroups⟩
        have := List.find?_eq_none.1 hchars '@' hat
        simp [isSourceChar] at this

/-- Declared variables are distinct lowercase letters. -/
theorem declare_facts {s : RuleSet} {names : List Text} {letters : List Char} (h : declare s names = .ok letters) :
    letters.Nodup ∧ ∀ l ∈ letters, l.isLower = true := by
  have hafter : ∀ (names : List Text) (declared : List Char), declared.Nodup → (∀ l ∈ declared, l.isLower = true) →
      declareAfter s declared names = .ok letters → letters.Nodup ∧ ∀ l ∈ letters, l.isLower = true := by
    intro names
    induction names with
    | nil =>
      intro declared hdistinct hlower h
      rw [declareAfter, Except.ok.injEq] at h
      exact h ▸ ⟨hdistinct, hlower⟩
    | cons name names ih =>
      intro declared hdistinct hlower h
      rw [declareAfter] at h
      split at h
      · rename_i c hc
        have hfacts : c.isLower = true ∧ c ∉ declared := by
          unfold letter? at hc
          split at hc
          · rename_i d
            rw [Option.ite_none_right_eq_some] at hc
            obtain ⟨hcond, hdc⟩ := hc
            rw [← Option.some.inj hdc]
            simp only [Bool.and_eq_true, Bool.not_eq_true', List.contains_eq_mem, decide_eq_false_iff_not] at hcond
            exact hcond.1
          · simp at hc
        refine ih (declared ++ [c]) ?_ ?_ h
        · rw [List.nodup_append]
          refine ⟨hdistinct, by simp, fun a ha b hb => ?_⟩
          rw [List.mem_singleton.1 hb]
          rintro rfl
          exact hfacts.2 ha
        · intro l hl
          rcases List.mem_append.1 hl with hl | hl
          · exact hlower l hl
          · exact List.mem_singleton.1 hl ▸ hfacts.1
      · simp at h
  exact hafter names [] .nil (by simp) h

end Source

namespace Pool

theorem Pending.plain {write : Char → Text} {goal : Text} {p : Pool} (h : Pending write goal [] p) : Plain [] write goal p where
  stands := h.stands
  plain x hx := by
    obtain ⟨n, s, -, htext, hs⟩ := h.grouped x hx
    rw [← htext, isPlain_text_iff]
    rcases hs with hs | ⟨hmem, -⟩
    · exact ⟨hs.nonempty, hs.free⟩
    · simp at hmem

section
variable {s : RuleSet} {t : Text} {p : Pool} {letters : List Char} {write : Char → Text}

/-- Every pass leaves at least as many cells as there were. -/
theorem length_le_ofSource (h : ofSource s t = .ok p) : (ofBraces t).withoutGroups.cells.length ≤ p.cells.length := by
  obtain ⟨q, hq, rfl⟩ := map_eq_ok.1 h
  rw [length_cells_canonical]
  refine Nat.le_trans ?_ (length_le_reduceQueue hq)
  rw [ofGroups, length_cells_canonical]

/-- The pool of a nested text without its groups stands for that text. -/
theorem plain_ofGroups (hnested : (Line.ofText t).Nested) (hne : t ≠ []) (hat : '@' ∉ t)
    (hwrite : ∀ c ∈ ['(', ')', '{', '}'], write c = []) :
    Plain [] write (t.flatMap write) (ofGroups t) ∧ ∀ x, Tidied (ofGroups t) x := by
  have hparentheses : ∀ c ∈ ['(', ')'], write c = [] := fun c hc => hwrite c (List.mem_append_left ['{', '}'] hc)
  have hpending := (Pending.ofBraces hwrite hnested hne hat).withoutGroups hparentheses
  exact hpending.plain.canonical (by simp)

/-- The pool of a source text without fault stands for that text, and no text refers to a pointer. -/
theorem plain_and_tidied_ofSource (h : ofSource s t = .ok p) (hfault : Source.fault? s letters t = none)
    (hwrite : ∀ c ∈ ['(', ')', '{', '}'], write c = []) :
    Plain [] write (t.flatMap write) p ∧ ∀ x, Tidied p x := by
  obtain ⟨hne, hat, hnested⟩ := Source.facts_of_fault? hfault
  have hplain := (plain_ofGroups hnested hne hat hwrite).1
  obtain ⟨q, hq, rfl⟩ := map_eq_ok.1 h
  exact (hplain.reduce hq).canonical (by simp)

/-- The pool of a source text without fault stands for that text. -/
theorem plain_ofSource (h : ofSource s t = .ok p) (hfault : Source.fault? s letters t = none)
    (hwrite : ∀ c ∈ ['(', ')', '{', '}'], write c = []) : Plain [] write (t.flatMap write) p :=
  (plain_and_tidied_ofSource h hfault hwrite).1

/-- With its variables bound and canonical, the pool still stands for the text. -/
theorem plain_bound (h : ofSource s t = .ok p) (hfault : Source.fault? s letters t = none) {names : List Text}
    (hletters : Source.declare s names = .ok letters) (hwrite : ∀ c ∈ ['(', ')', '{', '}'], write c = [])
    (heuler : 'e' ∈ letters → Symbol.eulerNumber.flatMap write = write 'e') :
    Plain letters write (t.flatMap write) (p.bindLetters s.functionNames letters).canonical ∧
      ∀ x, Tidied (p.bindLetters s.functionNames letters).canonical x := by
  obtain ⟨hdistinct, hlower⟩ := Source.declare_facts hletters
  have hplain := plain_ofSource h hfault hwrite
  exact (hplain.bindLetters s.functionNames letters hlower hdistinct heuler).canonical
    fun l hl => (letterText_facts (hlower l hl)).2.1

end

end Pool

end FormulaDag
