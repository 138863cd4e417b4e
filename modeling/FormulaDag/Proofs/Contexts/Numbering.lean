import Mathlib
import FormulaDag.Contexts.Basic

/-!
# Contexts numbered from zero on

Dense contexts are those of a list of texts, and the list says everything about them.
-/

namespace FormulaDag.Contexts

/-- A text of a numbered list is found under its number. -/
theorem lookup_zipIdx (l : List Text) (n i : Nat) :
    ((l.zipIdx n).map Prod.swap).lookup i = if n ≤ i then l[i - n]? else none := by
  induction l generalizing n with
  | nil => simp
  | cons t l ih =>
    rw [List.zipIdx_cons, List.map_cons, Prod.swap_prod_mk, List.lookup_cons, ih]
    by_cases hi : i = n
    · simp [hi]
    · rw [beq_eq_false_iff_ne.2 hi]
      by_cases hle : n + 1 ≤ i
      · rw [if_pos hle, if_pos (Nat.le_of_succ_le hle), show i - n = i - (n + 1) + 1 by omega, List.getElem?_cons_succ]
      · rw [if_neg hle, if_neg (by omega)]

/-- The context of an index is the text at its place in the list. -/
theorem get?_ofTexts (l : List Text) (i : Nat) : (ofTexts l).get? i = l[i]? :=
  (lookup_zipIdx l 0 i).trans (by simp)

/-- There are as many contexts as texts. -/
theorem size_ofTexts (l : List Text) : (ofTexts l).size = l.length := by simp [size, ofTexts]

/-- The indices of listed texts are the numbers below their count. -/
theorem indices_ofTexts (l : List Text) : (ofTexts l).indices = List.range l.length := by
  rw [indices, ofTexts, List.map_map, List.range_eq_range']
  exact List.zipIdx_map_snd 0 l

/-- The texts of contexts made from a list are that list. -/
theorem texts_ofTexts (l : List Text) : (ofTexts l).texts = l := by
  rw [texts, ofTexts, List.map_map]
  exact List.zipIdx_map_fst 0 l

theorem ext_entries {c c' : Contexts} (h : c.entries = c'.entries) : c = c' := by
  obtain ⟨entries, ascending⟩ := c
  obtain ⟨entries', ascending'⟩ := c'
  obtain rfl : entries = entries' := h
  rfl

/-- Contexts with the same entries are the same, since these are in ascending order. -/
theorem ext_mem {c c' : Contexts} (h : ∀ e, e ∈ c.entries ↔ e ∈ c'.entries) : c = c' := by
  have hnodup : ∀ c : Contexts, c.entries.Nodup := fun c => c.ascending.imp fun hlt heq => Nat.ne_of_lt hlt (congrArg Prod.fst heq)
  have hperm := (List.perm_ext_iff_of_nodup (hnodup c) (hnodup c')).2 h
  exact ext_entries (hperm.eq_of_pairwise (fun _ _ _ _ hlt hgt => absurd hlt (Nat.lt_asymm hgt)) c.ascending c'.ascending)

/-- Dense contexts are those of the list of their texts. -/
theorem ofTexts_texts {c : Contexts} (h : c.isDense = true) : ofTexts c.texts = c := by
  have hindices : c.entries.map Prod.fst = List.range' 0 c.entries.length := by
    rw [← List.range_eq_range']
    simpa [isDense, indices, size] using h
  refine ext_entries (List.ext_getElem (by simp [ofTexts, texts]) fun i hi hi' => ?_)
  have hfst := congrArg (fun l : List Nat => l[i]?) hindices
  simp only [List.getElem?_map, List.getElem?_eq_getElem hi', List.getElem?_range' hi', Option.map_some, Option.some.injEq] at hfst
  simp [ofTexts, texts, Prod.ext_iff, hfst]

end FormulaDag.Contexts
