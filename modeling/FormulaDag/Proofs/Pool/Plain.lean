import FormulaDag.Proofs.Pool.Draft
import FormulaDag.Proofs.Source.Nesting

/-!
# Plain pools

A text is plain when it is not empty and holds neither parentheses nor braces. Once the groups of a source have been taken apart all
texts of its pool are plain, and the later passes keep them so: what they put into a text is made of its own characters and of tokens.
-/

namespace FormulaDag.Pool

/-- A text that is not empty and holds no groups but brackets. -/
def IsPlain (t : Text) : Prop := t ≠ [] ∧ ∀ c ∈ ['(', ')', '{', '}'], c ∉ t

/-- A pool with plain texts whose root means the given text. -/
structure Plain (letters : List Char) (write : Char → Text) (goal : Text) (p : Pool) : Prop where
  stands : Stands letters write goal p
  plain : ∀ x, p.holds x = true → IsPlain (p.text x)

theorem isPlain_text_iff {s : Line} : IsPlain (Line.text s) ↔ s ≠ [] ∧ ∀ c ∈ ['(', ')', '{', '}'], .char c ∉ s := by
  have hfacts : ∀ c ∈ ['(', ')', '{', '}'], c.isDigit = false ∧ c ≠ '@' ∧ c ≠ '/' := by
    intro c hc
    simp only [List.mem_cons, List.not_mem_nil, or_false] at hc
    rcases hc with rfl | rfl | rfl | rfl <;> decide
  refine and_congr ⟨?_, Line.text_ne_nil⟩ (forall₂_congr fun c hc => not_congr ⟨fun hmem => ?_, Line.mem_text⟩)
  · rintro hne rfl
    exact hne rfl
  · by_contra hs
    obtain ⟨hdigit, hat, hslash⟩ := hfacts c hc
    exact Line.not_mem_text hdigit hat hslash hs hmem

/-- A line made of characters of a plain one is plain. -/
theorem IsPlain.of_subset {s s' : Line} (h : IsPlain (Line.text s)) (hne : s' ≠ []) (hsub : ∀ c, .char c ∈ s' → .char c ∈ s) :
    IsPlain (Line.text s') := by
  rw [isPlain_text_iff] at h ⊢
  exact ⟨hne, fun c hc hmem => h.2 c hc (hsub c hmem)⟩

section
variable {letters : List Char} {write : Char → Text} {goal : Text} {p : Pool} {i : Nat} {s : Line}

/-- A plain draft becomes the text of its cell. -/
theorem Drafts.plain (h : Drafts letters write goal p i s) (hs : IsPlain (Line.text s))
    (hothers : ∀ x, p.holds x = true → x ≠ i → IsPlain (p.text x)) : Plain letters write goal (p.setText i (Line.text s)) := by
  obtain ⟨j, hq⟩ := h.sound.exists_rewritten h.holds hs.1
  refine ⟨h.commit hs.1, fun x hx => ?_⟩
  rcases hq.text_cases hx with htext | ⟨hxi, hxp, htext⟩
  · rwa [htext]
  · rw [htext]
    exact hothers x hxp hxi

end

end FormulaDag.Pool
