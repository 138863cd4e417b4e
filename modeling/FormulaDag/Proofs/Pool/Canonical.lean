import FormulaDag.Pool.Binding
import FormulaDag.Proofs.Pool.Plain
import FormulaDag.Proofs.Pool.Settling

/-!
# Canonical pools

Replacing references by what they point to changes nothing about what a pool means. A sweep that merges no cells leaves every text
with references to cells that hold texts, so in a canonical pool there are no others.
-/

namespace FormulaDag.Pool

section
variable {letters : List Char} {write : Char → Text} {goal : Text} {p : Pool} {i : Nat} {s : Line}

/-- What a pool puts in the place of an index: the end of its pointers, if the index is small enough to be read in a token. -/
def target (p : Pool) (k : Nat) : Nat := if k < Index.bound then p.resolve k else k

/-- The indices in a draft may be replaced by those that they point to. -/
theorem Drafts.relabel (h : Drafts letters write goal p i s) (hletters : ∀ letter ∈ letters, '@' ∉ letterText letter) :
    Drafts letters write goal p i (s.map (Mark.relabel p.target)) := by
  have hs := h.within
  have hsound := h.sound
  have htarget : ∀ k, .ref k ∈ s → p.target k = p.resolve k ∨ p.target k = k := fun k _ => by
    unfold target
    split
    · exact .inl rfl
    · exact .inr rfl
  have hlt : ∀ k, .ref k ∈ s → p.target k < p.cells.length := by
    intro k hk
    rcases htarget k hk with heq | heq <;> rw [heq]
    · exact lt_of_holds (hsound.holds_resolve (hs.refs k hk))
    · exact hs.refs k hk
  have hresolve : ∀ k, .ref k ∈ s → p.resolve (p.target k) = p.resolve k := by
    intro k hk
    rcases htarget k hk with heq | heq
    · rw [heq, resolve_of_holds (hsound.holds_resolve (hs.refs k hk))]
    · rw [heq]
  obtain ⟨view, meaning, hlinked, hreads, hi, rfl, hgoal⟩ := h
  refine ⟨fun x => if x = i then (view i).map (Mark.relabel p.target) else view x, meaning, ?_, fun x hx hxi => ?_, hi, if_pos rfl,
    hgoal⟩
  · refine hlinked.change hi (hs.map hlt) ?_ ?_ ?_ ?_
    · rw [Line.expand_map]
      refine Line.expand_congr fun k hk => ?_
      rw [← hlinked.pointed _ (hlt k hk), hresolve k hk, hlinked.pointed k (hs.refs k hk)]
    · exact fun k hk => ⟨p.target k, Line.ref_mem_map.2 ⟨k, hk, rfl⟩, hresolve k hk⟩
    · intro k hk
      obtain ⟨j, hj, rfl⟩ := Line.ref_mem_map.1 hk
      exact .inl ⟨j, hj, (hresolve j hj).symm⟩
    · intro letter hletter htext
      rw [Line.map_relabel_self]
      · exact htext
      · intro k hk
        exact absurd (htext ▸ Line.at_mem_text hk) (hletters letter hletter)
  · simp only [if_neg hxi]
    exact hreads x hx hxi

/-- The resolved text of an index is its line with every reference led to its target. -/
theorem resolved_eq_target (hs : s.Within p.cells.length) (htext : p.text i = Line.text s) :
    p.resolved i = Line.text (s.map (Mark.relabel p.target)) := by
  rw [resolved, htext, hs.mapIndices_text]
  rfl

/-- Below the bound, the resolved text is the line with every reference resolved. -/
theorem resolved_eq (hs : s.Within p.cells.length) (hbound : p.cells.length ≤ Index.bound) (htext : p.text i = Line.text s) :
    p.resolved i = Line.text (s.map (Mark.relabel p.resolve)) := by
  rw [resolved, htext, hs.mapIndices_eq hbound]

/-- Tidying the text of an index keeps a pool plain. -/
theorem Plain.tidy (h : Plain letters write goal p) (hletters : ∀ letter ∈ letters, '@' ∉ letterText letter)
    (i : Nat) : Plain letters write goal (p.tidy i) := by
  unfold Pool.tidy
  split
  · rename_i hcond
    simp only [Bool.and_eq_true] at hcond
    obtain ⟨s, htext, hdraft⟩ := h.stands.draft hcond.1
    have hplain := h.plain i hcond.1
    rw [htext] at hplain
    rw [resolved_eq_target hdraft.within htext]
    refine (hdraft.relabel hletters).plain (hplain.of_subset ?_ fun c => Line.char_mem_map.1) fun x hx _ => h.plain x hx
    simpa using (isPlain_text_iff.1 hplain).1
  · exact h

/-- Making a pool canonical keeps what it means and leaves references to cells with texts only. -/
theorem Plain.canonical (hletters : ∀ letter ∈ letters, '@' ∉ letterText letter) {p : Pool} (h : Plain letters write goal p) :
    Plain letters write goal p.canonical ∧ ∀ x, Tidied p.canonical x :=
  ⟨canonical_of_tidy (fun _ i h => h.tidy hletters i) h, h.stands.sound.consistent.canonical.2⟩

end

end FormulaDag.Pool
