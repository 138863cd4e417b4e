import FormulaDag.Proofs.Contexts.Renumbering

/-!
# Giving an index a second copy

A context can be stored once and be shared, or be stored under two indices with some references going to the one and some to the other.
The contexts after such a split are copies of those before.
-/

namespace FormulaDag

namespace Token

/-- A text before and after some of its tokens of one index were replaced by the token of another index. -/
inductive Redirected (j k : Nat) : Text → Text → Prop where
  | nil : Redirected j k [] []
  | plain {c : Char} {u u' : Text} (h : split? (c :: u) = none) (rest : Redirected j k u u') : Redirected j k (c :: u) (c :: u')
  | kept {t digits u u' : Text} (h : split? t = some (digits, u)) (rest : Redirected j k u u') :
      Redirected j k t ("@/".toList ++ digits ++ "/@".toList ++ u')
  | moved {t digits u u' : Text} (h : split? t = some (digits, u)) (hread : Index.read? digits = some j)
      (rest : Redirected j k u u') : Redirected j k t (Index.token k ++ u')

section
variable {j k : Nat} {t t' : Text}

/-- No token need be replaced. -/
theorem Redirected.refl (j k : Nat) (t : Text) : Redirected j k t t := by
  induction t using pieces.induct with
  | case1 t digits u hs ih =>
    have hkept := Redirected.kept hs ih
    have ht : "@/".toList ++ digits ++ "/@".toList ++ u = t := by
      rw [split?_eq_some hs]
      simp
    rwa [ht] at hkept
  | case2 hs => exact .nil
  | case3 c u hs ih => exact .plain hs ih

/-- Replacing tokens of one index by tokens of another one renames a text in which every number is an index. -/
theorem Redirected.renamed (h : Redirected j k t t') (hk : k < Index.bound) {known : Nat → Prop}
    (hknown : ∀ number ∈ numerals t, ∃ i, known i ∧ Index.read? number = some i) :
    Renamed (fun i i' => known i ∧ (i' = i ∨ i = j ∧ i' = k)) t t' := by
  induction h with
  | nil => exact .nil
  | plain hs _ ih =>
    rw [numerals_of_split?_eq_none hs] at hknown
    exact (ih hknown).cons_plain hs
  | @kept t digits u u' hs _ ih =>
    rw [numerals_of_split? hs] at hknown
    obtain ⟨i, hi, hread⟩ := hknown digits List.mem_cons_self
    obtain ⟨hne, hdigits⟩ := digits_of_split? hs
    have hs' : split? ("@/".toList ++ digits ++ "/@".toList ++ u') = some (digits, u') := by
      simpa using split?_digits hne hdigits u'
    exact .token hs hs' hread hread ⟨hi, .inl rfl⟩ (ih fun number hn => hknown number (List.mem_cons_of_mem _ hn))
  | moved hs hread _ ih =>
    rw [numerals_of_split? hs] at hknown
    obtain ⟨i, hi, hread'⟩ := hknown _ List.mem_cons_self
    obtain rfl := Option.some.inj (hread.symm.trans hread')
    exact .token hs (split?_token _ _) hread (Index.read?_ofNat hk) ⟨hi, .inr ⟨rfl, rfl⟩⟩
      (ih fun number hn => hknown number (List.mem_cons_of_mem _ hn))

end

end Token

namespace Contexts

/-- Contexts before and after an index was given a copy under a new one: the copy has the same context, and in the other contexts some of
the references to the index go to the copy. -/
structure Split (j k : Nat) (c c' : Contexts) : Prop where
  copy : c'.get? k = c.get? j
  others : ∀ i, i ≠ k → Option.Rel (Token.Redirected j k) (c.get? i) (c'.get? i)

/-- Contexts with a second copy of an index are copies of those before. -/
theorem Split.copies {j k : Nat} {c c' : Contexts} (h : Split j k c c') (hc : c.WellShaped) (hj : j ∈ c.indices) (hk : k ∉ c.indices)
    (hbound : k < Index.bound) : Copies (fun i i' => i ∈ c.indices ∧ (i' = i ∨ i = j ∧ i' = k)) c c' := by
  have hrenamed : ∀ i t t', c.get? i = some t → Token.Redirected j k t t' →
      Token.Renamed (fun i i' => i ∈ c.indices ∧ (i' = i ∨ i = j ∧ i' = k)) t t' := fun i t t' ht hredirected =>
    hredirected.renamed hbound (hc.named i t ht)
  refine ⟨?_, ⟨hc.rooted, .inl rfl⟩, ?_, fun i' t' ht' => ?_⟩
  · rintro i i₂ i' ⟨hi, rfl | ⟨rfl, rfl⟩⟩ ⟨hi₂, hi'⟩
    · rcases hi' with rfl | ⟨-, rfl⟩
      · rfl
      · exact absurd hi hk
    · rcases hi' with rfl | ⟨rfl, -⟩
      · exact absurd hi₂ hk
      · rfl
  · rintro i i' ⟨hi, rfl | ⟨rfl, rfl⟩⟩ t ht
    · have hne : i' ≠ k := fun heq => hk (heq ▸ hi)
      have hother := h.others i' hne
      rw [ht] at hother
      generalize c'.get? i' = found at hother
      cases hother with
      | some hredirected => exact ⟨_, rfl, hrenamed i' t _ ht hredirected⟩
    · exact ⟨t, h.copy.trans ht, hrenamed i t t ht (.refl _ _ _)⟩
  · by_cases heq : i' = k
    · subst heq
      have ht := h.copy.symm.trans ht'
      exact ⟨j, t', ⟨hj, .inr ⟨rfl, rfl⟩⟩, ht, hrenamed j t' t' ht (.refl _ _ _)⟩
    · have hother := h.others i' heq
      rw [ht'] at hother
      cases ht : c.get? i' with
      | none =>
        rw [ht] at hother
        cases hother
      | some t =>
        rw [ht] at hother
        cases hother with
        | some hredirected => exact ⟨i', t, ⟨mem_indices_iff.2 ⟨t, ht⟩, .inl rfl⟩, ht, hrenamed i' t t' ht hredirected⟩

end Contexts

end FormulaDag
