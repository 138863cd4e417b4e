import FormulaDag.Proofs.Contexts.Numbering
import FormulaDag.Proofs.Contexts.Validation
import FormulaDag.Proofs.Renaming

/-!
# Contexts under other numbers

Renumbering contexts replaces every index, also inside of the texts. What depends on the shape of the references alone stays as it is, so
contexts that are renumbered are valid if those before were. Numbering from zero on is the renumbering that keeps the order.
-/

namespace FormulaDag.Contexts

open Token (Renamed)

/-- The contexts with every index replaced. -/
def renumber (c : Contexts) (f : Nat → Nat) : Contexts := ofList (c.entries.map fun e => (f e.1, Token.mapIndices f e.2))

/-- Contexts that correspond to each other along a relation between their indices. -/
structure Renumbered (ρ : Nat → Nat → Prop) (c c' : Contexts) : Prop where
  unique : Relator.BiUnique ρ
  root : ρ Index.root Index.root
  forth : ∀ i t, c.get? i = some t → ∃ j t', ρ i j ∧ c'.get? j = some t' ∧ Renamed ρ t t'
  back : ∀ j t', c'.get? j = some t' → ∃ i t, ρ i j ∧ c.get? i = some t ∧ Renamed ρ t t'

section
variable {c c' c'' : Contexts} {ρ σ : Nat → Nat → Prop}

theorem Renumbered.symm (h : Renumbered ρ c c') : Renumbered (fun j i => ρ i j) c' c where
  unique := ⟨fun _ _ _ h₁ h₂ => h.unique.2 h₁ h₂, fun _ _ _ h₁ h₂ => h.unique.1 h₁ h₂⟩
  root := h.root
  forth := by
    intro j t' ht'
    obtain ⟨i, t, hij, ht, hrenamed⟩ := h.back j t' ht'
    exact ⟨i, t, hij, ht, hrenamed.symm⟩
  back := by
    intro i t ht
    obtain ⟨j, t', hij, ht', hrenamed⟩ := h.forth i t ht
    exact ⟨j, t', hij, ht', hrenamed.symm⟩

/-- A renumbering followed by another is a renumbering. -/
theorem Renumbered.trans (h : Renumbered ρ c c') (h' : Renumbered σ c' c'') : Renumbered (Relation.Comp ρ σ) c c'' where
  unique := by
    constructor
    · rintro i i' k ⟨j, hij, hjk⟩ ⟨j', hij', hjk'⟩
      obtain rfl := h'.unique.1 hjk hjk'
      exact h.unique.1 hij hij'
    · rintro i k k' ⟨j, hij, hjk⟩ ⟨j', hij', hjk'⟩
      obtain rfl := h.unique.2 hij hij'
      exact h'.unique.2 hjk hjk'
  root := ⟨_, h.root, h'.root⟩
  forth := by
    intro i t ht
    obtain ⟨j, t', hij, ht', hrenamed⟩ := h.forth i t ht
    obtain ⟨k, t'', hjk, ht'', hrenamed'⟩ := h'.forth j t' ht'
    exact ⟨k, t'', ⟨j, hij, hjk⟩, ht'', hrenamed.trans hrenamed'⟩
  back := by
    intro k t'' ht''
    obtain ⟨j, t', hjk, ht', hrenamed'⟩ := h'.back k t'' ht''
    obtain ⟨i, t, hij, ht, hrenamed⟩ := h.back j t' ht'
    exact ⟨i, t, ⟨j, hij, hjk⟩, ht, hrenamed.trans hrenamed'⟩

/-- The context of an index has that of any index it corresponds to as its counterpart. -/
theorem Renumbered.get? (h : Renumbered ρ c c') {i j : Nat} (hij : ρ i j) {t : Text} (ht : c.get? i = some t) :
    ∃ t', c'.get? j = some t' ∧ Renamed ρ t t' := by
  obtain ⟨j', t', hij', ht', hrenamed⟩ := h.forth i t ht
  obtain rfl := h.unique.2 hij' hij
  exact ⟨t', ht', hrenamed⟩

/-- Contexts that come from others by giving every index one or more copies: a context refers to copies of what the context that it is
a copy of refers to. -/
structure Copies (ρ : Nat → Nat → Prop) (c c' : Contexts) : Prop where
  unique : Relator.LeftUnique ρ
  root : ρ Index.root Index.root
  forth : ∀ i j, ρ i j → ∀ t, c.get? i = some t → ∃ t', c'.get? j = some t' ∧ Renamed ρ t t'
  back : ∀ j t', c'.get? j = some t' → ∃ i t, ρ i j ∧ c.get? i = some t ∧ Renamed ρ t t'

/-- A renumbering makes copies. -/
theorem Renumbered.copies (h : Renumbered ρ c c') : Copies ρ c c' where
  unique := h.unique.1
  root := h.root
  forth := fun _ _ hij _ ht => h.get? hij ht
  back := h.back

/-- Copies of copies are copies. -/
theorem Copies.trans (h : Copies ρ c c') (h' : Copies σ c' c'') : Copies (Relation.Comp ρ σ) c c'' where
  unique := by
    rintro i i' k ⟨j, hij, hjk⟩ ⟨j', hij', hjk'⟩
    obtain rfl := h'.unique hjk hjk'
    exact h.unique hij hij'
  root := ⟨_, h.root, h'.root⟩
  forth := by
    rintro i k ⟨j, hij, hjk⟩ t ht
    obtain ⟨t', ht', hrenamed⟩ := h.forth i j hij t ht
    obtain ⟨t'', ht'', hrenamed'⟩ := h'.forth j k hjk t' ht'
    exact ⟨t'', ht'', hrenamed.trans hrenamed'⟩
  back := by
    intro k t'' ht''
    obtain ⟨j, t', hjk, ht', hrenamed'⟩ := h'.back k t'' ht''
    obtain ⟨i, t, hij, ht, hrenamed⟩ := h.back j t' ht'
    exact ⟨i, t, ⟨j, hij, hjk⟩, ht, hrenamed.trans hrenamed'⟩

/-- What a copy refers to is a copy of what the original refers to. -/
theorem Copies.refers (h : Copies ρ c c') {j j' : Nat} (hrefers : c'.Refers j j') {i : Nat} (hij : ρ i j) :
    ∃ i', ρ i' j' ∧ c.Refers i i' := by
  obtain ⟨t', ht', hj'⟩ := hrefers
  obtain ⟨i₀, t, hij₀, ht, hrenamed⟩ := h.back j t' ht'
  obtain rfl := h.unique hij hij₀
  obtain ⟨i', hi', hij'⟩ := hrenamed.exists_reference hj'
  exact ⟨i', hij', t, ht, hi'⟩

/-- What a copy refers to through others is a copy of what the original does. -/
theorem Copies.transGen (h : Copies ρ c c') {j j' : Nat} (hpath : Relation.TransGen c'.Refers j j') {i : Nat} (hij : ρ i j) :
    ∃ i', ρ i' j' ∧ Relation.TransGen c.Refers i i' := by
  induction hpath with
  | single hrefers =>
    obtain ⟨i', hij', hrefers'⟩ := h.refers hrefers hij
    exact ⟨i', hij', .single hrefers'⟩
  | tail _ hrefers ih =>
    obtain ⟨i', hij', hpath⟩ := ih
    obtain ⟨i'', hij'', hrefers'⟩ := h.refers hrefers hij'
    exact ⟨i'', hij'', hpath.tail hrefers'⟩

/-- Copies of well-shaped contexts are well-shaped. -/
theorem Copies.wellShaped (h : Copies ρ c c') (hc : c.WellShaped) : c'.WellShaped where
  nonempty := by
    obtain ⟨t, ht⟩ := mem_indices_iff.1 hc.rooted
    obtain ⟨t', ht', -⟩ := h.forth _ _ h.root t ht
    exact List.ne_nil_of_mem (get?_eq_some_iff.1 ht')
  rooted := by
    obtain ⟨t, ht⟩ := mem_indices_iff.1 hc.rooted
    obtain ⟨t', ht', -⟩ := h.forth _ _ h.root t ht
    exact mem_indices_iff.2 ⟨t', ht'⟩
  named := by
    intro j t' ht' number hnumber
    obtain ⟨i, t, hij, ht, hrenamed⟩ := h.back j t' ht'
    obtain ⟨number₀, hnumber₀, k, k', hread, hread', hk⟩ := hrenamed.exists_numeral hnumber
    obtain ⟨k₀, hk₀, hread₀⟩ := hc.named i t ht number₀ hnumber₀
    rw [hread] at hread₀
    obtain rfl := Option.some.inj hread₀
    obtain ⟨u, hu⟩ := mem_indices_iff.1 hk₀
    obtain ⟨u', hu', -⟩ := h.forth k k' hk u hu
    exact ⟨k', mem_indices_iff.2 ⟨u', hu'⟩, hread'⟩
  acyclic := by
    intro j hcycle
    obtain ⟨k, ⟨t', ht', -⟩, -⟩ := Relation.TransGen.head'_iff.1 hcycle
    obtain ⟨i, t, hij, -, -⟩ := h.back j t' ht'
    obtain ⟨i', hij', hpath⟩ := h.transGen hcycle hij
    exact hc.acyclic i (h.unique hij hij' ▸ hpath)

/-- Contexts that correspond to well-shaped ones are well-shaped. -/
theorem Renumbered.wellShaped (h : Renumbered ρ c c') (hc : c.WellShaped) : c'.WellShaped := h.copies.wellShaped hc

end

/-- Setting a context replaces that of the same index and keeps all others. -/
theorem mem_insertEntry_iff {i : Nat} {t : Text} {l : List (Nat × Text)} (h : l.Pairwise fun a b => a.1 < b.1) {e : Nat × Text} :
    e ∈ insertEntry i t l ↔ e = (i, t) ∨ e ∈ l ∧ e.1 ≠ i := by
  induction l with
  | nil => simp [insertEntry]
  | cons first rest ih =>
    obtain ⟨j, u⟩ := first
    obtain ⟨hfirst, hrest⟩ := List.pairwise_cons.1 h
    rw [insertEntry]
    split
    · rename_i hij
      have hne : ∀ e ∈ (j, u) :: rest, e.1 ≠ i := by
        intro e he
        rcases List.mem_cons.1 he with rfl | he
        · exact Nat.ne_of_gt hij
        · exact Nat.ne_of_gt (Nat.lt_trans hij (hfirst e he))
      rw [List.mem_cons]
      exact or_congr_right ⟨fun he => ⟨he, hne e he⟩, And.left⟩
    · split
      · rename_i hij
        subst hij
        have hne : ∀ e ∈ rest, e.1 ≠ i := fun e he => Nat.ne_of_gt (hfirst e he)
        rw [List.mem_cons, List.mem_cons]
        refine or_congr_right ⟨fun he => ⟨.inr he, hne e he⟩, ?_⟩
        rintro ⟨rfl | he, hi⟩
        · exact absurd rfl hi
        · exact he
      · rename_i hij
        rw [List.mem_cons, List.mem_cons, ih hrest]
        constructor
        · rintro (rfl | rfl | ⟨he, hi⟩)
          · exact .inr ⟨.inl rfl, Ne.symm hij⟩
          · exact .inl rfl
          · exact .inr ⟨.inr he, hi⟩
        · rintro (rfl | ⟨rfl | he, hi⟩)
          · exact .inr (.inl rfl)
          · exact .inl rfl
          · exact .inr (.inr ⟨he, hi⟩)

/-- The contexts of entries with different indices are these entries. -/
theorem mem_entries_ofList {l : List (Nat × Text)} (h : (l.map Prod.fst).Nodup) {e : Nat × Text} : e ∈ (ofList l).entries ↔ e ∈ l := by
  have hfold : ∀ c : Contexts, e ∈ (l.foldl (fun c e => c.insert e.1 e.2) c).entries ↔ e ∈ l ∨ e ∈ c.entries ∧ e.1 ∉ l.map Prod.fst := by
    induction l with
    | nil => simp
    | cons first rest ih =>
      intro c
      obtain ⟨hfirst, hrest⟩ := List.nodup_cons.1 h
      rw [List.foldl_cons, ih hrest, insert, mem_insertEntry_iff c.ascending, List.map_cons, List.mem_cons, List.mem_cons, not_or]
      constructor
      · rintro (he | ⟨rfl | ⟨he, hne⟩, hnot⟩)
        · exact .inl (.inr he)
        · exact .inl (.inl rfl)
        · exact .inr ⟨he, hne, hnot⟩
      · rintro ((rfl | he) | ⟨he, hne, hnot⟩)
        · exact .inr ⟨.inl rfl, hfirst⟩
        · exact .inl he
        · exact .inr ⟨.inr ⟨he, hne⟩, hnot⟩
  rw [ofList, hfold]
  simp [empty]

section
variable {c : Contexts} {f : Nat → Nat}

/-- The entries of renumbered contexts are the entries with their indices mapped. -/
theorem mem_entries_renumber (hf : ∀ i ∈ c.indices, ∀ j ∈ c.indices, f i = f j → i = j) {e : Nat × Text} :
    e ∈ (c.renumber f).entries ↔ ∃ e₀ ∈ c.entries, (f e₀.1, Token.mapIndices f e₀.2) = e := by
  have hnodup : ((c.entries.map fun e => (f e.1, Token.mapIndices f e.2)).map Prod.fst).Nodup := by
    have hmap : ((c.entries.map fun e => (f e.1, Token.mapIndices f e.2)).map Prod.fst) = c.indices.map f := by
      rw [indices, List.map_map, List.map_map]
      rfl
    rw [hmap]
    exact c.nodup_indices.map_on hf
  rw [renumber, mem_entries_ofList hnodup, List.mem_map]

/-- Renumbered contexts correspond to what they were before. -/
theorem renumbered_renumber (hc : c.WellShaped) (hf : ∀ i ∈ c.indices, ∀ j ∈ c.indices, f i = f j → i = j)
    (hroot : f Index.root = Index.root) (hbound : ∀ i ∈ c.indices, i < Index.bound → f i < Index.bound) :
    Renumbered (fun i j => i ∈ c.indices ∧ j = f i) c (c.renumber f) := by
  have hrenamed : ∀ i t, c.get? i = some t → Renamed (fun i j => i ∈ c.indices ∧ j = f i) t (Token.mapIndices f t) := by
    intro i t ht
    refine Token.renamed_mapIndices fun number hnumber => ?_
    obtain ⟨k, hk, hread⟩ := hc.named i t ht number hnumber
    exact ⟨k, hk, hbound k hk (Index.lt_of_read? hread), hread⟩
  refine ⟨⟨?_, ?_⟩, ⟨hc.rooted, hroot.symm⟩, ?_, ?_⟩
  · rintro i i' j ⟨hi, rfl⟩ ⟨hi', heq⟩
    exact hf i hi i' hi' heq
  · rintro i j j' ⟨-, rfl⟩ ⟨-, rfl⟩
    rfl
  · intro i t ht
    have hentry := (mem_entries_renumber hf).2 ⟨(i, t), get?_eq_some_iff.1 ht, rfl⟩
    exact ⟨f i, _, ⟨mem_indices_iff.2 ⟨t, ht⟩, rfl⟩, get?_eq_some_iff.2 hentry, hrenamed i t ht⟩
  · intro j t' ht'
    obtain ⟨⟨i, t⟩, hentry, heq⟩ := (mem_entries_renumber hf).1 (get?_eq_some_iff.1 ht')
    obtain ⟨rfl, rfl⟩ := Prod.mk.inj heq
    have ht := get?_eq_some_iff.2 hentry
    exact ⟨i, t, ⟨mem_indices_iff.2 ⟨t, ht⟩, rfl⟩, ht, hrenamed i t ht⟩

/-- Contexts in which every token names an index correspond to themselves. -/
theorem renumbered_self (hc : c.WellShaped) : Renumbered (fun i j => i ∈ c.indices ∧ j = i) c c := by
  have hrenamed : ∀ i t, c.get? i = some t → Renamed (fun i j => i ∈ c.indices ∧ j = i) t t := fun i t ht =>
    Token.renamed_self fun number hnumber => hc.named i t ht number hnumber
  refine ⟨⟨?_, ?_⟩, ⟨hc.rooted, rfl⟩, ?_, ?_⟩
  · rintro i i' j ⟨-, rfl⟩ ⟨-, rfl⟩
    rfl
  · rintro i j j' ⟨-, rfl⟩ ⟨-, rfl⟩
    rfl
  · exact fun i t ht => ⟨i, t, ⟨mem_indices_iff.2 ⟨t, ht⟩, rfl⟩, ht, hrenamed i t ht⟩
  · exact fun i t ht => ⟨i, t, ⟨mem_indices_iff.2 ⟨t, ht⟩, rfl⟩, ht, hrenamed i t ht⟩

/-- In an ascending list no number is less than its position. -/
theorem idxOf_le_of_ascending {l : List Nat} (h : l.Pairwise (· < ·)) {i : Nat} (hi : i ∈ l) : l.idxOf i ≤ i := by
  have hfrom : ∀ k, (∀ j ∈ l, k ≤ j) → k + l.idxOf i ≤ i := by
    induction l with
    | nil => simp at hi
    | cons j l ih =>
      intro k hk
      obtain ⟨hfirst, hrest⟩ := List.pairwise_cons.1 h
      by_cases hij : i = j
      · subst hij
        simpa using hk i (by simp)
      · rw [List.idxOf_cons_ne _ (Ne.symm hij)]
        have := ih hrest ((List.mem_cons.1 hi).resolve_left hij) (k + 1) fun j' hj' =>
          Nat.lt_of_le_of_lt (hk j (by simp)) (hfirst j' hj')
        omega
  simpa using hfrom 0 fun j _ => Nat.zero_le j

/-- The compact index of an index is its place among the indices. -/
theorem compactIndex_of_mem {i : Nat} (hi : i ∈ c.indices) : c.compactIndex i = c.indices.idxOf i := if_pos hi

/-- Compacting makes no index greater. -/
theorem compactIndex_le {i : Nat} (hi : i ∈ c.indices) : c.compactIndex i ≤ i := by
  rw [compactIndex_of_mem hi]
  exact idxOf_le_of_ascending (List.pairwise_map.2 c.ascending) hi

/-- Compacting gives distinct indices distinct places. -/
theorem compactIndex_injective {i j : Nat} (hi : i ∈ c.indices) (hj : j ∈ c.indices) (h : c.compactIndex i = c.compactIndex j) :
    i = j := by
  rw [compactIndex_of_mem hi, compactIndex_of_mem hj] at h
  exact (List.idxOf_inj hi).1 h

/-- Compacted contexts are numbered without gaps. -/
theorem isDense_compact (c : Contexts) : c.compact.isDense = true := by
  rw [compact]
  split
  · assumption
  · rw [isDense, indices_ofTexts, size_ofTexts, beq_self_eq_true]

/-- The index at a place has that place as its compact index. -/
theorem compactIndex_getElem {k : Nat} (h : k < c.indices.length) : c.compactIndex c.indices[k] = k := by
  rw [compactIndex_of_mem (List.getElem_mem h), c.nodup_indices.idxOf_getElem k h]

/-- Numbering from zero on keeps the order. -/
theorem map_compactIndex (c : Contexts) : c.indices.map c.compactIndex = List.range c.size := by
  have hsize : c.size = c.indices.length := (List.length_map _).symm
  refine List.ext_getElem (by simp [hsize]) fun k hk hk' => ?_
  rw [List.getElem_map, List.getElem_range, compactIndex_getElem]

/-- Contexts that are not numbered from zero on are renumbered in the same order. -/
theorem compact_eq_renumber (h : c.isDense = false) : c.compact = c.renumber c.compactIndex := by
  have hentries : (ofTexts (c.texts.map (Token.mapIndices c.compactIndex))).entries =
      c.entries.map fun e => (c.compactIndex e.1, Token.mapIndices c.compactIndex e.2) := by
    refine List.ext_getElem (by simp [ofTexts, texts]) fun k hk hk' => ?_
    have hindex := c.compactIndex_getElem (k := k) (by simpa [indices] using hk')
    simp only [indices, List.getElem_map] at hindex
    simp [ofTexts, texts, hindex]
  refine ext_mem fun e => ?_
  rw [compact, h, mem_entries_renumber fun i hi j hj => compactIndex_injective hi hj]
  simp only [Bool.false_eq_true, if_false]
  rw [hentries, List.mem_map]

/-- Well-shaped contexts correspond to those that are numbered from zero on. -/
theorem exists_renumbered_compact (hc : c.WellShaped) : ∃ ρ, Renumbered ρ c c.compact := by
  cases hdense : c.isDense with
  | true =>
    rw [compact, if_pos hdense]
    exact ⟨_, renumbered_self hc⟩
  | false =>
    rw [compact_eq_renumber hdense]
    refine ⟨_, renumbered_renumber hc (fun i hi j hj => compactIndex_injective hi hj) ?_ fun i hi hbound => ?_⟩
    · exact Nat.le_zero.1 (compactIndex_le hc.rooted)
    · exact Nat.lt_of_le_of_lt (compactIndex_le hi) hbound

end

end FormulaDag.Contexts
