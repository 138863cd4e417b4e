import FormulaDag.Proofs.Relabelling

/-!
# Tokens between texts

A text that is put together from tokens and from texts without `@` between them is read back as exactly these. What stands between two
tokens may look like a token itself when it takes the signs next to it in: `/2/` does in `@/1/@/2/@/3/@`. The first `@` belongs to the token
before it, so no other reading is left. And whatever a text holds, its references after replacing indices are its replaced references.
-/

namespace FormulaDag

/-! ### Lists without repetitions -/

theorem eraseDups_concat (l : List Nat) (a : Nat) : (l ++ [a]).eraseDups = if a ∈ l then l.eraseDups else l.eraseDups ++ [a] := by
  rw [List.eraseDups_append]
  split
  · rename_i h
    simp [List.removeAll, h]
  · rename_i h
    simp [List.removeAll, h, List.eraseDups_cons]

/-- Repetitions may be left out before a function is applied, since they lead to repetitions. -/
theorem eraseDups_map (f : Nat → Nat) (l : List Nat) : (l.map f).eraseDups = (l.eraseDups.map f).eraseDups := by
  induction l using List.reverseRecOn with
  | nil => rfl
  | append_singleton l a ih =>
    rw [List.map_append, List.map_singleton, eraseDups_concat, eraseDups_concat]
    by_cases ha : a ∈ l
    · rw [if_pos (List.mem_map_of_mem ha), if_pos ha, ih]
    · have hmem : f a ∈ l.eraseDups.map f ↔ f a ∈ l.map f := by simp
      rw [if_neg ha, List.map_append, List.map_singleton, eraseDups_concat, ih]
      simp only [hmem]

namespace Token

/-- A text, and further ones behind the token of an index each. -/
def interleave (first : Text) : List (Nat × Text) → Text
  | [] => first
  | (i, next) :: rest => first ++ (Index.token i ++ interleave next rest)

section
variable {first first' u u' t : Text} {rest rest' : List (Nat × Text)} {digits digits' : Text} {l l' : List Piece}

/-! ### Reading tokens and texts back -/

/-- The pieces are the characters of the texts and the tokens between them. -/
theorem pieces_interleave (hfirst : '@' ∉ first) (hrest : ∀ e ∈ rest, '@' ∉ e.2) :
    pieces (interleave first rest) = first.map .plain ++ rest.flatMap fun e => .token (Text.ofNat e.1) :: e.2.map .plain := by
  induction rest generalizing first with
  | nil => rw [interleave, pieces_eq_map hfirst, List.flatMap_nil, List.append_nil]
  | cons e rest ih =>
    obtain ⟨i, next⟩ := e
    obtain ⟨hnext, hrest⟩ := List.forall_mem_cons.1 hrest
    rw [interleave, pieces_append hfirst, pieces_token, ih hnext hrest, List.flatMap_cons, List.cons_append]

/-- A text without marks has no numerals. -/
theorem numerals_append (hu : '@' ∉ u) (t : Text) : numerals (u ++ t) = numerals t := by
  induction u with
  | nil => rfl
  | cons c u ih =>
    obtain ⟨hc, hu⟩ := not_or.1 (mt List.mem_cons.2 hu)
    rw [List.cons_append, numerals_of_split?_eq_none (split?_of_ne (Ne.symm hc) _), ih hu]

/-- The numerals of interleaved texts are those of the tokens. -/
theorem numerals_interleave (hfirst : '@' ∉ first) (hrest : ∀ e ∈ rest, '@' ∉ e.2) :
    numerals (interleave first rest) = rest.map fun e => Text.ofNat e.1 := by
  induction rest generalizing first with
  | nil => simpa [interleave, numerals] using numerals_append hfirst []
  | cons e rest ih =>
    obtain ⟨i, next⟩ := e
    obtain ⟨hnext, hrest⟩ := List.forall_mem_cons.1 hrest
    rw [interleave, numerals_append hfirst, numerals_of_split? (split?_token i _), ih hnext hrest, List.map_cons]

/-- The references of interleaved texts are those of the tokens, each once. -/
theorem references_interleave (hfirst : '@' ∉ first) (hrest : ∀ e ∈ rest, '@' ∉ e.2) (hbound : ∀ e ∈ rest, e.1 < Index.bound) :
    references (interleave first rest) = (rest.map Prod.fst).eraseDups := by
  rw [references, numerals_interleave hfirst hrest, List.filterMap_map]
  congr 1
  rw [← List.filterMap_eq_map]
  exact List.filterMap_congr fun e he => Index.read?_ofNat (hbound e he)

/-- The first token of a list of pieces is where the characters before it end. -/
theorem plain_append_inj (h : u.map Piece.plain ++ .token digits :: l = u'.map Piece.plain ++ .token digits' :: l') :
    u = u' ∧ digits = digits' ∧ l = l' := by
  induction u generalizing u' with
  | nil =>
    cases u' with
    | nil => simpa using h
    | cons c u' => simp at h
  | cons c u ih =>
    cases u' with
    | nil => simp at h
    | cons c' u' =>
      obtain ⟨hc, h⟩ := List.cons.inj h
      obtain ⟨rfl, hrest⟩ := ih h
      exact ⟨by rw [Piece.plain.inj hc], hrest⟩

/-- There is one way to take a text apart into tokens and texts without `@` between them. -/
theorem interleave_inj (hfirst : '@' ∉ first) (hrest : ∀ e ∈ rest, '@' ∉ e.2) (hfirst' : '@' ∉ first') (hrest' : ∀ e ∈ rest', '@' ∉ e.2)
    (h : interleave first rest = interleave first' rest') : first = first' ∧ rest = rest' := by
  have hnumerals := congrArg numerals h
  rw [numerals_interleave hfirst hrest, numerals_interleave hfirst' hrest'] at hnumerals
  induction rest generalizing first first' rest' with
  | nil =>
    obtain rfl := List.map_eq_nil_iff.1 hnumerals.symm
    exact ⟨h, rfl⟩
  | cons e rest ih =>
    cases rest' with
    | nil => cases hnumerals
    | cons e' rest' =>
      obtain ⟨i, next⟩ := e
      obtain ⟨i', next'⟩ := e'
      obtain ⟨hnext, hlater⟩ := List.forall_mem_cons.1 hrest
      obtain ⟨hnext', hlater'⟩ := List.forall_mem_cons.1 hrest'
      have hpieces := congrArg pieces h
      rw [interleave, interleave, pieces_append hfirst, pieces_append hfirst', pieces_token, pieces_token] at hpieces
      obtain ⟨rfl, hdigits, -⟩ := plain_append_inj hpieces
      obtain rfl := Index.ofNat_injective hdigits
      have hequal : interleave next rest = interleave next' rest' := List.append_cancel_left (List.append_cancel_left h)
      obtain ⟨rfl, rfl⟩ := ih hnext hlater hnext' hlater' hequal (List.cons.inj hnumerals).2
      exact ⟨rfl, rfl⟩

/-! ### Replacing indices -/

variable {f : Nat → Nat}

/-- Indices that stay indices are read back after they have been replaced. -/
theorem read?_relabel (hf : ∀ i < Index.bound, f i < Index.bound) (digits : Text) :
    Index.read? (Index.relabel f digits) = (Index.read? digits).map f := by
  cases hread : Index.read? digits with
  | none => rw [Index.relabel_of_read?_eq_none hread, hread, Option.map_none]
  | some i => rw [Index.relabel_of_read? hread, Index.read?_ofNat (hf i (Index.lt_of_read? hread)), Option.map_some]

/-- The references of a mapped text are those of the text, mapped. -/
theorem references_mapIndices (hf : ∀ i < Index.bound, f i < Index.bound) (t : Text) :
    references (mapIndices f t) = ((references t).map f).eraseDups := by
  rw [references, references, numerals_mapIndices, ← eraseDups_map, List.filterMap_map, List.map_filterMap]
  congr 1
  exact List.filterMap_congr fun digits _ => read?_relabel hf digits

theorem mapIndices_comp (hf : ∀ i < Index.bound, f i < Index.bound) (g : Nat → Nat) (t : Text) :
    mapIndices g (mapIndices f t) = mapIndices (g ∘ f) t := by
  rw [mapIndices_mapIndices]
  exact mapIndices_congr fun _ _ i hread => if_pos (hf i (Index.lt_of_read? hread))

end

/-- Tokens and texts without `@` between them are read back from what they make up: their characters and tokens are its pieces, the numbers
of the tokens its references, and no other ones make it up. And replacing the indices in any text by indices, once and then once more,
replaces them by both functions at once; the references are replaced as well, those that fall together being listed once. -/
theorem scan_interleave :
    (∀ first rest, '@' ∉ first → (∀ e ∈ rest, e.1 < Index.bound ∧ '@' ∉ e.2) →
      pieces (interleave first rest) = (first.map .plain ++ rest.flatMap fun e => .token (Text.ofNat e.1) :: e.2.map .plain) ∧
      references (interleave first rest) = (rest.map Prod.fst).eraseDups ∧
      ∀ first' rest', '@' ∉ first' → (∀ e ∈ rest', e.1 < Index.bound ∧ '@' ∉ e.2) →
        interleave first rest = interleave first' rest' → first = first' ∧ rest = rest') ∧
    ∀ (t : Text) (f : Nat → Nat), (∀ i < Index.bound, f i < Index.bound) →
      (∀ g, mapIndices g (mapIndices f t) = mapIndices (g ∘ f) t) ∧ references (mapIndices f t) = ((references t).map f).eraseDups := by
  constructor
  · intro first rest hfirst hrest
    have htexts : ∀ e ∈ rest, '@' ∉ e.2 := fun e he => (hrest e he).2
    refine ⟨pieces_interleave hfirst htexts, references_interleave hfirst htexts fun e he => (hrest e he).1, ?_⟩
    exact fun first' rest' hfirst' hrest' => interleave_inj hfirst htexts hfirst' fun e he => (hrest' e he).2
  · exact fun t f hf => ⟨fun g => mapIndices_comp hf g t, references_mapIndices hf t⟩

/-- Between the tokens of 1 and 3 a division by 2 is no token; halving twice makes both indices 0. -/
theorem scan_interleave_division :
    references "@/1/@/2/@/3/@".toList = [1, 3] ∧
      mapIndices (· / 2) (mapIndices (· / 2) "@/1/@/2/@/3/@".toList) = "@/0/@/2/@/0/@".toList ∧
      references (mapIndices (· / 2) "@/2/@/2/@/3/@".toList) = [1] := by
  have htext : "@/1/@/2/@/3/@".toList = interleave [] [(1, "/2/".toList), (3, [])] := by decide +kernel
  have hhalf : ∀ i < Index.bound, i / 2 < Index.bound := by omega
  have hreferences := fun first rest hfirst hrest => (scan_interleave.1 first rest hfirst hrest).2.1
  obtain ⟨hpieces, -, -⟩ := scan_interleave.1 [] [(1, "/2/".toList), (3, [])] (by decide) (by decide)
  refine ⟨?_, ?_, ?_⟩
  · rw [htext, hreferences _ _ (by decide) (by decide)]
    rfl
  · rw [(scan_interleave.2 _ _ hhalf).1, mapIndices, htext, hpieces]
    decide +kernel
  · have htwo : "@/2/@/2/@/3/@".toList = interleave [] [(2, "/2/".toList), (3, [])] := by decide +kernel
    rw [(scan_interleave.2 _ _ hhalf).2, htwo, hreferences _ _ (by decide) (by decide)]
    rfl

end Token

end FormulaDag
