import FormulaDag.Contexts.OfSource
import FormulaDag.Proofs.Rule.Occurrence
import FormulaDag.Proofs.Source.Absence

/-!
# Pools of texts that lack a name

Everything that is done to a pool takes texts apart and puts tokens in the place of their parts. A name that the source text lacks comes up
in none of this, so no text of the pool ever holds it.
-/

namespace FormulaDag

namespace Text

/-- Nothing reaches into or over a text: it begins and ends with the sign of a token, and what stands between lacks the word. -/
def Seals (word u : Text) : Prop := ∃ m, u = '@' :: (m ++ ['@']) ∧ Lacks word m

section
variable {word : Text} (hword : IsName word)
include hword

/-- A word is absent from a text when it is from both sides of a part that seals them off. -/
theorem IsName.lacks_around {x u y : Text} (hx : Lacks word x) (hu : Seals word u) (hy : Lacks word y) : Lacks word (x ++ u ++ y) := by
  obtain ⟨m, rfl, hm⟩ := hu
  have hrest : Lacks word (m ++ '@' :: y) := hword.lacks_join hm hy (by decide)
  simpa using hword.lacks_join hx hrest (by decide : '@'.isAlpha = false)

/-- A token seals its sides off from a name. -/
theorem IsName.seals_token (i : Nat) : Seals word (Index.token i) := by
  refine ⟨'/' :: (Text.ofNat i ++ ['/']), by rw [Index.token_eq]; simp, hword.lacks_of_no_letter fun c hc => ?_⟩
  simp only [List.mem_cons, List.mem_append, List.not_mem_nil, or_false] at hc
  rcases hc with rfl | hc | rfl
  · decide
  · exact not_isAlpha_of_isDigit (Index.isDigit_of_mem_ofNat hc)
  · decide

omit hword in
/-- A text that is a token and lacks the word. -/
theorem seals_of_only? {t : Text} (h : (Token.only? t).isSome = true) (ht : Lacks word t) : Seals word t := by
  obtain ⟨i, hi⟩ := Option.isSome_iff_exists.1 h
  rw [Token.only?] at hi
  split at hi
  · rename_i digits hsplit
    have heq := Token.split?_eq_some hsplit
    refine ⟨'/' :: (digits ++ ['/']), by rw [heq]; simp, ht.part ⟨['@'], ['@'], by rw [heq]; simp⟩⟩
  · cases hi

/-- New numbers in the tokens of a text bring up no name, whatever stands before. -/
theorem IsName.lacks_append_mapIndices (f : Nat → Nat) {x t : Text} (h : Lacks word (x ++ t)) : Lacks word (x ++ Token.mapIndices f t) := by
  rw [Token.mapIndices]
  induction t using Token.pieces.induct generalizing x with
  | case1 t digits rest hsplit ih =>
    have heq := Token.split?_eq_some hsplit
    rw [Token.pieces_of_split? hsplit, List.flatMap_cons]
    have hseals : Seals word (Token.mapPiece f (.token digits)) := by
      rw [Token.mapPiece]
      split
      · exact hword.seals_token _
      · exact ⟨'/' :: (digits ++ ['/']), by simp, h.part ⟨x ++ ['@'], '@' :: rest, by rw [heq]; simp⟩⟩
    have hrest : Lacks word ([] ++ rest) := h.part ⟨x ++ '@' :: '/' :: (digits ++ ['/', '@']), [], by rw [heq]; simp⟩
    rw [← List.append_assoc]
    exact hword.lacks_around (h.part ⟨[], t, by simp⟩) hseals (by simpa using ih hrest)
  | case2 hsplit => simpa using h
  | case3 c rest hsplit ih =>
    rw [Token.pieces_of_split?_eq_none hsplit, List.flatMap_cons]
    have hnext : Lacks word ((x ++ [c]) ++ rest) := by simpa using h
    simpa [Token.mapPiece] using ih hnext

/-- A name that is absent from a text is so when the indices are mapped. -/
theorem IsName.lacks_mapIndices (f : Nat → Nat) {t : Text} (h : Lacks word t) : Lacks word (Token.mapIndices f t) :=
  @IsName.lacks_append_mapIndices word hword f [] t h

end

/-- What stands inside a pair of parentheses is a part of the text. -/
theorem infix_of_inside? {t inner : Text} (h : inside? t = some inner) : inner <:+: t := by
  cases t with
  | nil => simp [inside?] at h
  | cons c rest =>
    simp only [inside?, Option.ite_none_right_eq_some, Option.some.injEq] at h
    rw [← h.2]
    exact (List.dropLast_prefix rest).isInfix.trans (List.suffix_cons c rest).isInfix

/-- A text without its outer parentheses is a part of it. -/
theorem unwrap_within (t : Text) : unwrap t <:+: t := by
  fun_induction unwrap t with
  | case1 t inner hinside ih => exact ih.trans (infix_of_inside? hinside)
  | case2 t hinside => exact List.infix_rfl

end Text

namespace Pool

/-- Every text of a pool has a property. -/
def Every (P : Text → Prop) (p : Pool) : Prop := ∀ t, .holding t ∈ p.cells → P t

section
variable {P : Text → Prop} {p : Pool}

/-- A property of all texts of a pool that the empty text has is one of the text of any index. -/
theorem Every.text (h : p.Every P) (hnil : P []) (i : Nat) : P (p.text i) := by
  rw [Pool.text]
  split
  · rename_i t ht
    exact h t (List.mem_of_getElem? ht)
  · exact hnil

/-- A property of all texts is kept when a text with it is interned. -/
theorem Every.intern (h : p.Every P) {t : Text} (ht : P t) : (p.intern t).pool.Every P := by
  rw [Pool.intern]
  split
  · exact h
  · intro u hu
    rcases List.mem_append.1 hu with hu | hu
    · exact h u hu
    · obtain rfl := Cell.holding.inj (List.mem_singleton.1 hu)
      exact ht

/-- A property of all texts is kept when a text with it is set. -/
theorem Every.setText (h : p.Every P) {t : Text} (ht : P t) (i : Nat) : (p.setText i t).Every P := by
  have hset : ∀ (cell : Cell) (table : List (Text × Nat)), (∀ u, cell = .holding u → u = t) → Every P ⟨p.cells.set i cell, table⟩ := by
    intro cell table hcell u hu
    rcases List.mem_or_eq_of_mem_set hu with hu | hu
    · exact h u hu
    · exact hcell u hu.symm ▸ ht
  rw [Pool.setText]
  split
  · split
    · exact hset _ _ fun u hu => (Cell.holding.inj hu).symm
    · exact hset _ _ fun u hu => nomatch hu
  · exact hset _ _ fun u hu => (Cell.holding.inj hu).symm

end

namespace Growth

/-- The text that has been read while groups are replaced. -/
def readSoFar (opener : Char) (here : Text) (around : List Text) : Text :=
  (around.foldl (fun inner outer => inner ++ opener :: outer) here).reverse

/-- What was read so far grows at its end. -/
theorem readSoFar_append (opener : Char) (w here : Text) (around : List Text) :
    readSoFar opener (w ++ here) around = readSoFar opener here around ++ w.reverse := by
  have hfold : around.foldl (fun inner outer => inner ++ opener :: outer) (w ++ here) =
      w ++ around.foldl (fun inner outer => inner ++ opener :: outer) here := by
    induction around generalizing here with
    | nil => rfl
    | cons outer more ih => rw [List.foldl_cons, List.foldl_cons, List.append_assoc, ih]
  rw [readSoFar, readSoFar, hfold, List.reverse_append]

theorem readSoFar_cons (opener : Char) (here outer : Text) (more : List Text) :
    readSoFar opener here (outer :: more) = readSoFar opener outer more ++ opener :: here.reverse := by
  have happend : readSoFar opener here (outer :: more) = readSoFar opener ((here ++ [opener]) ++ outer) more := by
    simp [readSoFar]
  rw [happend, readSoFar_append]
  simp

section
variable {word : Text} (hword : word.IsName) {g : Growth}
include hword

/-- The token for a group that lacks a name lets nothing reach over it. -/
theorem every_tokenFor (hg : g.pool.Every word.Lacks) {inner : Text} (h : word.Lacks inner) :
    (g.tokenFor inner).1.pool.Every word.Lacks ∧ word.Seals (g.tokenFor inner).2 := by
  have hunwrap : word.Lacks (Text.unwrap inner) := h.part (Text.unwrap_within inner)
  have hintern := hg.intern hunwrap
  rw [tokenFor]
  split
  · rename_i htoken
    exact ⟨hg, Text.seals_of_only? htoken hunwrap⟩
  · split
    · rename_i heq
      rw [heq] at hintern
      exact ⟨hintern, hword.seals_token _⟩
    · rename_i heq
      rw [heq] at hintern
      exact ⟨hintern, hword.seals_token _⟩

/-- Replacing groups keeps a name absent from the pool and from what is left of the text. -/
theorem every_replaceGroups {opener closer : Char} (hg : g.pool.Every word.Lacks) {here : Text} {around : List Text} {t : Text}
    (h : word.Lacks (readSoFar opener here around ++ t)) :
    (replaceGroups opener closer g here around t).1.pool.Every word.Lacks ∧
      word.Lacks (replaceGroups opener closer g here around t).2 := by
  induction t generalizing g here around with
  | nil => exact ⟨hg, by simpa [replaceGroups, readSoFar] using h⟩
  | cons c rest ih =>
    have hread : word.Lacks (readSoFar opener (c :: here) around ++ rest) := by
      rw [← List.singleton_append, readSoFar_append]
      simpa using h
    unfold replaceGroups
    split
    · rename_i hopener
      refine ih hg ?_
      rw [readSoFar_cons]
      simpa [hopener] using h
    · split
      · cases around with
        | nil => exact ih hg hread
        | cons outer more =>
          rw [readSoFar_cons] at h
          have hinner : word.Lacks here.reverse :=
            h.part ⟨readSoFar opener outer more ++ [opener], c :: rest, by simp⟩
          obtain ⟨hpool, hseals⟩ := every_tokenFor hword hg hinner
          refine ih hpool ?_
          rw [readSoFar_append, List.reverse_reverse]
          exact hword.lacks_around (h.part ⟨[], opener :: here.reverse ++ c :: rest, by simp⟩) hseals
            (h.part ⟨readSoFar opener outer more ++ opener :: here.reverse ++ [c], [], by simp⟩)
      · exact ih hg hread

/-- Replacing brackets keeps a name absent from the pool and from what is left of the text. -/
theorem every_replaceBrackets (hg : g.pool.Every word.Lacks) {done : Text} {inner : Option Text} {t : Text}
    (h : word.Lacks ((inner.getD [] ++ done).reverse ++ t)) :
    (replaceBrackets g done inner t).1.pool.Every word.Lacks ∧ word.Lacks (replaceBrackets g done inner t).2 := by
  induction t generalizing g done inner with
  | nil => exact ⟨hg, by simpa [replaceBrackets] using h⟩
  | cons c rest ih =>
    unfold replaceBrackets
    cases inner with
    | none =>
      refine ih hg ?_
      split <;> simpa using h
    | some text =>
      simp only
      split
      · exact ih hg (by simpa using h)
      · split
        · have htext : word.Lacks text.reverse := h.part ⟨done.reverse, c :: rest, by simp⟩
          obtain ⟨hpool, hseals⟩ := every_tokenFor hword hg htext
          refine ih hpool ?_
          have haround := hword.lacks_around (h.part ⟨[], text.reverse ++ c :: rest, by simp⟩ : word.Lacks done.reverse) hseals
            (h.part ⟨(text ++ done).reverse, [], by simp⟩ : word.Lacks (c :: rest))
          simpa using haround
        · split
          · exact ih hg (by simpa using h)
          · exact ih hg (by simpa using h)

/-- Replacing all groups of a text keeps a name absent. -/
theorem every_reduceText (hg : g.pool.Every word.Lacks) {t : Text} (h : word.Lacks t) :
    (g.reduceText t).1.pool.Every word.Lacks ∧ word.Lacks (g.reduceText t).2 := by
  obtain ⟨hpool, htext⟩ := @every_replaceGroups word hword g '(' ')' hg [] [] t h
  exact every_replaceBrackets hword hpool htext

/-- Replacing the groups of an index keeps a name absent. -/
theorem every_reduceGroupsOf (hg : g.pool.Every word.Lacks) (i : Nat) : (g.reduceGroupsOf i).pool.Every word.Lacks := by
  rw [reduceGroupsOf]
  split
  · obtain ⟨hpool, htext⟩ := every_reduceText hword hg (hg.text hword.lacks_nil i)
    rw [setText]
    split
    · exact hpool
    · exact hpool.setText htext i
  · exact hg

/-- Replacing the groups of a list of indices keeps a name absent. -/
theorem every_foldl (l : List Nat) (hg : g.pool.Every word.Lacks) : (l.foldl reduceGroupsOf g).pool.Every word.Lacks := by
  induction l generalizing g with
  | nil => exact hg
  | cons i rest ih => exact ih (every_reduceGroupsOf hword hg i)

end

end Growth

section
variable {word : Text} (hword : word.IsName) {p : Pool}
include hword

/-- Merging equal texts keeps a name absent. -/
theorem every_canonical (h : p.Every word.Lacks) : p.canonical.Every word.Lacks := by
  have hsweep : ∀ (l : List Nat) {q : Pool}, q.Every word.Lacks → (l.foldl tidy q).Every word.Lacks := by
    intro l
    induction l with
    | nil => exact fun hq => hq
    | cons i rest ih =>
      intro q hq
      refine ih ?_
      rw [tidy]
      split
      · exact hq.setText (hword.lacks_mapIndices q.resolve (hq.text hword.lacks_nil i)) i
      · exact hq
  fun_induction canonical p with
  | case1 p hless ih => exact ih (hsweep _ h)
  | case2 p hless => exact hsweep _ h

/-- Taking the groups of a text apart brings up no name that the text lacks. -/
theorem every_ofGroups {source : Text} (h : word.Lacks source) : (ofGroups source).Every word.Lacks := by
  have hempty : empty.Every word.Lacks := by
    intro t ht
    obtain rfl := Cell.holding.inj (List.mem_singleton.1 ht)
    exact hword.lacks_nil
  obtain ⟨hpool, htext⟩ := @Growth.every_replaceGroups word hword ⟨empty, []⟩ '{' '}' hempty [] [] source h
  have hbraces : (ofBraces source).Every word.Lacks := hpool.setText (htext.part (Text.unwrap_within _)) Index.root
  refine every_canonical hword ?_
  rw [withoutGroups]
  exact Growth.every_foldl hword _ (Growth.every_foldl hword _ hbraces)

end

end Pool

end FormulaDag
