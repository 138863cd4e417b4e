import FormulaDag.Proofs.Pool.Trees
import FormulaDag.Proofs.Source.Nesting

/-!
# The trees of groups

What becomes of a source text when its groups are taken apart can be said without a pool: each group in braces or parentheses becomes the
tree of what stands in it, and so does what stands in brackets, which are kept. A group that holds a single tree is that tree, so a pair of
parentheses around a group, or around a tree, is not seen.
-/

namespace FormulaDag

namespace Parts

/-- The tree that stands for parts. A tree stands for itself. -/
def stand : Parts → Tree
  | [.inr w] => w
  | u => .node u

/-- The parts with trees for what stands in brackets without brackets inside. `inner` is what stands behind the last bracket that has
opened, reversed. -/
def brackets : Option Parts → Parts → Parts
  | inner, [] => (inner.getD []).reverse
  | none, .inr w :: rest => .inr w :: brackets none rest
  | none, .inl c :: rest => .inl c :: brackets (if c = '[' then some [] else none) rest
  | some inner, .inr w :: rest => brackets (some (.inr w :: inner)) rest
  | some inner, .inl c :: rest =>
    if c = '[' then inner.reverse ++ .inl c :: brackets (some []) rest
    else if c = ']' then .inr (stand inner.reverse) :: .inl c :: brackets none rest
    else brackets (some (.inl c :: inner)) rest

/-- The parts with trees for the groups in braces and in parentheses. `here` is what stands behind the last delimiter that has opened and
`around` what stands before it, one for each open delimiter from the innermost out, all of them reversed. -/
def groups (here : Parts) (around : List Parts) : Parts → Parts
  | [] => here.reverse
  | .inr w :: rest => groups (.inr w :: here) around rest
  | .inl c :: rest =>
    if c = '(' ∨ c = '{' then groups [] (here :: around) rest
    else if c = ')' ∨ c = '}' then
      match around with
      | [] => groups (.inl c :: here) [] rest
      | outer :: more => groups (.inr (stand (brackets none here.reverse)) :: outer) more rest
    else groups (.inl c :: here) around rest

/-- The parts that are left when groups have become trees. -/
def flat (u : Parts) : Parts := brackets none (groups [] [] u)

section
variable {u : Parts} {w : Tree} {m : Char ⊕ Tree}

/-- Parts other than one subtree stand as a node. -/
theorem stand_of_ne (h : ∀ w, u ≠ [.inr w]) : stand u = .node u := by
  unfold stand
  split
  · exact absurd rfl (h _)
  · rfl

/-- Replacing brackets does not empty parts. -/
theorem brackets_cons_ne_nil (m : Char ⊕ Tree) (u : Parts) : brackets none (m :: u) ≠ [] := by
  cases m <;> simp [brackets]

/-- Only a tree becomes a tree. -/
theorem brackets_eq_singleton (h : brackets none u = [.inr w]) : u = [.inr w] := by
  match u, h with
  | .inl c :: u, h =>
    rw [brackets, List.cons.injEq] at h
    cases h.1
  | .inr v :: u, h =>
    rw [brackets, List.cons.injEq] at h
    cases u with
    | nil => rw [h.1]
    | cons m u => exact absurd h.2 (brackets_cons_ne_nil m u)

/-- The characters are those that were there before. -/
theorem inl_mem_brackets {c : Char} {inner : Option Parts} (h : .inl c ∈ brackets inner u) : .inl c ∈ u ∨ ∃ i ∈ inner, .inl c ∈ i := by
  induction u generalizing inner with
  | nil =>
    cases inner with
    | none => cases h
    | some inner => exact .inr ⟨inner, rfl, by simpa [brackets] using h⟩
  | cons m u ih =>
    have hrest : ∀ {inner' : Option Parts}, .inl c ∈ brackets inner' u → (∀ i ∈ inner', .inl c ∈ i → .inl c = m ∨ ∃ j ∈ inner, .inl c ∈ j) →
        .inl c ∈ m :: u ∨ ∃ i ∈ inner, .inl c ∈ i := by
      intro inner' hmem hinner
      rcases ih hmem with hmem | ⟨i, hi, hmem⟩
      · exact .inl (List.mem_cons_of_mem _ hmem)
      · rcases hinner i hi hmem with heq | hmem
        · exact .inl (by rw [heq]; exact List.mem_cons_self)
        · exact .inr hmem
    cases inner with
    | none =>
      cases m with
      | inr w =>
        rw [brackets, List.mem_cons] at h
        exact hrest (h.resolve_left (by simp)) (by simp)
      | inl d =>
        rw [brackets, List.mem_cons] at h
        rcases h with heq | hmem
        · exact .inl (heq ▸ List.mem_cons_self)
        · refine hrest hmem ?_
          split <;> simp
    | some inner =>
      cases m with
      | inr w =>
        rw [brackets] at h
        exact hrest h (by simp)
      | inl d =>
        rw [brackets] at h
        split at h
        · rcases List.mem_append.1 h with hmem | hmem
          · exact .inr ⟨inner, rfl, by simpa using hmem⟩
          · rcases List.mem_cons.1 hmem with heq | hmem
            · exact .inl (heq ▸ List.mem_cons_self)
            · exact hrest hmem (by simp)
        · split at h
          · simp only [List.mem_cons, reduceCtorEq, false_or] at h
            rcases h with heq | hmem
            · exact .inl (heq ▸ List.mem_cons_self)
            · exact hrest hmem (by simp)
          · exact hrest h (by simp)

/-- Without brackets there is nothing to take apart. -/
theorem brackets_of_free (h : .inl '[' ∉ u) : brackets none u = u := by
  induction u with
  | nil => rfl
  | cons m u ih =>
    rw [List.mem_cons, not_or] at h
    cases m with
    | inr w => rw [brackets, ih h.2]
    | inl c =>
      have hc : c ≠ '[' := fun heq => h.1 (by rw [heq])
      rw [brackets, if_neg hc, ih h.2]

/-- Behind a bracket that has opened, parts without brackets wait for the one that closes. -/
theorem brackets_append {x : Parts} (hopen : .inl '[' ∉ x) (hclose : .inl ']' ∉ x) (inner t : Parts) :
    brackets (some inner) (x ++ t) = brackets (some (x.reverse ++ inner)) t := by
  induction x generalizing inner with
  | nil => rfl
  | cons m x ih =>
    simp only [List.mem_cons, not_or] at hopen hclose
    rw [List.reverse_cons, List.append_assoc, List.singleton_append, ← ih hopen.2 hclose.2]
    cases m with
    | inr w => rw [List.cons_append, brackets]
    | inl c =>
      have hc : c ≠ '[' ∧ c ≠ ']' := ⟨fun heq => hopen.1 (by rw [heq]), fun heq => hclose.1 (by rw [heq])⟩
      rw [List.cons_append, brackets, if_neg hc.1, if_neg hc.2]

/-- What brackets hold is taken apart once. The second statement is the first one behind a bracket that has opened. -/
theorem brackets_brackets (u : Parts) : brackets none (brackets none u) = brackets none u ∧
    ∀ inner : Parts, .inl '[' ∉ inner → .inl ']' ∉ inner →
      brackets (some []) (brackets (some inner) u) = brackets (some inner) u := by
  induction u with
  | nil =>
    refine ⟨rfl, fun inner hopen hclose => ?_⟩
    have h := brackets_append (x := inner.reverse) (by simpa using hopen) (by simpa using hclose) [] []
    rw [List.append_nil] at h
    simp [brackets, h]
  | cons m u ih =>
    obtain ⟨ih, ihinner⟩ := ih
    have hopened := ihinner [] (by simp) (by simp)
    cases m with
    | inr w =>
      refine ⟨by rw [brackets, brackets, ih], fun inner hopen hclose => ?_⟩
      rw [brackets]
      exact ihinner _ (by simpa using hopen) (by simpa using hclose)
    | inl c =>
      constructor
      · rw [brackets, brackets]
        split
        · rw [hopened]
        · rw [ih]
      · intro inner hopen hclose
        rw [brackets]
        split
        · rename_i hc
          rw [brackets_append (by simpa using hopen) (by simpa using hclose), brackets, if_pos hc, hopened]
          simp
        · split
          · rename_i hc hc'
            rw [brackets, brackets, if_neg hc, if_pos hc', ih]
            rfl
          · rename_i hc hc'
            refine ihinner _ ?_ ?_
            · simpa using ⟨Ne.symm hc, hopen⟩
            · simpa using ⟨Ne.symm hc', hclose⟩

/-- An opening parenthesis or brace begins a group. -/
theorem groups_opener {c : Char} (hc : c = '(' ∨ c = '{') (here : Parts) (around : List Parts) (t : Parts) :
    groups here around (.inl c :: t) = groups [] (here :: around) t := by
  cases around <;> simp [groups, hc]

/-- A closing parenthesis or brace replaces the innermost group by its subtree. -/
theorem groups_closer {c : Char} (hc : c = ')' ∨ c = '}') (here outer : Parts) (around : List Parts) (t : Parts) :
    groups here (outer :: around) (.inl c :: t) = groups (.inr (stand (brackets none here.reverse)) :: outer) around t := by
  rcases hc with rfl | rfl <;> simp [groups]

/-- Any other character is read into the innermost group. -/
theorem groups_other {c : Char} (hc : ∀ d ∈ ['(', ')', '{', '}'], c ≠ d) (here : Parts) (around : List Parts) (t : Parts) :
    groups here around (.inl c :: t) = groups (.inl c :: here) around t := by
  simp only [List.mem_cons, List.not_mem_nil, or_false, forall_eq_or_imp, forall_eq] at hc
  cases around <;> simp [groups, hc]

/-- Parts without groups stay as they are. -/
theorem groups_of_free (h : ∀ c ∈ ['(', ')', '{', '}'], .inl c ∉ u) (here : Parts) (around : List Parts) (t : Parts) :
    groups here around (u ++ t) = groups (u.reverse ++ here) around t := by
  induction u generalizing here with
  | nil => rfl
  | cons m u ih =>
    have hrest := ih (fun c hc hmem => h c hc (List.mem_cons_of_mem _ hmem)) (m :: here)
    rw [List.reverse_cons, List.append_assoc, List.singleton_append, ← hrest]
    cases m with
    | inr w => rw [List.cons_append, groups]
    | inl c =>
      have hc : ∀ d ∈ ['(', ')', '{', '}'], c ≠ d := fun d hd heq => h d hd (by simp [heq])
      rw [List.cons_append, groups_other hc]

/-- Parts without parentheses and braces are flat but for their brackets. -/
theorem flat_of_free (h : ∀ c ∈ ['(', ')', '{', '}'], .inl c ∉ u) : flat u = brackets none u := by
  have hgroups := groups_of_free h [] [] []
  rw [List.append_nil] at hgroups
  rw [flat, hgroups, groups]
  simp

end

end Parts

namespace Line

/-- The parts of a line, given the trees of the indices. -/
def parts (val : Nat → Tree) (s : Line) : Parts := s.map (Mark.part val)

/-- The tree that a line is in the end for. -/
def value (val : Nat → Tree) (s : Line) : Tree := .node (Parts.flat (s.parts val))

section
variable {val : Nat → Tree} {s s' l : Line} {m : Mark} {opener closer c : Char}

@[simp] theorem parts_nil : parts val [] = [] := rfl

@[simp] theorem parts_cons : parts val (m :: s) = m.part val :: parts val s := rfl

/-- The parts of two lines in a row are those of both. -/
@[simp] theorem parts_append : parts val (s ++ s') = parts val s ++ parts val s' := List.map_append

/-- The parts of a line without indices are its characters. -/
theorem parts_eq_map_inl (h : ∀ k, .ref k ∉ s) : parts val s = (text s).map .inl := by
  induction s with
  | nil => rfl
  | cons m s ih =>
    cases m with
    | char c => simp [Mark.part, Mark.text, ih fun k hk => h k (List.mem_cons_of_mem _ hk)]
    | ref k => exact absurd List.mem_cons_self (h k)

/-- The parts of a plain text are its characters. -/
theorem parts_ofText (t : Text) : parts val (ofText t) = t.map .inl := by
  rw [parts_eq_map_inl (by simp [ofText]), text_ofText]

/-- The characters among the parts are those of the line. -/
theorem inl_mem_parts : .inl c ∈ parts val s ↔ .char c ∈ s := by
  rw [parts, List.mem_map]
  constructor
  · rintro ⟨m, hm, heq⟩
    cases m with
    | char d => exact Sum.inl.inj heq ▸ hm
    | ref k => cases heq
  · exact fun hc => ⟨.char c, hc, rfl⟩

/-- A mark that is no delimiter stays where it is. -/
theorem groups_mark (hm : ∀ c, m = .char c → Source.isDelimiter c = false) (here : Parts) (around : List Parts) (t : Parts) :
    Parts.groups here around (m.part val :: t) = Parts.groups (m.part val :: here) around t := by
  refine Parts.groups_of_free (u := [m.part val]) (fun c hc hmem => ?_) here around t
  cases m with
  | ref k => simp [Mark.part] at hmem
  | char d =>
    simp only [Mark.part, List.mem_singleton, Sum.inl.injEq] at hmem
    have hd := hm d rfl
    subst hmem
    simp only [List.mem_cons, List.not_mem_nil, or_false] at hc
    rcases hc with rfl | rfl | rfl | rfl <;> exact absurd hd (by decide)

/-- A group of a nested line becomes a tree, wherever it stands, once the line is known to be taken apart on its own. -/
theorem groups_group (hpair : Source.openerOf? closer = some opener) (hb : opener ≠ '[')
    (hl : ∀ here around t, Parts.groups here around (parts val l ++ t) =
      Parts.groups ((Parts.groups [] [] (parts val l)).reverse ++ here) around t) (here : Parts) (around : List Parts) (t : Parts) :
    Parts.groups here around (.inl opener :: (parts val l ++ .inl closer :: t)) =
      Parts.groups (.inr (Parts.stand (Parts.flat (parts val l))) :: here) around t := by
  rcases Source.openerOf?_eq_some hpair with ⟨rfl, rfl⟩ | ⟨rfl, rfl⟩ | ⟨rfl, rfl⟩
  · rw [Parts.groups_opener (by simp), hl, Parts.groups_closer (by simp)]
    simp [Parts.flat]
  · rw [Parts.groups_opener (by simp), hl, Parts.groups_closer (by simp)]
    simp [Parts.flat]
  · exact absurd rfl hb

/-- The groups of a nested line are taken apart in the same way wherever the line stands. -/
theorem Nested.groups (h : Nested s) (here : Parts) (around : List Parts) (t : Parts) :
    Parts.groups here around (parts val s ++ t) = Parts.groups ((Parts.groups [] [] (parts val s)).reverse ++ here) around t := by
  have hself : ∀ {u : Parts} {x : Parts}, (∀ here around t, Parts.groups here around (u ++ t) = Parts.groups (x.reverse ++ here) around t) →
      Parts.groups [] [] u = x := by
    intro u x hu
    have := hu [] [] []
    rw [List.append_nil, List.append_nil] at this
    rw [this, Parts.groups, List.reverse_reverse]
  suffices hexists : ∃ x : Parts, ∀ here around t, Parts.groups here around (parts val s ++ t) = Parts.groups (x.reverse ++ here) around t by
    obtain ⟨x, hx⟩ := hexists
    rw [hself hx, hx]
  induction h with
  | nil => exact ⟨[], fun _ _ _ => rfl⟩
  | @mark m s hm hs ih =>
    obtain ⟨x, hx⟩ := ih
    refine ⟨m.part val :: x, fun here around t => ?_⟩
    rw [parts_cons, List.cons_append, groups_mark hm, hx]
    simp
  | @group opener closer inner s hpair hne hinner hs ihinner ihs =>
    obtain ⟨x, hx⟩ := ihinner
    obtain ⟨y, hy⟩ := ihs
    by_cases hb : opener = '['
    · subst hb
      obtain rfl : closer = ']' := Source.closer_unique hpair (by rfl)
      refine ⟨.inl '[' :: (x ++ .inl ']' :: y), fun here around t => ?_⟩
      have hbracket : ∀ (c : Char) (here : Parts) (around : List Parts) (t : Parts), c = '[' ∨ c = ']' →
          Parts.groups here around (.inl c :: t) = Parts.groups (.inl c :: here) around t := by
        intro c here around t hc
        refine Parts.groups_of_free (u := [.inl c]) (fun d hd hmem => ?_) here around t
        simp only [List.mem_singleton, Sum.inl.injEq] at hmem
        subst hmem
        rcases hc with rfl | rfl <;> simp at hd
      simp only [List.cons_append, parts_cons, parts_append, Mark.part, List.append_assoc]
      rw [hbracket _ _ _ _ (.inl rfl), hx, hbracket _ _ _ _ (.inr rfl), hy]
      simp
    · refine ⟨.inr (Parts.stand (Parts.flat (parts val inner))) :: y, fun here around t => ?_⟩
      simp only [List.cons_append, parts_cons, parts_append, Mark.part, List.append_assoc]
      rw [groups_group hpair hb (fun here around t => by rw [hself hx, hx]), hy]
      simp

/-- A nested group is replaced by one subtree. -/
theorem Nested.groups_group (h : Nested l) (hpair : Source.openerOf? closer = some opener) (hb : opener ≠ '[') (here : Parts)
    (around : List Parts) (t : Parts) : Parts.groups here around (.inl opener :: (parts val l ++ .inl closer :: t)) =
      Parts.groups (.inr (Parts.stand (Parts.flat (parts val l))) :: here) around t :=
  Line.groups_group hpair hb h.groups here around t

/-- A nested group of parentheses is replaced by one subtree. -/
theorem Nested.groups_parentheses (h : Nested l) (val : Nat → Tree) (here : Parts) (around : List Parts) (t : Parts) :
    Parts.groups here around (.inl '(' :: (parts val l ++ .inl ')' :: t)) =
      Parts.groups (.inr (Parts.stand (Parts.flat (parts val l))) :: here) around t :=
  h.groups_group (by rfl) (by decide) here around t

/-- A nested line is read into the innermost group by its own groups. -/
theorem Nested.groups_nil (h : Nested s) (here : Parts) (around : List Parts) :
    Parts.groups here around (parts val s) = here.reverse ++ Parts.groups [] [] (parts val s) := by
  have hgroups : Parts.groups here around (parts val s ++ []) = _ := h.groups here around []
  rw [List.append_nil] at hgroups
  rw [hgroups, Parts.groups, List.reverse_append, List.reverse_reverse]

/-- The groups of a nested line are not empty. -/
theorem Nested.groups_ne_nil (h : Nested s) (hne : s ≠ []) : Parts.groups [] [] (parts val s) ≠ [] := by
  cases h with
  | nil => exact absurd rfl hne
  | @mark m s hm hs =>
    rw [parts_cons, groups_mark hm, hs.groups_nil]
    simp
  | @group opener closer inner s hpair hne' hinner hs =>
    rw [List.cons_append, parts_cons, parts_append, parts_cons]
    simp only [Mark.part]
    by_cases hb : opener = '['
    · subst hb
      obtain rfl : closer = ']' := Source.closer_unique hpair (by rfl)
      rw [Parts.groups_other (by simp), hinner.groups, Parts.groups_other (by simp), hs.groups_nil]
      simp
    · rw [hinner.groups_group hpair hb, hs.groups_nil]
      simp

/-- Only an index stands for a tree in a line without braces that is in no parentheses. -/
theorem Nested.eq_ref_of_flat (h : Nested s) (hbraces : .char '{' ∉ s) (hinside : Text.inside? (text s) = none) {w : Tree}
    (hflat : Parts.flat (parts val s) = [.inr w]) : ∃ k, s = [.ref k] := by
  have hgroups := Parts.brackets_eq_singleton hflat
  have hrest : ∀ {v : Char ⊕ Tree} {s : Line}, Nested s → v :: Parts.groups [] [] (parts val s) = [.inr w] → v = .inr w ∧ s = [] := by
    intro v s hs heq
    rw [List.cons.injEq] at heq
    exact ⟨heq.1, by_contra fun hne => hs.groups_ne_nil hne heq.2⟩
  cases h with
  | nil => cases hgroups
  | @mark m s hm hs =>
    rw [parts_cons, groups_mark hm, hs.groups_nil] at hgroups
    obtain ⟨hv, rfl⟩ := hrest hs hgroups
    cases m with
    | char c => cases hv
    | ref k => exact ⟨k, rfl⟩
  | @group opener closer inner s hpair hne hinner hs =>
    rw [List.cons_append, parts_cons, parts_append, parts_cons] at hgroups
    simp only [Mark.part] at hgroups
    rcases Source.openerOf?_eq_some hpair with ⟨rfl, rfl⟩ | ⟨rfl, rfl⟩ | ⟨rfl, rfl⟩
    · rw [hinner.groups_group hpair (by decide), hs.groups_nil] at hgroups
      obtain ⟨-, rfl⟩ := hrest hs hgroups
      rw [hinner.inside?_parentheses] at hinside
      cases hinside
    · exact absurd List.mem_cons_self hbraces
    · rw [Parts.groups_other (by simp), hinner.groups, Parts.groups_other (by simp), hs.groups_nil] at hgroups
      simp at hgroups

/-- Parentheses around a nested line do not show in the tree that stands for it. -/
theorem Nested.stand_parentheses (h : Nested l) :
    Parts.stand (Parts.flat (parts val (.char '(' :: l ++ [.char ')']))) = Parts.stand (Parts.flat (parts val l)) := by
  have hgroups := h.groups_parentheses val [] [] []
  rw [Parts.flat, List.cons_append, parts_cons, parts_append]
  simp only [Mark.part, parts_cons, parts_nil]
  rw [hgroups]
  rfl

/-- A line in a pair of delimiters stands as the line without. -/
theorem Wraps.stand_eq (h : Wraps s' s) (hs' : Nested s') (hne : s' ≠ []) :
    Nested s ∧ Parts.stand (Parts.flat (parts val s)) = Parts.stand (Parts.flat (parts val s')) := by
  induction h with
  | refl => exact ⟨hs', rfl⟩
  | @parentheses s h ih =>
    have hsne : s ≠ [] := fun heq => by
      cases h with
      | refl => exact hne heq
      | parentheses => cases heq
    exact ⟨.group rfl hsne ih.1 .nil, ih.1.stand_parentheses.trans ih.2⟩

end

end Line

/-- The tree of a source text whose groups have been taken apart. Parentheses around the whole text are left away. -/
def Source.tree (t : Text) : Tree := .node (Parts.flat ((Text.unwrap t).map .inl))

end FormulaDag
