import FormulaDag.Proofs.Pool.Flattening
import FormulaDag.Proofs.Source.Groups

/-!
# Turning groups into indices

A nested line and the line that is left of it when its groups of one kind have become indices for the trees of what they held. Both have
the same groups, so they stand for the same tree.
-/

namespace FormulaDag

namespace Line

/-- A line whose brackets hold nothing but single trees. -/
def Still (val : Nat → Tree) (s : Line) : Prop := Parts.brackets none (s.parts val) = s.parts val

/-- A nested line whose groups of one kind have become indices for the trees of what they held. -/
inductive Turned (opener closer : Char) (val : Nat → Tree) (n : Nat) : Line → Line → Prop
  | nil : Turned opener closer val n [] []
  | mark {m : Mark} {s s' : Line} (hm : ∀ c, m = .char c → Source.isDelimiter c = false) (h : Turned opener closer val n s s') :
      Turned opener closer val n (m :: s) (m :: s')
  | token {inner inner' s s' : Line} {k : Nat} (hne : inner ≠ []) (hinner : Turned opener closer val n inner inner')
      (hwithin : inner'.Within n) (hk : k < n) (hval : val k = Parts.stand (Parts.flat (inner'.parts val)))
      (h : Turned opener closer val n s s') : Turned opener closer val n (.char opener :: inner ++ .char closer :: s) (.ref k :: s')
  | group {o c : Char} {inner inner' s s' : Line} (hgroup : Source.openerOf? c = some o) (ho : o ≠ opener) (hne : inner ≠ [])
      (hinner : Turned opener closer val n inner inner') (h : Turned opener closer val n s s') :
      Turned opener closer val n (.char o :: inner ++ .char c :: s) (.char o :: inner' ++ .char c :: s')

section
variable {val val' : Nat → Tree} {n n' : Nat} {s s' : Line} {opener closer : Char}

/-- The parts of a line depend on the meanings of the indices below its bound only. -/
theorem Within.parts_eq (h : s.Within n) (hval : ∀ k, k < n → val' k = val k) : s.parts val' = s.parts val := h.map_part hval

/-- The value of a line depends on the meanings of the indices below its bound only. -/
theorem Within.value_eq (h : s.Within n) (hval : ∀ k, k < n → val' k = val k) : s.value val' = s.value val := by
  rw [value, value, h.parts_eq hval]

/-- A line stays still when the indices below its bound keep their meanings. -/
theorem Within.still (h : s.Within n) (hval : ∀ k, k < n → val' k = val k) (hs : s.Still val) : s.Still val' := by
  rw [Still, h.parts_eq hval]
  exact hs

/-- A line with open groups only is still. -/
theorem Open.still (h : s.Open) (val : Nat → Tree) : s.Still val :=
  Parts.brackets_of_free fun hmem => h '[' (by simp) (inl_mem_parts.1 hmem)

theorem Open.flat_eq (h : s.Open) (hbraces : .char '{' ∉ s ∧ .char '}' ∉ s) : Parts.flat (s.parts val) = s.parts val := by
  rw [Parts.flat_of_free, h.still val]
  intro c hc hmem
  rw [inl_mem_parts] at hmem
  simp only [List.mem_cons, List.not_mem_nil, or_false] at hc
  rcases hc with rfl | rfl | rfl | rfl
  · exact h '(' (by simp) hmem
  · exact h ')' (by simp) hmem
  · exact hbraces.1 hmem
  · exact hbraces.2 hmem

/-- A line without braces and with open groups only is nested. -/
theorem Open.nested (h : s.Open) (hbraces : .char '{' ∉ s ∧ .char '}' ∉ s) : Nested s := by
  induction s with
  | nil => exact .nil
  | cons m s ih =>
    refine .mark (fun c hc => ?_) (ih (fun c hc hmem => h c hc (List.mem_cons_of_mem _ hmem))
      ⟨fun hmem => hbraces.1 (List.mem_cons_of_mem _ hmem), fun hmem => hbraces.2 (List.mem_cons_of_mem _ hmem)⟩)
    subst hc
    refine Source.isDelimiter_of_openerOf?_eq_none ?_ ?_
    · by_contra hne
      obtain ⟨o, ho⟩ := Option.ne_none_iff_exists'.1 hne
      rcases Source.openerOf?_eq_some ho with ⟨-, rfl⟩ | ⟨-, rfl⟩ | ⟨-, rfl⟩
      · exact h ')' (by simp) (by simp)
      · exact hbraces.2 (by simp)
      · exact h ']' (by simp) (by simp)
    · by_contra hopener
      simp only [Source.isOpener, Bool.not_eq_false, Bool.or_eq_true, beq_iff_eq] at hopener
      rcases hopener with (rfl | rfl) | rfl
      · exact h '(' (by simp) (by simp)
      · exact hbraces.1 (by simp)
      · exact h '[' (by simp) (by simp)

/-- A still line without groups but brackets is what it stands for as it is. -/
theorem Still.value_eq (h : s.Still val) (hs : ∀ c ∈ ['(', ')', '{', '}'], .char c ∉ s) : s.value val = .node (s.parts val) := by
  rw [value, Parts.flat_of_free fun c hc hmem => hs c hc (inl_mem_parts.1 hmem), h]

namespace Turned

/-- A turn stays one over a longer pool in which the older indices keep their meanings. -/
theorem mono (h : Turned opener closer val n s s') (hn : n ≤ n') (hval : ∀ k, k < n → val' k = val k) :
    Turned opener closer val' n' s s' := by
  induction h with
  | nil => exact .nil
  | mark hm _ ih => exact .mark hm ih
  | token hne _ hwithin hk heq _ ihinner ih =>
    refine .token hne ihinner (hwithin.mono hn) (Nat.lt_of_lt_of_le hk hn) ?_ ih
    rw [hval _ hk, hwithin.parts_eq hval, heq]
  | group hgroup ho hne _ _ ihinner ih => exact .group hgroup ho hne ihinner ih

/-- A turn flattens the groups of a line. -/
theorem flattened (h : Turned opener closer val n s s') (hpair : Source.openerOf? closer = some opener) :
    Pool.Growth.Flattened opener closer s s' := by
  induction h with
  | nil => exact ⟨.nil, id, by simp, by simp, by simp⟩
  | mark hm _ ih =>
    exact ih.mark hm (Pool.Growth.ne_delimiter hpair hm (by simp)).2 (Pool.Growth.ne_delimiter hpair hm (by simp)).2
  | token _ _ _ _ _ _ _ ih => exact ih.token _
  | @group o c _ _ _ _ hgroup ho hne _ _ ihinner ih =>
    refine ihinner.group hgroup ho (Source.opener_ne_closer hgroup hpair) (Source.opener_ne_closer hpair hgroup).symm ?_ hne ih
    rintro rfl
    exact ho (Option.some.inj (hgroup.symm.trans hpair))

/-- A turned line is nested. -/
theorem nested (h : Turned opener closer val n s s') (hpair : Source.openerOf? closer = some opener) : Nested s := by
  induction h with
  | nil => exact .nil
  | mark hm _ ih => exact .mark hm ih
  | token hne _ _ _ _ _ ihinner ih => exact .group hpair hne ihinner ih
  | group hgroup _ hne _ _ ihinner ih => exact .group hgroup hne ihinner ih

/-- The groups of a line are the same before and after. -/
theorem groups (h : Turned opener closer val n s s') (hpair : Source.openerOf? closer = some opener) (hb : opener ≠ '[') :
    Parts.groups [] [] (s.parts val) = Parts.groups [] [] (s'.parts val) := by
  induction h with
  | nil => rfl
  | @mark m s s' hm h ih =>
    rw [parts_cons, parts_cons, groups_mark hm, groups_mark hm, (h.nested hpair).groups_nil, ih,
      ((h.flattened hpair).nested).groups_nil [m.part val]]
  | @token inner inner' s s' k hne hinner hwithin hk heq h ihinner ih =>
    rw [List.cons_append, parts_cons, parts_append, parts_cons, parts_cons]
    simp only [Mark.part]
    rw [(hinner.nested hpair).groups_group hpair hb, Parts.groups, heq, (h.nested hpair).groups_nil, ih,
      (h.flattened hpair).nested.groups_nil [_], Parts.flat, Parts.flat, ihinner]
  | @group o c inner inner' s s' hgroup ho hne hinner h ihinner ih =>
    rw [List.cons_append, List.cons_append, parts_cons, parts_cons, parts_append, parts_append, parts_cons, parts_cons]
    simp only [Mark.part]
    by_cases hob : o = '['
    · subst hob
      obtain rfl : c = ']' := Source.closer_unique hgroup (by rfl)
      rw [Parts.groups_other (by simp), Parts.groups_other (by simp), (hinner.nested hpair).groups, (hinner.flattened hpair).nested.groups,
        ihinner, Parts.groups_other (by simp), Parts.groups_other (by simp), (h.nested hpair).groups_nil, ih,
        (h.flattened hpair).nested.groups_nil (_ :: _)]
    · rw [(hinner.nested hpair).groups_group hgroup hob, (hinner.flattened hpair).nested.groups_group hgroup hob,
        (h.nested hpair).groups_nil, ih, (h.flattened hpair).nested.groups_nil [_], Parts.flat, Parts.flat, ihinner]

/-- A turn of parentheses or braces keeps the value of a line. -/
theorem value_eq (h : Turned opener closer val n s s') (hpair : Source.openerOf? closer = some opener) (hb : opener ≠ '[') :
    s.value val = s'.value val := by
  rw [value, value, Parts.flat, Parts.flat, h.groups hpair hb]

/-- The parentheses around a line are still there when its braces have been taken apart. -/
theorem unwrap (h : Turned '{' '}' val n s s') (hne : s ≠ []) : ∃ u u' : Line, Text.unwrap s.text = u.text ∧
    Text.unwrap s'.text = u'.text ∧ Turned '{' '}' val n u u' ∧ Wraps u s ∧ Wraps u' s' ∧ u ≠ [] := by
  induction hlen : s.length using Nat.strong_induction_on generalizing s s' with
  | _ length ih =>
    subst hlen
    have hstays : Text.inside? s.text = none → Text.inside? s'.text = none → ∃ u u' : Line, Text.unwrap s.text = u.text ∧
        Text.unwrap s'.text = u'.text ∧ Turned '{' '}' val n u u' ∧ Wraps u s ∧ Wraps u' s' ∧ u ≠ [] := fun hs hs' =>
      ⟨s, s', Text.unwrap_of_inside?_eq_none hs, Text.unwrap_of_inside?_eq_none hs', h, .refl, .refl, hne⟩
    cases h with
    | nil => exact absurd rfl hne
    | @mark m s s' hm _ =>
      have hm' : m ≠ .char '(' := fun heq => absurd (hm _ heq) (by decide)
      exact hstays (inside?_cons hm' _) (inside?_cons hm' _)
    | token => exact hstays (inside?_cons (by decide) _) (inside?_cons (by simp) _)
    | @group o c inner inner' s s' hgroup ho hinner_ne hinner h =>
      by_cases ho' : o = '('
      · subst ho'
        obtain rfl : c = ')' := Source.closer_unique hgroup (by rfl)
        have hflat := hinner.flattened (by rfl)
        by_cases hs : s = []
        · subst hs
          cases h
          obtain ⟨u, u', hu, hu', hturned, hwraps, hwraps', hune⟩ := ih inner.length (by simp) hinner hinner_ne rfl
          have hinside := (hinner.nested (by rfl)).inside?_parentheses
          exact ⟨u, u', (Text.unwrap_of_inside? hinside).trans hu, (Text.unwrap_of_inside? hflat.nested.inside?_parentheses).trans hu',
            hturned, .parentheses hwraps, .parentheses hwraps', hune⟩
        · have hs' := (h.flattened (by rfl)).nonempty hs
          exact hstays ((hinner.nested (by rfl)).inside?_group hs) (hflat.nested.inside?_group hs')
      · have hm : Mark.char o ≠ .char '(' := by simpa using ho'
        exact hstays (inside?_cons hm _) (inside?_cons hm _)

end Turned

end

end Line

end FormulaDag
