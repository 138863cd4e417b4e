import FormulaDag.Proofs.Rule.Cutting

/-!
# What the rules make of a text

The rules are tried in order on the parts of a text. Each takes occurrences out, one at a time, whose own parts are reduced in the same
way, and after the last rule the first one is tried again, until every rule leaves the parts as they are. What becomes of parts is
determined by them alone, not by when their turn comes or by what stands in other texts.
-/

namespace FormulaDag

namespace Rule

/-- A numbered rule has nothing to take out of parts. -/
def Rests (e : Nat × Rule) (u : Parts) : Prop := ∃ meaning s, Line.Spells meaning s u ∧ e.2.rests e.1 s.text = true

/-- A numbered rule takes the middle of the three parts out, which is not all. -/
inductive Cuts (e : Nat × Rule) : Parts → Parts → Parts → Prop where
  | mk {meaning : Nat → Tree} {a m b : Line} {l : Located} (hs : Line.Within Index.bound (a ++ (m ++ b)))
      (h : e.2.Divides e.1 a m b l) (hpart : a ≠ [] ∨ b ≠ []) :
      Cuts e (a.map (Mark.part meaning)) (m.map (Mark.part meaning)) (b.map (Mark.part meaning))

section
variable {e : Nat × Rule} {meaning : Nat → Tree} {s : Line} {u a m b a' m' b' : Parts} (hr : e.2.IsUniform) (hsep : e.2.Separate)
include hr hsep

/-- A rule that rests in the parts of a line rests in the line. -/
theorem Rests.rests (h : Rests e u) (hs : s.Spells meaning u) : e.2.rests e.1 s.text = true :=
  let ⟨_, _, hs', hrests⟩ := h
  rests_along hr hsep hs' hs hrests

/-- A rule that cuts the parts of a line cuts the line at the same places. -/
theorem Cuts.divides (h : Cuts e a m b) (hs : s.Spells meaning (a ++ (m ++ b))) : ∃ (a' m' b' : Line) (l : Located),
    s = a' ++ (m' ++ b') ∧ e.2.Divides e.1 a' m' b' l ∧ (a' ≠ [] ∨ b' ≠ []) ∧ a'.map (Mark.part meaning) = a ∧
      m'.map (Mark.part meaning) = m ∧ b'.map (Mark.part meaning) = b := by
  obtain ⟨hwithin, hdivides, hpart⟩ := h
  obtain ⟨a', m', b', l, rfl, hdivides', ha, hm, hb⟩ := hdivides.along hr hsep ⟨hwithin, by rw [List.map_append, List.map_append]⟩ hs
  refine ⟨a', m', b', l, rfl, hdivides', hpart.imp (fun hne hnil => hne ?_) fun hne hnil => hne ?_, ha, hm, hb⟩
  · rw [hnil, List.map_nil, eq_comm, List.map_eq_nil_iff] at ha
    exact ha
  · rw [hnil, List.map_nil, eq_comm, List.map_eq_nil_iff] at hb
    exact hb

omit hr hsep in
/-- Parts that a rule cuts are those of some line. -/
theorem Cuts.exists_spelled (h : Cuts e a m b) : ∃ meaning s, Line.Spells meaning s (a ++ (m ++ b)) := by
  obtain ⟨hwithin, -, -⟩ := h
  exact ⟨_, _, hwithin, by rw [List.map_append, List.map_append]⟩

/-- A rule that cuts parts does not rest in them. -/
theorem Cuts.not_rests (h : Cuts e a m b) : ¬Rests e (a ++ (m ++ b)) := by
  intro hrests
  obtain ⟨meaning, s, hs⟩ := h.exists_spelled
  have hrest := hrests.rests hr hsep hs
  obtain ⟨a', m', b', l, rfl, hdivides, hpart, -⟩ := h.divides hr hsep hs
  rw [Rule.rests, hdivides.found] at hrest
  obtain ⟨rfl, rfl⟩ := (hdivides.isWhole_iff hr.aligned).1 hrest
  simp at hpart

/-- A rule cuts the same parts in one way only. -/
theorem Cuts.unique (h : Cuts e a m b) (h' : Cuts e a' m' b') (heq : a ++ (m ++ b) = a' ++ (m' ++ b')) : a = a' ∧ m = m' ∧ b = b' := by
  obtain ⟨meaning, s, hs⟩ := h.exists_spelled
  obtain ⟨a₁, m₁, b₁, l₁, rfl, hdivides, -, rfl, rfl, rfl⟩ := h.divides hr hsep hs
  obtain ⟨a₂, m₂, b₂, l₂, heq', hdivides', -, rfl, rfl, rfl⟩ := h'.divides hr hsep (heq ▸ hs)
  obtain rfl := Option.some.inj (Except.ok.inj (hdivides.found.symm.trans (heq' ▸ hdivides'.found)))
  have hright := hs.within.subset (List.subset_append_right a₁ (m₁ ++ b₁))
  obtain rfl : a₁ = a₂ := (hs.within.subset (List.subset_append_left a₁ (m₁ ++ b₁))).text_injective
    ((heq' ▸ hs.within).subset (List.subset_append_left a₂ (m₂ ++ b₂))) (hdivides.before.trans hdivides'.before.symm)
  have hmb := List.append_cancel_left heq'
  obtain rfl : m₁ = m₂ := (hright.subset (List.subset_append_left m₁ b₁)).text_injective
    ((hmb ▸ hright).subset (List.subset_append_left m₂ b₂)) (hdivides.taken.trans hdivides'.taken.symm)
  exact ⟨rfl, rfl, by rw [List.append_cancel_left hmb]⟩

end

end Rule

open Rule (Rests Cuts)

/-- `Reduces all rest u w` says that `w` is what becomes of the parts `u` when the rules of `rest` are tried next and after them those of
`all`, over and over, until they all rest. -/
inductive Reduces (all : List (Nat × Rule)) : List (Nat × Rule) → Parts → Tree → Prop where
  | done {u : Parts} (h : ∀ e ∈ all, Rests e u) : Reduces all [] u (.node u)
  | again {u : Parts} {w : Tree} (h : Reduces all all u w) : Reduces all [] u w
  | pass {e : Nat × Rule} {rest : List (Nat × Rule)} {u : Parts} {w : Tree} (hrest : Rests e u) (h : Reduces all rest u w) :
      Reduces all (e :: rest) u w
  | cut {e : Nat × Rule} {rest : List (Nat × Rule)} {a m b : Parts} {v w : Tree} (hcut : Cuts e a m b) (hm : Reduces all all m v)
      (h : Reduces all (e :: rest) (a ++ .inr v :: b) w) : Reduces all (e :: rest) (a ++ (m ++ b)) w

namespace Reduces
variable {all rest : List (Nat × Rule)} {e : Nat × Rule} {u : Parts} {w w' : Tree}

/-- Where no rule is left, the parts are reduced, or the rules begin again. -/
theorem cases_nil (h : Reduces all [] u w) : (∀ e ∈ all, Rests e u) ∧ w = .node u ∨ Reduces all all u w := by
  cases h with
  | done h => exact .inl ⟨h, rfl⟩
  | again h => exact .inr h

/-- The next rule rests in the parts, or it cuts one out and has another turn. -/
theorem cases_cons (h : Reduces all (e :: rest) u w) : Rests e u ∧ Reduces all rest u w ∨
    ∃ a m b v, u = a ++ (m ++ b) ∧ Cuts e a m b ∧ Reduces all all m v ∧ Reduces all (e :: rest) (a ++ .inr v :: b) w := by
  cases h with
  | pass hrest h => exact .inl ⟨hrest, h⟩
  | cut hcut hm h => exact .inr ⟨_, _, _, _, rfl, hcut, hm, h⟩

section
variable (hall : ∀ e ∈ all, e.2.IsUniform ∧ e.2.Separate)
include hall

/-- Rules that rest do nothing. -/
theorem append_iff {tried : List (Nat × Rule)} (hsub : tried ⊆ all) (htried : ∀ e ∈ tried, Rests e u) :
    Reduces all (tried ++ rest) u w ↔ Reduces all rest u w := by
  induction tried with
  | nil => rfl
  | cons e tried ih =>
    obtain ⟨he, htried⟩ := List.forall_mem_cons.1 htried
    have hmem : e ∈ all := hsub (by simp)
    rw [← ih (fun e he => hsub (by simp [he])) htried]
    refine ⟨fun h => ?_, .pass he⟩
    rcases h.cases_cons with ⟨-, h⟩ | ⟨a, m, b, v, rfl, hcut, -⟩
    · exact h
    · exact absurd he (hcut.not_rests (hall e hmem).1 (hall e hmem).2)

/-- Parts in which all rules rest are left as they are. -/
theorem eq_node (h : Reduces all rest u w) (hsub : rest ⊆ all) (hrests : ∀ e ∈ all, Rests e u) : w = .node u := by
  induction h with
  | done _ => rfl
  | again _ ih => exact ih (List.Subset.refl _) hrests
  | pass _ _ ih => exact ih (fun e he => hsub (by simp [he])) hrests
  | @cut e rest a m b v w hcut _ _ _ _ =>
    have hmem : e ∈ all := hsub (by simp)
    exact absurd (hrests e hmem) (hcut.not_rests (hall e hmem).1 (hall e hmem).2)

/-- What becomes of parts is determined by them. -/
theorem unique (h : Reduces all rest u w) (h' : Reduces all rest u w') (hsub : rest ⊆ all) : w = w' := by
  induction h generalizing w' with
  | done hrests => exact (h'.eq_node hall hsub hrests).symm
  | again h ih =>
    rcases h'.cases_nil with ⟨hrests, rfl⟩ | h'
    · exact h.eq_node hall (List.Subset.refl _) hrests
    · exact ih h' (List.Subset.refl _)
  | @pass e rest u w hrest _ ih =>
    have hmem : e ∈ all := hsub (by simp)
    rcases h'.cases_cons with ⟨-, h'⟩ | ⟨a, m, b, v, rfl, hcut, -⟩
    · exact ih h' fun e he => hsub (by simp [he])
    · exact absurd hrest (hcut.not_rests (hall e hmem).1 (hall e hmem).2)
  | @cut e rest a m b v w hcut _ _ ihm ih =>
    have hmem : e ∈ all := hsub (by simp)
    rcases h'.cases_cons with ⟨hrest, -⟩ | ⟨a', m', b', v', heq, hcut', hm', h'⟩
    · exact absurd hrest (hcut.not_rests (hall e hmem).1 (hall e hmem).2)
    · obtain ⟨rfl, rfl, rfl⟩ := hcut.unique (hall e hmem).1 (hall e hmem).2 hcut' heq
      obtain rfl := ihm hm' (List.Subset.refl _)
      exact ih h' hsub

end

end Reduces

/-- The rules of a rule set are uniform and tell their hits apart. -/
theorem RuleSet.uniform_and_separate (s : RuleSet) : ∀ e ∈ s.numbered, e.2.IsUniform ∧ e.2.Separate := fun _ he =>
  ⟨s.isUniform _ (mem_of_numbered he), s.separate _ (mem_of_numbered he)⟩

end FormulaDag
