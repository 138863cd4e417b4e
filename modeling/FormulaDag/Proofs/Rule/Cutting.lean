import FormulaDag.Proofs.Pool.Trees
import FormulaDag.Proofs.Rule.Uniform

/-!
# Rules on parts of trees

A text in which indices stand for trees is a list of characters and trees. Rules look at the characters and at where the trees stand, and
not at the numbers that the trees have. So what a rule cuts out of a text is determined by its parts.
-/

namespace FormulaDag

open Token (Renamed)

/-- A line that is written for parts when its indices stand for trees. -/
structure Line.Spells (meaning : Nat → Tree) (s : Line) (u : Parts) : Prop where
  within : s.Within Index.bound
  parts : s.map (Mark.part meaning) = u

namespace Line.Spells
variable {meaning meaning' : Nat → Tree} {s s' : Line} {u : Parts}

/-- Two lines for the same parts differ in their indices only. -/
theorem renamed (h : Spells meaning s u) (h' : Spells meaning' s' u) : Renamed (fun i j => meaning i = meaning' j) s.text s'.text := by
  rw [Token.renamed_iff, h.within.pieces_eq, h'.within.pieces_eq, List.forall₂_map_left_iff, List.forall₂_map_right_iff]
  exact Line.forall₂_of_parts (h.parts.trans h'.parts.symm) (fun c => .plain c) fun k k' hk hk' heq =>
    .token (Index.read?_ofNat (h.within.refs k hk)) (Index.read?_ofNat (h'.within.refs k' hk')) heq

theorem tail {m : Mark} (h : Spells meaning (m :: s) u) : Spells meaning s u.tail :=
  ⟨h.within.subset (List.subset_cons_self m s), by rw [← h.parts]; rfl⟩

end Line.Spells

namespace Rule

section
variable {r : Rule} (hsep : r.Separate)
include hsep

/-- Nothing is found inside of a token. -/
theorem hitAt_of_cut {n k : Nat} {x y : Text} {b : Line} (hb : b.Within n) (htoken : Index.token k = x ++ y) (hx : x ≠ []) (hy : y ≠ [])
    (behind : Text) : r.hitAt (x.reverse ++ behind) (y ++ b.text) = none := by
  rw [hitAt, Option.filter_eq_none_iff]
  intro h hfirst
  rw [hsep.outside n k x y b hb htoken hx hy behind h (List.mem_of_mem_head? hfirst)]
  exact Bool.false_ne_true

/-- A search that finds nothing at a mark goes on behind it. -/
theorem search_mark {n : Nat} {m : Mark} {s : Line} (hs : Line.Within n (m :: s)) {behind : Text}
    (h : r.hitAt behind (Line.text (m :: s)) = none) : r.search behind (Line.text (m :: s)) = r.search (m.text.reverse ++ behind) s.text := by
  cases m with
  | char c => exact search_cons_of_hitAt h
  | ref k =>
    have hrest : s.Within n := hs.subset (List.subset_cons_self _ s)
    refine search_passed (w := Index.token k) fun x y htoken hy => ?_
    by_cases hx : x = []
    · subst hx
      rw [← List.nil_append y, ← htoken]
      exact h
    · exact hitAt_of_cut hsep hrest htoken hx hy behind

end

/-- A rule that finds something in a line divides it into what stands before it, the occurrence, and what stands after it. -/
structure Divides (r : Rule) (id : Nat) (a m b : Line) (l : Located) : Prop where
  found : r.locate id (Line.text (a ++ (m ++ b))) = .ok (some l)
  before : a.text = l.before
  taken : m.text = l.occurrence.text
  after : b.text = l.after

/-- Two searches in lines for the same parts: both find nothing, or what they find divides the lines at the same marks. -/
inductive SearchedAlong (r : Rule) (meaning meaning' : Nat → Tree) (behind behind' : Text) (s s' : Line) : Prop where
  | none (h : r.search behind s.text = .none) (h' : r.search behind' s'.text = .none)
  | some {a m b a' m' b' : Line} {k k' : Hit} (hs : s = a ++ (m ++ b)) (hs' : s' = a' ++ (m' ++ b')) (ha : a.length = a'.length)
      (hm : m.length = m'.length) (h : r.search behind s.text = .some (a.text.reverse ++ behind, k))
      (h' : r.search behind' s'.text = .some (a'.text.reverse ++ behind', k')) (hk : m.text = k.taken ∧ b.text = k.rest)
      (hk' : m'.text = k'.taken ∧ b'.text = k'.rest) (hhit : RenamedHit (fun i j => meaning i = meaning' j) k k')

section
variable {r : Rule} {meaning meaning' : Nat → Tree} {id : Nat} {s s' a m b : Line} {u : Parts} {l : Located}

theorem SearchedAlong.cons {n n' : Nat} {x x' : Mark} (hsep : r.Separate) (hs : Line.Within n (x :: s)) (hs' : Line.Within n' (x' :: s'))
    {behind behind' : Text} (hnone : r.hitAt behind (Line.text (x :: s)) = .none) (hnone' : r.hitAt behind' (Line.text (x' :: s')) = .none)
    (h : SearchedAlong r meaning meaning' (x.text.reverse ++ behind) (x'.text.reverse ++ behind') s s') :
    SearchedAlong r meaning meaning' behind behind' (x :: s) (x' :: s') := by
  have hsearch := search_mark hsep hs hnone
  have hsearch' := search_mark hsep hs' hnone'
  cases h with
  | none h h' => exact .none (hsearch.trans h) (hsearch'.trans h')
  | @some a m b a' m' b' k k' hs hs' ha hm h h' hk hk' hhit =>
    refine .some (by rw [hs, List.cons_append]) (by rw [hs', List.cons_append]) (by simp [ha]) hm ?_ ?_ hk hk' hhit
    · rw [hsearch, h]
      simp
    · rw [hsearch', h']
      simp

/-- A match at the beginning of a line is made of marks. -/
theorem exists_marks_of_hitAt (hr : r.pattern.IsAligned) {n : Nat} (hs : s.Within n) {behind : Text} {k : Hit}
    (h : r.hitAt behind s.text = some k) : ∃ m b : Line, s = m ++ b ∧ m.text = k.taken ∧ b.text = k.rest := by
  obtain ⟨htext, hwhole, -⟩ := hr.hit (List.mem_of_mem_head? (Option.filter_eq_some_iff.1 h).1)
  exact hs.cut htext (hwhole _)

/-- Rules search lines for the same parts alike. -/
theorem searchedAlong (hr : r.IsUniform) (hsep : r.Separate) (hs : s.Spells meaning u) (hs' : s'.Spells meaning' u)
    {behind behind' : Text} (hb : SameNear behind behind') : SearchedAlong r meaning meaning' behind behind' s s' := by
  induction s generalizing s' u behind behind' with
  | nil =>
    obtain rfl := hs.parts
    obtain rfl := List.map_eq_nil_iff.1 hs'.parts
    rcases rel_cases (hr.hitAt_renamed hb (hs.renamed hs')) with ⟨hnone, hnone'⟩ | ⟨k, k', hsome, -, -⟩
    · exact .none (search_nil_of_hitAt hnone) (search_nil_of_hitAt hnone')
    · have hhit := List.mem_of_mem_head? (Option.filter_eq_some_iff.1 hsome).1
      have htext := (hr.aligned.hit hhit).1
      exact absurd (List.append_eq_nil_iff.1 htext.symm).1 (hsep.nonempty _ _ hhit)
  | cons x s ih =>
    rcases rel_cases (hr.hitAt_renamed hb (hs.renamed hs')) with ⟨hnone, hnone'⟩ | ⟨k, k', hsome, hsome', hhit⟩
    · obtain rfl := hs.parts
      obtain ⟨x', s', rfl, hx, -⟩ := List.map_eq_cons_iff.1 hs'.parts
      refine .cons hsep hs.within hs'.within hnone hnone' (ih hs.tail hs'.tail ?_)
      cases x with
      | char c =>
        cases x' with
        | char c' => exact Sum.inl.inj hx ▸ .cons c' hb
        | ref k' => cases hx
      | ref k =>
        cases x' with
        | char c' => cases hx
        | ref k' =>
          simp only [Mark.text, Index.token_eq, List.reverse_cons, List.reverse_append, List.reverse_nil, List.nil_append,
            List.cons_append, List.append_assoc]
          exact .token _ _
    · obtain ⟨m, b, hmb, hm, hbk⟩ := exists_marks_of_hitAt hr.aligned hs.within hsome
      obtain ⟨m', b', rfl, hm', hbk'⟩ := exists_marks_of_hitAt hr.aligned hs'.within hsome'
      have hlength : m.length = m'.length := by
        have hpieces := (Token.renamed_iff.1 (hm ▸ hm' ▸ hhit.taken)).length_eq
        rwa [(hs.within.subset (hmb ▸ List.subset_append_left m b)).pieces_eq,
          (hs'.within.subset (List.subset_append_left m' b')).pieces_eq, List.length_map, List.length_map] at hpieces
      exact .some (a := []) hmb (List.nil_append _).symm rfl hlength (search_of_hitAt hsome) (search_of_hitAt hsome') ⟨hm, hbk⟩ ⟨hm', hbk'⟩ hhit

theorem locate_eq_none (hr : r.IsUniform) (hsep : r.Separate) (hs : s.Spells meaning u) (hs' : s'.Spells meaning' u)
    (h : r.locate id s.text = .ok none) : r.locate id s'.text = .ok none := by
  cases searchedAlong hr hsep hs hs' .nil with
  | none _ hnone => rw [locate, hnone]
  | some hs hs' ha hm hsearch hsearch' hk hk' hhit =>
    rw [locate, hsearch] at h
    simp only at h
    cases ho : r.occurrence id _ _ with
    | error fault => rw [ho] at h; cases h
    | ok o => rw [ho] at h; cases h

/-- A rule divides lines for the same parts at the same marks. -/
theorem Divides.along (hr : r.IsUniform) (hsep : r.Separate) (hs : Line.Spells meaning (a ++ (m ++ b)) u) (hs' : s'.Spells meaning' u)
    (h : r.Divides id a m b l) : ∃ (a' m' b' : Line) (l' : Located), s' = a' ++ (m' ++ b') ∧ r.Divides id a' m' b' l' ∧
      a'.map (Mark.part meaning') = a.map (Mark.part meaning) ∧ m'.map (Mark.part meaning') = m.map (Mark.part meaning) ∧
        b'.map (Mark.part meaning') = b.map (Mark.part meaning) := by
  obtain ⟨behind, k, hfound, ho, hbefore, hafter⟩ := locate_eq_ok h.found
  cases searchedAlong hr hsep hs hs' .nil with
  | none hnone _ => rw [hfound] at hnone; cases hnone
  | @some a₁ m₁ b₁ a' m' b' k₁ k' heq hs'' ha hm hsearch hsearch' hk hk' hhit =>
    obtain ⟨rfl, rfl⟩ := Prod.mk.inj (Option.some.inj (hfound.symm.trans hsearch))
    have hleft := hs.within.subset (List.subset_append_left a (m ++ b))
    have hright := hs.within.subset (List.subset_append_right a (m ++ b))
    obtain rfl : a = a₁ := hleft.text_injective
      ((heq ▸ hs.within).subset (List.subset_append_left a₁ (m₁ ++ b₁))) (by rw [h.before, hbefore]; simp)
    have hmb := List.append_cancel_left heq
    obtain rfl : m = m₁ := (hright.subset (List.subset_append_left m b)).text_injective
      ((hmb ▸ hright).subset (List.subset_append_left m₁ b₁)) (by rw [h.taken, (occurrence_eq_ok ho).2.2.2.1, hk.1])
    obtain rfl := List.append_cancel_left hmb
    obtain ⟨o', ho'⟩ : ∃ o', r.occurrence id (a'.text.reverse ++ []) k' = .ok o' := by
      have halike := hr.occurrence_renamed hhit id (a.text.reverse ++ []) (a'.text.reverse ++ [])
      rw [ho] at halike
      generalize r.occurrence id (a'.text.reverse ++ []) k' = outcome at halike ⊢
      cases halike with
      | ok h => exact ⟨_, rfl⟩
    have hparts := hs'.parts.trans hs.parts.symm
    rw [hs'', List.map_append, List.map_append, List.map_append, List.map_append] at hparts
    obtain ⟨hparts_a, hparts⟩ := List.append_inj hparts (by simp [ha])
    obtain ⟨hparts_m, hparts_b⟩ := List.append_inj hparts (by simp [hm])
    refine ⟨a', m', b', ⟨(a'.text.reverse ++ []).reverse, o', k'.rest⟩, hs'', ⟨?_, by simp, ?_, hk'.2⟩, hparts_a, hparts_m, hparts_b⟩
    · rw [← hs'', locate, hsearch']
      simp only [ho']
      rfl
    · rw [hk'.1, (occurrence_eq_ok ho').2.2.2.1]

/-- What a rule finds in a line divides it. -/
theorem exists_divides (hr : r.pattern.IsAligned) (hsep : r.Separate) {n : Nat} (hs : s.Within n)
    (hl : r.locate id s.text = .ok (some l)) : ∃ a m b : Line, s = a ++ (m ++ b) ∧ r.Divides id a m b l ∧ m ≠ [] := by
  obtain ⟨a, m, b, rfl, ha, hm, hb, hne⟩ := locate_line hr hsep hs hl
  exact ⟨a, m, b, List.append_assoc a m b, ⟨List.append_assoc a m b ▸ hl, ha, hm, hb⟩, hne⟩

end

/-- Whether a rule has nothing to take out of a text: it finds nothing in it, or all of it. -/
def rests (r : Rule) (id : Nat) (t : Text) : Bool :=
  match r.locate id t with
  | .ok none => true
  | .ok (some l) => l.occurrence.isWhole t
  | .error _ => false

section
variable {r : Rule} {meaning meaning' : Nat → Tree} {id : Nat} {s s' a m b : Line} {u : Parts} {l : Located}

theorem Divides.isWhole_iff (hr : r.pattern.IsAligned) (h : r.Divides id a m b l) :
    l.occurrence.isWhole (Line.text (a ++ (m ++ b))) = true ↔ a = [] ∧ b = [] := by
  have hnil : ∀ {s : Line}, s.text = [] ↔ s = [] := fun {s} => ⟨fun h => by_contra fun hne => Line.text_ne_nil hne h, fun h => h ▸ rfl⟩
  rw [Rule.isWhole_iff hr h.found, ← h.before, ← h.after, hnil, hnil]

/-- A rule that rests in a line rests in every line for the same parts. -/
theorem rests_along (hr : r.IsUniform) (hsep : r.Separate) (hs : s.Spells meaning u) (hs' : s'.Spells meaning' u)
    (h : r.rests id s.text = true) : r.rests id s'.text = true := by
  rw [rests] at h
  split at h
  · rename_i hnone
    rw [rests, locate_eq_none hr hsep hs hs' hnone]
  · rename_i l hl
    obtain ⟨a, m, b, rfl, hdivides, -⟩ := exists_divides hr.aligned hsep hs.within hl
    obtain ⟨a', m', b', l', rfl, hdivides', ha, -, hb⟩ := hdivides.along hr hsep hs hs'
    obtain ⟨rfl, rfl⟩ := (hdivides.isWhole_iff hr.aligned).1 h
    rw [rests, hdivides'.found]
    exact (hdivides'.isWhole_iff hr.aligned).2 ⟨List.map_eq_nil_iff.1 ha, List.map_eq_nil_iff.1 hb⟩
  · cases h

end

end Rule

end FormulaDag
