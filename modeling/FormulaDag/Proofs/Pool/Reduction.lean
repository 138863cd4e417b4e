import FormulaDag.Pool.Reduction
import FormulaDag.Proofs.Pool.Plain
import FormulaDag.Proofs.Rule.Placement

/-!
# Reduction keeps pools plain

An extraction cuts an occurrence out of a line and puts a token in its place, so the root means what it meant. Along the queue that
is all that happens.
-/

namespace FormulaDag.Pool

section
variable {write : Char → Text} {goal : Text} {i : Nat}

/-- An occurrence that is not the whole text is extracted. -/
theorem Plain.extract {s : Progress} (h : Plain [] write goal s.pool) (hi : s.pool.holds i = true) {r : Rule}
    (hr : r.pattern.IsAligned) (hsep : r.Separate) {id : Nat} {l : Located} (hl : r.locate id (s.pool.text i) = .ok (some l))
    (hpart : l.occurrence.isWhole (s.pool.text i) = false) : Plain [] write goal (s.extract i l).pool := by
  obtain ⟨line, htext, hdraft⟩ := h.stands.draft hi
  have hplain := h.plain i hi
  have hwhole := Rule.isWhole_iff hr hl
  rw [htext] at hl hplain
  obtain ⟨a, m, b, rfl, ha, hm, hb, hne⟩ := Rule.locate_line hr hsep hdraft.within hl
  have hwithin : m.Within s.pool.cells.length := hdraft.within.subset fun mark hmark => by simp [hmark]
  have hother : s.pool.text i ≠ Line.text m := by
    intro heq
    rw [htext] at heq
    have hlen := congrArg List.length (hdraft.within.text_injective hwithin heq)
    simp only [List.length_append] at hlen
    have hnil : a = [] ∧ b = [] := ⟨List.eq_nil_of_length_eq_zero (by omega), List.eq_nil_of_length_eq_zero (by omega)⟩
    rw [← ha, ← hb, hnil.1, hnil.2] at hwhole
    rw [hwhole.2 ⟨rfl, rfl⟩] at hpart
    simp at hpart
  have hplain_m : IsPlain (Line.text m) := hplain.of_subset hne fun c hc => by simp [hc]
  have hdraft' := hdraft.extract hwithin (fun _ => Iff.rfl) (fun _ => rfl) hplain_m.1 hother
  have hsound := h.stands.sound
  have heq : (s.extract i l).pool = (s.pool.intern (Line.text m)).pool.setText i
      (Line.text (a ++ .ref (s.pool.intern (Line.text m)).index :: b)) := by
    rw [Progress.extract, hm, ← ha, ← hb]
    simp [Mark.text]
  rw [heq]
  refine hdraft'.plain (hplain.of_subset (by simp) fun c hc => ?_) fun x hx _ => ?_
  · simp only [List.mem_append, List.mem_cons, reduceCtorEq, false_or] at hc ⊢
    tauto
  · rcases (hsound.holds_intern hplain_m.1 x).1 hx with hx | rfl
    · rw [hsound.text_intern hplain_m.1 hx]
      exact h.plain x hx
    · rwa [hsound.text_index hplain_m.1]

/-- The loop of one rule keeps a pool plain. -/
theorem Plain.exhaust {r : Rule} (hr : r.pattern.IsAligned) (hsep : r.Separate) {id turns : Nat} {s s' : Progress}
    (h : Plain [] write goal s.pool) (he : exhaust i id r turns s = .ok s') : Plain [] write goal s'.pool := by
  induction turns generalizing s with
  | zero =>
    rw [Pool.exhaust, Except.ok.injEq] at he
    exact he ▸ h
  | succ turns ih =>
    rw [Pool.exhaust] at he
    split at he
    · rename_i hi
      split at he
      · simp at he
      · rw [Except.ok.injEq] at he
        exact he ▸ h
      · rename_i l hl
        split at he
        · rw [Except.ok.injEq] at he
          exact he ▸ h
        · rename_i hpart
          exact ih (h.extract hi hr hsep hl (by simpa using hpart)) he
    · rw [Except.ok.injEq] at he
      exact he ▸ h

/-- The loops of all rules on one index keep a pool plain. -/
theorem Plain.reduceIndex {s : RuleSet} {p : Pool} {s' : Progress} (h : Plain [] write goal p)
    (he : reduceIndex s.numbered p i = .ok s') : Plain [] write goal s'.pool := by
  refine foldlM_invariant (P := fun s' => Plain [] write goal s'.pool) (fun entry hentry state state' hstate he => ?_) h he
  have hmem := RuleSet.mem_of_numbered hentry
  exact hstate.exhaust (s.isAligned _ hmem) (s.separate _ hmem) he

/-- The queue keeps a pool plain. -/
theorem Plain.reduceQueue {s : RuleSet} {turns : Nat} {p q : Pool} {queue : List Nat} (h : Plain [] write goal p)
    (he : reduceQueue s.numbered turns p queue = .ok q) : Plain [] write goal q := by
  induction turns generalizing p queue with
  | zero =>
    rw [Pool.reduceQueue, Except.ok.injEq] at he
    exact he ▸ h
  | succ turns ih =>
    cases queue with
    | nil =>
      rw [Pool.reduceQueue, Except.ok.injEq] at he
      · exact he ▸ h
      · simp
    | cons i queue =>
      rw [Pool.reduceQueue] at he
      split at he
      · simp at he
      · rename_i s' hs'
        exact ih (h.reduceIndex hs') he

/-- Reduction keeps a pool plain. -/
theorem Plain.reduce {s : RuleSet} {p q : Pool} (h : Plain [] write goal p) (he : reduce s p = .ok q) : Plain [] write goal q :=
  h.reduceQueue he

end

/-! ## Reduction never takes cells away -/

/-- The loop of a rule takes no cell away. -/
theorem length_le_exhaust {i id : Nat} {r : Rule} {turns : Nat} {s s' : Progress} (h : exhaust i id r turns s = .ok s') :
    s.pool.cells.length ≤ s'.pool.cells.length := by
  have hextract : ∀ (s : Progress) (l : Located), s.pool.cells.length ≤ (s.extract i l).pool.cells.length := by
    intro s l
    have := s.pool.length_cells_le_intern l.occurrence.text
    simpa only [Progress.extract, length_cells_setText] using this
  induction turns generalizing s with
  | zero =>
    rw [exhaust, Except.ok.injEq] at h
    exact h ▸ Nat.le_refl _
  | succ turns ih =>
    rw [exhaust] at h
    split at h
    · split at h
      · simp at h
      · rw [Except.ok.injEq] at h
        exact h ▸ Nat.le_refl _
      · split at h
        · rw [Except.ok.injEq] at h
          exact h ▸ Nat.le_refl _
        · exact Nat.le_trans (hextract _ _) (ih h)
    · rw [Except.ok.injEq] at h
      exact h ▸ Nat.le_refl _

/-- The queue takes no cell away. -/
theorem length_le_reduceQueue {rules : List (Nat × Rule)} {turns : Nat} {p q : Pool} {queue : List Nat}
    (h : reduceQueue rules turns p queue = .ok q) : p.cells.length ≤ q.cells.length := by
  induction turns generalizing p queue with
  | zero =>
    rw [reduceQueue, Except.ok.injEq] at h
    exact h ▸ Nat.le_refl _
  | succ turns ih =>
    cases queue with
    | nil =>
      rw [reduceQueue, Except.ok.injEq] at h
      · exact h ▸ Nat.le_refl _
      · simp
    | cons i queue =>
      rw [reduceQueue] at h
      split at h
      · simp at h
      · rename_i s' hs'
        refine Nat.le_trans ?_ (ih h)
        exact foldlM_invariant (P := fun s' => p.cells.length ≤ s'.pool.cells.length)
          (fun entry _ state state' hstate he => Nat.le_trans hstate (length_le_exhaust he)) (Nat.le_refl _) hs'

end FormulaDag.Pool
