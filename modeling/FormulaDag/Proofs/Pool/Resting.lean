import FormulaDag.Proofs.Contexts.Doubling
import FormulaDag.Proofs.Rule.Binding

/-!
# Resting texts

Reduction leaves a text in which all rules rest in its cell: nothing is taken out of it, and texts that become equal to it are merged into
it. So when all rules rest in the text of the root once the groups are taken apart, it is the text of the root in the end, up to indices.
-/

namespace FormulaDag.Pool

variable {r : RuleSet} {e : Nat × Rule} {p q : Pool} {i x y : Nat} {s s' : Progress} {u : Line}

/-- An index that points to a cell with a line for its text. -/
structure Shows (p : Pool) (y x : Nat) (u : Line) : Prop where
  known : y < p.cells.length
  points : p.resolve y = x
  writes : p.Writes x u

/-- The loop of a rule leaves a text in which the rule rests. -/
theorem Exhausts.shows (h : Exhausts i e s s') (hr : e.2 ∈ r.rules) (hx : s.pool.Shows y x u) (hrests : e.2.rests e.1 u.text = true) :
    s'.pool.Shows y x u := by
  induction h with
  | rest => exact hx
  | @extract s s' s'' hextracts _ ih =>
    obtain ⟨hline, hdivides, hpart, -, hextracted, -, -⟩ := hextracts
    have hxi : x ≠ i := by
      rintro rfl
      -- a part of the text would be taken out although the rule rests in it
      rw [hx.writes.unique hline, Rule.rests, hdivides.found] at hrests
      obtain ⟨ha, hb⟩ := (hdivides.isWhole_iff (r.isAligned _ hr)).1 hrests
      exact hpart.elim (absurd ha) (absurd hb)
    refine ih ⟨?_, ?_, hextracted.kept x u hxi hx.writes⟩
    · rw [hextracted.length]
      exact Nat.lt_of_lt_of_le hx.known (Nat.le_add_right _ _)
    · rw [hextracted.resolve y hx.known, hx.points, if_neg hxi]

/-- The loops of all rules leave a text in which they rest. -/
theorem Shows.reduceIndex (hp : p.Written) (hok : Pool.reduceIndex r.numbered p i = .ok s) (hx : p.Shows y x u)
    (hrests : ∀ e ∈ r.numbered, e.2.rests e.1 u.text = true) : s.pool.Shows y x u := by
  have hfold : ∀ (rest : List (Nat × Rule)) (s s' : Progress), (∀ e ∈ rest, e ∈ r.numbered) → s.pool.Written → s.pool.Shows y x u →
      rest.foldlM (fun s e => exhaust i e.1 e.2 ((s.pool.text i).length + 1) s) s = .ok s' → s'.pool.Shows y x u := by
    intro rest
    induction rest with
    | nil =>
      intro s s' _ _ hx hok
      rw [List.foldlM_nil] at hok
      exact Except.ok.inj hok ▸ hx
    | cons e rest ih =>
      intro s s' hmem hs hx hok
      rw [List.foldlM_cons] at hok
      obtain ⟨s₁, hs₁, hok⟩ := bind_eq_ok.1 hok
      have he := hmem e List.mem_cons_self
      have hr := RuleSet.mem_of_numbered he
      have hexhausts := hs.exhausts hr (Nat.lt_succ_of_le (Token.plainCount_le_length (s.pool.text i))) hs₁
      exact ih s₁ s' (fun d hd => hmem d (List.mem_cons_of_mem _ hd)) (hexhausts.written hs) (hexhausts.shows hr hx (hrests e he)) hok
  exact hfold r.numbered _ s (fun _ he => he) hp hx hok

/-- A text in which all rules rest stays where it is. -/
theorem Shows.reduce (hp : p.Written) (hok : Pool.reduce r p = .ok q) (hx : p.Shows y x u)
    (hrests : ∀ e ∈ r.numbered, e.2.rests e.1 u.text = true) : q.Shows y x u := by
  have hqueue : ∀ (turns : Nat) (queue : List Nat) (p : Pool), p.Written → p.Shows y x u →
      reduceQueue r.numbered turns p queue = .ok q → q.Shows y x u := by
    intro turns
    induction turns with
    | zero =>
      intro queue p _ hx hok
      exact Except.ok.inj hok ▸ hx
    | succ turns ih =>
      intro queue p hp hx hok
      cases queue with
      | nil => exact Except.ok.inj hok ▸ hx
      | cons i queue =>
        rw [reduceQueue_cons] at hok
        obtain ⟨s, hs, hok⟩ := bind_eq_ok.1 hok
        exact ih _ s.pool (hp.traced hs).written (hx.reduceIndex hp hs hrests) hok
  exact hqueue _ _ p hp hx hok

/-- A root in whose text all rules rest has the same text in the end, up to indices. -/
theorem exists_kept_ofSource {text : Text} {letters : List Char} {parts : Parts} (hp : ofSource r text = .ok p)
    (hfault : Source.fault? r letters text = none) (hsmall : p.cells.length ≤ Index.bound) (htree : Source.tree text = .node parts)
    (hrests : ∀ val (s : Line), s.Spells val parts → ∀ e ∈ r.numbered, e.2.rests e.1 s.text = true)
    (hu : p.Writes (p.resolve Index.root) u) : ∃ val s, Line.Spells val s parts ∧ List.Forall₂ Mark.Kept s u := by
  have hgroups : (ofGroups text).cells.length ≤ Index.bound := by
    rw [ofGroups, length_cells_canonical]
    exact (length_le_ofSource hp).trans hsmall
  obtain ⟨val, hripe, hplain, hroot⟩ := exists_ripe_ofGroups hfault hgroups
  obtain ⟨q, hq, rfl⟩ := map_eq_ok.1 hp
  rw [length_cells_canonical] at hsmall
  obtain ⟨s, hs⟩ := hripe.written _ (hripe.sound.holds_resolve hripe.rooted)
  have hspells : s.Spells val parts := by
    have hnode := hripe.eq_node _ s hs
    rw [hripe.pointed _ hripe.rooted, hroot, htree, Tree.node.injEq] at hnode
    exact ⟨hs.within.mono hgroups, hnode.symm⟩
  have hshows := Shows.reduce ⟨hripe.sound, hripe.written⟩ hq ⟨hripe.rooted, rfl, hs⟩ (hrests val s hspells)
  obtain ⟨base, hbase⟩ := (hplain.reduce hq).exists_denotes [] []
  have hcanonical := hbase.canonical hsmall
  have hparts : s.map (Mark.part base) = u.map (Mark.part base) := by
    have hline := hbase.eq_tree hshows.writes
    have hline' := hcanonical.eq_tree hu
    rw [hcanonical.pointed _ (length_cells_canonical q ▸ hshows.known), ← hbase.pointed _ hshows.known, hshows.points, hline,
      Line.tree_of_freed (by simp), Line.tree_of_freed (by simp), Tree.node.injEq] at hline'
    exact hline'
  exact ⟨val, s, hspells, Line.forall₂_of_parts hparts .char fun k k' _ _ _ => .ref k k'⟩

end FormulaDag.Pool
