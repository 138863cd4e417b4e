import FormulaDag.Proofs.Evaluation.Demand
import FormulaDag.Evaluation.Memo

/-!
# The search for what a target needs

Nothing is assumed about the nodes here: their references may run in circles or name nodes that do not exist. A target without a result
wants every node to which references lead through nodes without results. The search lists exactly these nodes, each behind those of them
that it refers to, unless one of them is on a circle or does not exist. Then, and only then, the search fails, and it names such a node.
-/

namespace FormulaDag.Dag

/-- A node without a result refers to another one without a result. -/
def Needs (d : Dag) (known : Nat → Bool) (i j : Nat) : Prop := known i = false ∧ j ∈ d.dependencies i ∧ known j = false

/-- References lead from a target to a node, through nodes without results only. -/
def Wants (d : Dag) (known : Nat → Bool) (target i : Nat) : Prop :=
  known target = false ∧ Relation.ReflTransGen (d.Needs known) target i

/-- What keeps a target from being computed: a wanted node that needs itself, or one that does not exist. -/
inductive Blocks (d : Dag) (known : Nat → Bool) (target : Nat) : EvaluationFault → Prop where
  | cycle {i : Nat} (hi : d.Wants known target i) (hloop : Relation.TransGen (d.Needs known) i i) :
      Blocks d known target (.cycle i)
  | missing {i : Nat} (hi : d.Wants known target i) (hsize : d.size ≤ i) : Blocks d known target (.node i [] .noSuchIndex)

/-- The state of a search: what is pending without a result is wanted, and every node on the path needs it. -/
structure Searching (d : Dag) (known : Nat → Bool) (target : Nat) (path pending : List Nat) : Prop where
  wanted : ∀ j ∈ pending, known j = false → d.Wants known target j
  needed : ∀ j ∈ pending, known j = false → ∀ k ∈ path, Relation.TransGen (d.Needs known) k j

section
variable {d : Dag} {known : Nat → Bool} {target i : Nat} {path demanded pending rest more : List Nat}

theorem Searching.start : d.Searching known target [] [target] where
  wanted := by
    intro j hj hknown
    rw [List.mem_singleton.1 hj] at hknown ⊢
    exact ⟨hknown, .refl⟩
  needed := by simp

theorem Searching.tail (h : d.Searching known target path (i :: rest)) : d.Searching known target path rest where
  wanted := fun j hj => h.wanted j (List.mem_cons_of_mem _ hj)
  needed := fun j hj => h.needed j (List.mem_cons_of_mem _ hj)

/-- The search goes on with what a pending node refers to. -/
theorem Searching.descend (h : d.Searching known target path (i :: rest)) (hi : known i = false) :
    d.Searching known target (i :: path) (d.dependencies i) where
  wanted := by
    intro j hj hknown
    obtain ⟨htarget, hreach⟩ := h.wanted i List.mem_cons_self hi
    exact ⟨htarget, hreach.tail ⟨hi, hj, hknown⟩⟩
  needed := by
    intro j hj hknown k hk
    have hstep : d.Needs known i j := ⟨hi, hj, hknown⟩
    rcases List.mem_cons.1 hk with rfl | hk
    · exact .single hstep
    · exact (h.needed i List.mem_cons_self hi k hk).tail hstep

/-- A search fails because of a node that blocks the target. -/
theorem blocks_of_demandFrom {fault : EvaluationFault} (h : d.Searching known target path pending)
    (hd : d.demandFrom known path demanded pending = .error fault) : d.Blocks known target fault := by
  have hunknown : ∀ {demanded : List Nat} {i : Nat}, ¬(demanded.contains i || known i) = true → known i = false := by
    intro demanded i hseen
    rw [Bool.or_eq_true, not_or] at hseen
    simpa using hseen.2
  induction path, demanded, pending using demandFrom.induct d known with
  | case1 path demanded =>
    rw [demandFrom] at hd
    cases hd
  | case2 path demanded i rest hseen ih =>
    rw [demandFrom, if_pos hseen] at hd
    exact ih h.tail hd
  | case3 path demanded i rest hseen hpath =>
    rw [demandFrom, if_neg hseen, dif_pos hpath, Except.error.injEq] at hd
    subst hd
    have hi := hunknown hseen
    exact .cycle (h.wanted i List.mem_cons_self hi) (h.needed i List.mem_cons_self hi i (by simpa using hpath))
  | case4 path demanded i rest hseen hpath hi below hbelow ih =>
    rw [demandFrom, if_neg hseen, dif_neg hpath, dif_pos hi, hbelow] at hd
    rw [Except.error.injEq] at hd
    subst hd
    exact ih (h.descend (hunknown hseen)) hbelow
  | case5 path demanded i rest hseen hpath hi below hbelow ihbelow ih =>
    rw [demandFrom, if_neg hseen, dif_neg hpath, dif_pos hi, hbelow] at hd
    exact ih h.tail hd
  | case6 path demanded i rest hseen hpath hi =>
    rw [demandFrom, if_neg hseen, dif_neg hpath, dif_neg hi, Except.error.injEq] at hd
    subst hd
    exact .missing (h.wanted i List.mem_cons_self (hunknown hseen)) (Nat.le_of_not_lt hi)

/-- A search adds wanted nodes, each once and none that is on the path. -/
theorem exists_append_of_demandFrom (h : d.Searching known target path pending)
    (hd : d.demandFrom known path demanded pending = .ok more) :
    ∃ new, more = demanded ++ new ∧ new.Nodup ∧ ∀ j ∈ new, j ∉ demanded ∧ j ∉ path ∧ d.Wants known target j := by
  induction path, demanded, pending using demandFrom.induct d known generalizing more with
  | case1 path demanded =>
    rw [demandFrom, Except.ok.injEq] at hd
    exact ⟨[], by simp [hd], .nil, by simp⟩
  | case2 path demanded i rest hseen ih =>
    rw [demandFrom, if_pos hseen] at hd
    exact ih h.tail hd
  | case3 path demanded i rest hseen hpath =>
    rw [demandFrom, if_neg hseen, dif_pos hpath] at hd
    cases hd
  | case4 path demanded i rest hseen hpath hi fault hbelow ih =>
    rw [demandFrom, if_neg hseen, dif_neg hpath, dif_pos hi, hbelow] at hd
    cases hd
  | case5 path demanded i rest hseen hpath hi below hbelow ihbelow ih =>
    rw [demandFrom, if_neg hseen, dif_neg hpath, dif_pos hi, hbelow] at hd
    obtain ⟨hfresh, hunknown⟩ : i ∉ demanded ∧ known i = false := by simpa using hseen
    obtain ⟨under, rfl, honce, hunder⟩ := ihbelow (h.descend hunknown) hbelow
    obtain ⟨later, rfl, honce', hlater⟩ := ih h.tail hd
    have hi : i ∉ under := fun hmem => (hunder i hmem).2.1 List.mem_cons_self
    refine ⟨under ++ i :: later, by simp, ?_, fun j hj => ?_⟩
    · rw [List.nodup_append, List.nodup_cons]
      refine ⟨honce, ⟨fun hmem => (hlater i hmem).1 (by simp), honce'⟩, fun j hj k hk hjk => ?_⟩
      subst hjk
      rcases List.mem_cons.1 hk with rfl | hk
      · exact hi hj
      · exact (hlater j hk).1 (by simp [hj])
    · rcases List.mem_append.1 hj with hj | hj
      · obtain ⟨hnot, hpath', hwants⟩ := hunder j hj
        exact ⟨hnot, fun hmem => hpath' (List.mem_cons_of_mem _ hmem), hwants⟩
      · rcases List.mem_cons.1 hj with rfl | hj
        · exact ⟨hfresh, by simpa using hpath, h.wanted j List.mem_cons_self hunknown⟩
        · obtain ⟨hnot, hpath', hwants⟩ := hlater j hj
          exact ⟨fun hmem => hnot (by simp [hmem]), hpath', hwants⟩
  | case6 path demanded i rest hseen hpath hi =>
    rw [demandFrom, if_neg hseen, dif_neg hpath, dif_neg hi] at hd
    cases hd

/-- A list in order that holds the target holds what the target wants. -/
theorem Ordered.mem_of_wants {l : List Nat} (h : d.Ordered known l) (htarget : known target = true ∨ target ∈ l)
    (hi : d.Wants known target i) : i ∈ l := by
  obtain ⟨hunknown, hreach⟩ := hi
  induction hreach with
  | refl => exact htarget.resolve_left (by simp [hunknown])
  | tail _ hstep ih => exact (h.idxOf_lt ih hstep.2.1 hstep.2.2).1

/-- Where there is an order of what the target wants, nothing blocks the target. -/
theorem Ordered.not_blocks {l : List Nat} (h : d.Ordered known l) (htarget : known target = true ∨ target ∈ l)
    {fault : EvaluationFault} : ¬d.Blocks known target fault := by
  intro hblocks
  cases hblocks with
  | @cycle i hi hloop =>
    have hlower : ∀ j, Relation.TransGen (d.Needs known) i j → j ∈ l ∧ l.idxOf j < l.idxOf i := by
      intro j hij
      induction hij with
      | single hstep => exact h.idxOf_lt (h.mem_of_wants htarget hi) hstep.2.1 hstep.2.2
      | tail _ hstep ih =>
        obtain ⟨hmem, hlt⟩ := h.idxOf_lt ih.1 hstep.2.1 hstep.2.2
        exact ⟨hmem, Nat.lt_trans hlt ih.2⟩
    exact Nat.lt_irrefl _ (hlower i hloop).2
  | missing hi hsize => exact Nat.not_lt.2 hsize (h.inside _ (h.mem_of_wants htarget hi))

/-- The order that a search answers, or the fault that ends it, for any graph and any results that are known. -/
theorem demand_cases (d : Dag) (known : Nat → Bool) (target : Nat) :
    (∃ order, d.demand known target = .ok order ∧ order.Nodup ∧ (∀ i, i ∈ order ↔ d.Wants known target i) ∧
      d.Ordered known order ∧ ∀ fault, ¬d.Blocks known target fault) ∨
      ∃ fault, d.demand known target = .error fault ∧ d.Blocks known target fault := by
  cases hd : d.demand known target with
  | error fault => exact .inr ⟨fault, rfl, blocks_of_demandFrom .start hd⟩
  | ok order =>
    obtain ⟨new, rfl, honce, hnew⟩ := exists_append_of_demandFrom .start hd
    obtain ⟨-, hordered, hcover⟩ := ordered_of_demandFrom hd .nil
    have htarget := hcover target (List.mem_singleton_self _)
    refine .inl ⟨_, rfl, honce, fun i => ⟨fun hi => (hnew i hi).2.2, hordered.mem_of_wants htarget⟩, hordered, fun fault =>
      hordered.not_blocks htarget⟩

end

/-- The search is sound and complete on every graph, for every memo, key and target. When it answers an order, this lists the nodes that
the target wants and no others, each once, in the graph and behind what it refers to, as far as that has no result. When it fails, it
names a wanted node that needs itself or does not exist; and it fails whenever there is one. -/
theorem demand_sound_and_complete (d : Dag) (m : Memo) (key : Key) (target : Nat) :
    (match d.demand (fun i => m.contains i key) target with
      | .ok order => order.Nodup ∧ (∀ i, i ∈ order ↔ d.Wants (fun i => m.contains i key) target i) ∧
          d.Ordered (fun i => m.contains i key) order
      | .error fault => d.Blocks (fun i => m.contains i key) target fault) ∧
    ((∃ fault, d.demand (fun i => m.contains i key) target = .error fault) ↔
      ∃ fault, d.Blocks (fun i => m.contains i key) target fault) := by
  rcases d.demand_cases (fun i => m.contains i key) target with
    ⟨order, hd, honce, hmem, hordered, hfree⟩ | ⟨fault, hd, hblocks⟩
  · rw [hd]
    exact ⟨⟨honce, hmem, hordered⟩, by simp [hfree]⟩
  · rw [hd]
    exact ⟨hblocks, fun _ => ⟨fault, hblocks⟩, fun _ => ⟨fault, rfl⟩⟩

end FormulaDag.Dag
