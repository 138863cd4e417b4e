import Mathlib
import FormulaDag.Evaluation.Demand

/-!
# The nodes that a target demands

A successful walk lists nodes so that what a node depends on is known or stands before it. Such a list ranks its nodes: every
dependency has a lower rank. Where nodes are ranked there is no cycle to meet, so every further walk succeeds, whatever is known
by then.
-/

namespace FormulaDag.Dag

/-- Every node of a list is in the dag, and its dependencies are known or stand before it. -/
structure Ordered (d : Dag) (known : Nat → Bool) (l : List Nat) : Prop where
  inside : ∀ i ∈ l, i < d.size
  earlier : ∀ before i after, l = before ++ i :: after → ∀ j ∈ d.dependencies i, known j = true ∨ j ∈ before

theorem Ordered.nil {d : Dag} {known : Nat → Bool} : d.Ordered known [] where
  inside := by simp
  earlier := by simp

theorem Ordered.snoc {d : Dag} {known : Nat → Bool} {l : List Nat} (h : d.Ordered known l) {i : Nat} (hi : i < d.size)
    (hd : ∀ j ∈ d.dependencies i, known j = true ∨ j ∈ l) : d.Ordered known (l ++ [i]) where
  inside := by
    intro j hj
    rcases List.mem_append.1 hj with hj | hj
    · exact h.inside j hj
    · rw [List.mem_singleton.1 hj]
      exact hi
  earlier := by
    intro before k after heq j hj
    rcases List.eq_nil_or_concat after with rfl | ⟨after, last, rfl⟩
    · obtain ⟨rfl, hik⟩ := List.append_inj' heq rfl
      rw [← List.singleton_inj.1 hik] at hj
      exact hd j hj
    · rw [List.concat_eq_append, ← List.cons_append, ← List.append_assoc] at heq
      exact h.earlier before k after (List.append_inj' heq rfl).1 j hj

theorem Ordered.head {d : Dag} {known : Nat → Bool} {i : Nat} {l : List Nat} (h : d.Ordered known (i :: l)) :
    i < d.size ∧ ∀ j ∈ d.dependencies i, known j = true :=
  ⟨h.inside i List.mem_cons_self, fun j hj => (h.earlier [] i l rfl j hj).resolve_right (by simp)⟩

/-- The rest of an ordered list is ordered once its first node is known. -/
theorem Ordered.tail {d : Dag} {known known' : Nat → Bool} {i : Nat} {l : List Nat} (h : d.Ordered known (i :: l))
    (hi : known' i = true) (hknown : ∀ j, known j = true → known' j = true) : d.Ordered known' l where
  inside := fun j hj => h.inside j (List.mem_cons_of_mem _ hj)
  earlier := by
    intro before j after heq k hk
    rcases h.earlier (i :: before) j after (by rw [heq]; rfl) k hk with hk | hk
    · exact .inl (hknown k hk)
    · rcases List.mem_cons.1 hk with rfl | hk
      · exact .inl hi
      · exact .inr hk

/-- A walk extends the list it starts from, keeps it ordered and covers what is pending. -/
theorem ordered_of_demandFrom {d : Dag} {known : Nat → Bool} {path demanded pending more : List Nat}
    (h : d.demandFrom known path demanded pending = .ok more) (ho : d.Ordered known demanded) :
    demanded <+: more ∧ d.Ordered known more ∧ ∀ i ∈ pending, known i = true ∨ i ∈ more := by
  induction path, demanded, pending using demandFrom.induct d known generalizing more with
  | case1 path demanded =>
    rw [demandFrom, Except.ok.injEq] at h
    subst h
    exact ⟨List.prefix_rfl, ho, by simp⟩
  | case2 path demanded i rest hseen ih =>
    rw [demandFrom, if_pos hseen] at h
    obtain ⟨hpre, hmore, hcover⟩ := ih h ho
    refine ⟨hpre, hmore, fun j hj => ?_⟩
    rcases List.mem_cons.1 hj with rfl | hj
    · rw [Bool.or_eq_true, List.contains_iff_mem] at hseen
      exact hseen.symm.imp id fun hmem => hpre.subset hmem
    · exact hcover j hj
  | case3 path demanded i rest hseen hpath =>
    rw [demandFrom, if_neg hseen, dif_pos hpath] at h
    simp at h
  | case4 path demanded i rest hseen hpath hi fault hbelow ih =>
    rw [demandFrom, if_neg hseen, dif_neg hpath, dif_pos hi, hbelow] at h
    simp at h
  | case5 path demanded i rest hseen hpath hi below hbelow ihbelow ih =>
    rw [demandFrom, if_neg hseen, dif_neg hpath, dif_pos hi, hbelow] at h
    obtain ⟨hpre, hordered, hdeps⟩ := ihbelow hbelow ho
    obtain ⟨hpre', hmore, hcover⟩ := ih h (hordered.snoc hi hdeps)
    refine ⟨hpre.trans ((List.prefix_append _ _).trans hpre'), hmore, fun j hj => ?_⟩
    rcases List.mem_cons.1 hj with rfl | hj
    · exact .inr (hpre'.subset (by simp))
    · exact hcover j hj
  | case6 path demanded i rest hseen hpath hi =>
    rw [demandFrom, if_neg hseen, dif_neg hpath, dif_neg hi] at h
    simp at h

/-- A set of nodes of a dag that holds what its members depend on, each at a lower rank. -/
def Ranked (d : Dag) (nodes : Nat → Prop) (rank : Nat → Nat) : Prop :=
  ∀ i, nodes i → i < d.size ∧ ∀ j ∈ d.dependencies i, nodes j ∧ rank j < rank i

/-- What a node of an ordered list refers to is known or has a lower position. -/
theorem Ordered.idxOf_lt {d : Dag} {known : Nat → Bool} {l : List Nat} (h : d.Ordered known l) {i j : Nat} (hi : i ∈ l)
    (hj : j ∈ d.dependencies i) (hknown : known j = false) : j ∈ l ∧ l.idxOf j < l.idxOf i := by
  obtain ⟨before, after, rfl, hfirst⟩ := List.eq_append_cons_of_mem hi
  have hbefore : j ∈ before := (h.earlier before i after rfl j hj).resolve_left (by simp [hknown])
  refine ⟨by simp [hbefore], ?_⟩
  rw [List.idxOf_append_of_mem hbefore, List.idxOf_append_of_notMem hfirst, List.idxOf_cons_self]
  exact List.idxOf_lt_length_of_mem hbefore

/-- An ordered list ranks its nodes by their position. -/
theorem Ordered.ranked {d : Dag} {l : List Nat} (h : d.Ordered (fun _ => false) l) : d.Ranked (· ∈ l) l.idxOf :=
  fun i hi => ⟨h.inside i hi, fun _ hj => h.idxOf_lt hi hj rfl⟩

/-- Among ranked nodes every walk succeeds. -/
theorem Ranked.exists_demandFrom {d : Dag} {nodes : Nat → Prop} {rank : Nat → Nat} (h : d.Ranked nodes rank)
    {known : Nat → Bool} {path demanded pending : List Nat}
    (hpending : ∀ i ∈ pending, nodes i ∧ ∀ k ∈ path, rank i < rank k) :
    ∃ more, d.demandFrom known path demanded pending = .ok more := by
  induction path, demanded, pending using demandFrom.induct d known with
  | case1 path demanded => exact ⟨demanded, by rw [demandFrom]⟩
  | case2 path demanded i rest hseen ih =>
    rw [demandFrom, if_pos hseen]
    exact ih fun j hj => hpending j (List.mem_cons_of_mem _ hj)
  | case3 path demanded i rest hseen hpath =>
    have := (hpending i (by simp)).2 i (by simpa using hpath)
    omega
  | case4 path demanded i rest hseen hpath hi fault hbelow ih =>
    obtain ⟨hnode, habove⟩ := hpending i (by simp)
    obtain ⟨more, hmore⟩ := ih fun j hj => by
      obtain ⟨hj, hlt⟩ := (h i hnode).2 j hj
      refine ⟨hj, fun k hk => ?_⟩
      rcases List.mem_cons.1 hk with rfl | hk
      · exact hlt
      · exact Nat.lt_trans hlt (habove k hk)
    rw [hbelow] at hmore
    simp at hmore
  | case5 path demanded i rest hseen hpath hi below hbelow ihbelow ih =>
    rw [demandFrom, if_neg hseen, dif_neg hpath, dif_pos hi, hbelow]
    exact ih fun j hj => hpending j (List.mem_cons_of_mem _ hj)
  | case6 path demanded i rest hseen hpath hi =>
    exact absurd (h i (hpending i (by simp)).1).1 hi

/-- A walk among ranked nodes lists ranked nodes. -/
theorem Ranked.of_mem_demandFrom {d : Dag} {nodes : Nat → Prop} {rank : Nat → Nat} (h : d.Ranked nodes rank)
    {known : Nat → Bool} {path demanded pending more : List Nat} (hdemanded : ∀ i ∈ demanded, nodes i)
    (hpending : ∀ i ∈ pending, nodes i) (hd : d.demandFrom known path demanded pending = .ok more) :
    ∀ i ∈ more, nodes i := by
  induction path, demanded, pending using demandFrom.induct d known generalizing more with
  | case1 path demanded =>
    rw [demandFrom, Except.ok.injEq] at hd
    exact hd ▸ hdemanded
  | case2 path demanded i rest hseen ih =>
    rw [demandFrom, if_pos hseen] at hd
    exact ih hdemanded (fun j hj => hpending j (List.mem_cons_of_mem _ hj)) hd
  | case3 path demanded i rest hseen hpath =>
    rw [demandFrom, if_neg hseen, dif_pos hpath] at hd
    simp at hd
  | case4 path demanded i rest hseen hpath hi fault hbelow ih =>
    rw [demandFrom, if_neg hseen, dif_neg hpath, dif_pos hi, hbelow] at hd
    simp at hd
  | case5 path demanded i rest hseen hpath hi below hbelow ihbelow ih =>
    rw [demandFrom, if_neg hseen, dif_neg hpath, dif_pos hi, hbelow] at hd
    have hnode := hpending i (by simp)
    have hsub := ihbelow hdemanded (fun j hj => ((h i hnode).2 j hj).1) hbelow
    refine ih (fun j hj => ?_) (fun j hj => hpending j (List.mem_cons_of_mem _ hj)) hd
    rcases List.mem_append.1 hj with hj | hj
    · exact hsub j hj
    · exact List.mem_singleton.1 hj ▸ hnode
  | case6 path demanded i rest hseen hpath hi =>
    rw [demandFrom, if_neg hseen, dif_neg hpath, dif_neg hi] at hd
    simp at hd

end FormulaDag.Dag
