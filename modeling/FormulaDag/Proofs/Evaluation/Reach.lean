import Mathlib
import FormulaDag.Dag.Reach

/-!
# What a node reaches

`Dag.reach` collects the nodes that a node depends on by a visit in breadth, `Dag.Depends` says which they are. The two agree on every
graph: nodes outside the dag have no dependencies, and references may run in circles.
-/

namespace FormulaDag.Dag

section
variable {d : Dag} {i j k : Nat} {seen queue : List Nat}

theorem Depends.trans (h : d.Depends i j) (h' : d.Depends j k) : d.Depends i k := by
  induction h with
  | direct hij => exact .through hij h'
  | through hij _ ih => exact .through hij (ih h')

/-- A set that holds a node and what its members refer to holds what the node depends on. -/
theorem Depends.mem_of_closed {P : Nat → Prop} (h : d.Depends i j) (hi : P i)
    (hclosed : ∀ i, P i → ∀ j ∈ d.dependencies i, P j) : P j := by
  induction h with
  | direct hij => exact hclosed _ hi _ hij
  | through hij _ ih => exact ih (hclosed _ hi _ hij)

/-- A visit ends with what was seen before and what was in the queue. -/
theorem mem_reachFrom (h : j ∈ seen ∨ j ∈ queue) : j ∈ d.reachFrom seen queue := by
  induction seen, queue using reachFrom.induct d with
  | case1 seen =>
    rw [reachFrom]
    exact h.resolve_right (by simp)
  | case2 seen i rest hseen ih =>
    rw [reachFrom, dif_pos hseen]
    refine ih (h.elim .inl fun hj => ?_)
    rcases List.mem_cons.1 hj with rfl | hj
    · exact .inl (by simpa using hseen)
    · exact .inr hj
  | case3 seen i rest hseen hi ih =>
    rw [reachFrom, dif_neg hseen, dif_pos hi]
    exact ih (by simp only [List.mem_cons, List.mem_append] at h ⊢; tauto)
  | case4 seen i rest hseen hi ih =>
    rw [reachFrom, dif_neg hseen, dif_neg hi]
    exact ih (by simp only [List.mem_cons] at h ⊢; tauto)

/-- What a visit ends with is closed, as long as what is referred to from the nodes seen so far is seen or in the queue. -/
theorem closed_reachFrom (h : ∀ i ∈ seen, ∀ k ∈ d.dependencies i, k ∈ seen ∨ k ∈ queue) :
    ∀ i ∈ d.reachFrom seen queue, ∀ k ∈ d.dependencies i, k ∈ d.reachFrom seen queue := by
  induction seen, queue using reachFrom.induct d with
  | case1 seen =>
    rw [reachFrom]
    exact fun i hi k hk => (h i hi k hk).resolve_right (by simp)
  | case2 seen i rest hseen ih =>
    rw [reachFrom, dif_pos hseen]
    refine ih fun j hj k hk => (h j hj k hk).elim .inl fun hmem => ?_
    rcases List.mem_cons.1 hmem with rfl | hmem
    · exact .inl (by simpa using hseen)
    · exact .inr hmem
  | case3 seen i rest hseen hi ih =>
    rw [reachFrom, dif_neg hseen, dif_pos hi]
    refine ih fun j hj k hk => ?_
    rcases List.mem_cons.1 hj with rfl | hj
    · exact .inr (List.mem_append_right _ hk)
    · have := h j hj k hk
      simp only [List.mem_cons, List.mem_append] at this ⊢
      tauto
  | case4 seen i rest hseen hi ih =>
    rw [reachFrom, dif_neg hseen, dif_neg hi]
    refine ih fun j hj k hk => ?_
    rcases List.mem_cons.1 hj with rfl | hj
    · rw [dependencies_of_size_le (Nat.not_lt.1 hi)] at hk
      cases hk
    · have := h j hj k hk
      simp only [List.mem_cons] at this ⊢
      tauto

/-- What a visit ends with was seen before, or the queue leads to it. -/
theorem of_mem_reachFrom (hj : j ∈ d.reachFrom seen queue) : j ∈ seen ∨ ∃ i ∈ queue, i = j ∨ d.Depends i j := by
  induction seen, queue using reachFrom.induct d with
  | case1 seen =>
    rw [reachFrom] at hj
    exact .inl hj
  | case2 seen i rest hseen ih =>
    rw [reachFrom, dif_pos hseen] at hj
    exact (ih hj).imp_right fun ⟨l, hl, h⟩ => ⟨l, List.mem_cons_of_mem _ hl, h⟩
  | case3 seen i rest hseen hi ih =>
    rw [reachFrom, dif_neg hseen, dif_pos hi] at hj
    rcases ih hj with hmem | ⟨l, hl, h⟩
    · rcases List.mem_cons.1 hmem with rfl | hmem
      · exact .inr ⟨j, List.mem_cons_self, .inl rfl⟩
      · exact .inl hmem
    · rcases List.mem_append.1 hl with hl | hl
      · exact .inr ⟨l, List.mem_cons_of_mem _ hl, h⟩
      · refine .inr ⟨i, List.mem_cons_self, .inr ?_⟩
        rcases h with rfl | h
        · exact .direct hl
        · exact .through hl h
  | case4 seen i rest hseen hi ih =>
    rw [reachFrom, dif_neg hseen, dif_neg hi] at hj
    rcases ih hj with hmem | ⟨l, hl, h⟩
    · rcases List.mem_cons.1 hmem with rfl | hmem
      · exact .inr ⟨j, List.mem_cons_self, .inl rfl⟩
      · exact .inl hmem
    · exact .inr ⟨l, List.mem_cons_of_mem _ hl, h⟩

/-- The nodes that are reached are those that a node depends on. -/
@[simp] theorem mem_reach_iff : j ∈ d.reach i ↔ d.Depends i j := by
  rw [reach, List.mem_mergeSort]
  constructor
  · intro h
    obtain ⟨k, hk, rfl | h⟩ := (of_mem_reachFrom h).resolve_left (by simp)
    · exact .direct hk
    · exact .through hk h
  · intro h
    have hclosed : ∀ k ∈ d.reachFrom [] (d.dependencies i), ∀ l ∈ d.dependencies k, l ∈ d.reachFrom [] (d.dependencies i) :=
      closed_reachFrom (by simp)
    cases h with
    | direct hj => exact mem_reachFrom (.inr hj)
    | through hk h => exact h.mem_of_closed (P := (· ∈ d.reachFrom [] (d.dependencies i))) (mem_reachFrom (.inr hk)) hclosed

end

/-- A node and the nodes that it depends on. -/
def span (d : Dag) (i : Nat) : Finset Nat := insert i (d.reach i).toFinset

section
variable {d : Dag} {i j k : Nat}

@[simp] theorem mem_span_iff : j ∈ d.span i ↔ j = i ∨ d.Depends i j := by
  rw [span, Finset.mem_insert, List.mem_toFinset, mem_reach_iff]

theorem self_mem_span : i ∈ d.span i := mem_span_iff.2 (.inl rfl)

theorem closed_span (hj : j ∈ d.span i) (hk : k ∈ d.dependencies j) : k ∈ d.span i := by
  rw [mem_span_iff] at hj ⊢
  rcases hj with rfl | hj
  · exact .inr (.direct hk)
  · exact .inr (hj.trans (.direct hk))

/-- A set that holds a node and what its members refer to holds the span of the node. -/
theorem mem_of_mem_span {P : Nat → Prop} (hj : j ∈ d.span i) (hi : P i) (hclosed : ∀ i, P i → ∀ j ∈ d.dependencies i, P j) :
    P j := by
  rcases mem_span_iff.1 hj with rfl | hj
  · exact hi
  · exact hj.mem_of_closed hi hclosed

end

end FormulaDag.Dag
