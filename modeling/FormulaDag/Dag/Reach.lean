import FormulaDag.Dag.Basic

/-!
# Reach

The nodes that a node depends on, directly or through others. `Depends` is the relation; `reach` collects its members by visiting
the dependencies of every node once.
-/

namespace FormulaDag.Dag

/-- One node refers to another, in one or more steps. -/
inductive Depends (d : Dag) : Nat → Nat → Prop where
  | direct {i j : Nat} (h : j ∈ d.dependencies i) : Depends d i j
  | through {i j k : Nat} (h : j ∈ d.dependencies i) (further : Depends d j k) : Depends d i k

/-- The nodes of a dag that are not among the given ones. -/
def unseen (d : Dag) (seen : List Nat) : List Nat := (List.range d.size).filter fun i => !seen.contains i

/-- A node that is seen now leaves fewer that are not. -/
theorem length_unseen_lt {d : Dag} {seen : List Nat} {i : Nat} (hi : i < d.size) (hs : i ∉ seen) :
    (d.unseen (i :: seen)).length < (d.unseen seen).length := by
  have sub : (d.unseen (i :: seen)).Sublist (d.unseen seen) := by
    unfold unseen
    have : (fun j => !(i :: seen).contains j) = fun j => j != i && !seen.contains j := by
      funext j
      by_cases h : j = i <;> simp [h]
    rw [this, ← List.filter_filter]
    exact List.filter_sublist
  refine Nat.lt_of_le_of_ne sub.length_le fun h => ?_
  have heq := sub.eq_of_length h
  have mem : i ∈ d.unseen seen := by simp [unseen, hi, hs]
  rw [← heq] at mem
  simp [unseen] at mem

/-- Seeing a node leaves no more that are not seen. -/
theorem length_unseen_le {d : Dag} {seen : List Nat} {i : Nat} :
    (d.unseen (i :: seen)).length ≤ (d.unseen seen).length := by
  by_cases hi : i < d.size
  · by_cases hs : i ∈ seen
    · apply Nat.le_of_eq
      congr 1
      unfold unseen
      congr 1
      funext j
      by_cases h : j = i
      · subst h
        simp [hs]
      · simp [h]
    · exact Nat.le_of_lt (length_unseen_lt hi hs)
  · apply Nat.le_of_eq
    congr 1
    unfold unseen
    apply List.filter_congr
    intro j hj
    have : j ≠ i := by
      rintro rfl
      exact hi (List.mem_range.1 hj)
    simp [this]

/-- There is nothing that a node outside of the dag depends on. -/
theorem dependencies_of_size_le {d : Dag} {i : Nat} (h : d.size ≤ i) : d.dependencies i = [] := by
  simp [dependencies, node?, List.getElem?_eq_none (show d.nodes.length ≤ i from h)]

/-- The visited nodes once every node of a queue and everything it depends on has been visited. -/
def reachFrom (d : Dag) (seen queue : List Nat) : List Nat :=
  match queue with
  | [] => seen
  | i :: rest =>
    if _new : seen.contains i then reachFrom d seen rest
    else if _exists : i < d.size then reachFrom d (i :: seen) (rest ++ d.dependencies i)
    else reachFrom d (i :: seen) rest
termination_by ((d.unseen seen).length, queue.length)
decreasing_by
  · exact Prod.Lex.right _ (by simp)
  · exact Prod.Lex.left _ _ (length_unseen_lt _exists (by simpa using _new))
  · rcases Nat.lt_or_eq_of_le (@length_unseen_le d seen i) with h | h
    · exact Prod.Lex.left _ _ h
    · rw [h]
      exact Prod.Lex.right _ (by simp)

/-- The nodes that a node depends on, in ascending order. -/
def reach (d : Dag) (i : Nat) : List Nat := (d.reachFrom [] (d.dependencies i)).mergeSort (· ≤ ·)

end FormulaDag.Dag
