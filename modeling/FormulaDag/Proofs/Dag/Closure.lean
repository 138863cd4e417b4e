import Mathlib
import FormulaDag.Proofs.Dag.Layout
import FormulaDag.Proofs.Evaluation.Reach

/-!
# The closure of a node

A dag is made by adding nodes, which may refer to nodes that are added later, or to themselves. A visit in breadth takes one node after the
other off a queue that may hold a node many times. Each node puts its references into the queue once, when it is met for the first time, so
a visit pays for its turns with the references of the nodes it meets. It ends with the nodes that are reached in one or more steps.
-/

namespace FormulaDag.Dag

/-- The dag that is made by adding nodes in order. -/
def ofNodes (added : List Node) : Dag := added.foldl add ⟨[]⟩

/-- The references of a node that was added. -/
def row? (added : List Node) (i : Nat) : Option (List Nat) := added[i]?.map Node.dependencies

/-- A node was added with a reference to another one. -/
def Refers (added : List Node) (i j : Nat) : Prop := ∃ row, row? added i = some row ∧ j ∈ row

section
variable {added : List Node} {i j : Nat}

@[simp] theorem nodes_ofNodes : (ofNodes added).nodes = added := by
  have hfold : ∀ before : List Node, (added.foldl add ⟨before⟩).nodes = before ++ added := by
    induction added with
    | nil => simp
    | cons n added ih =>
      intro before
      rw [List.foldl_cons, add, ih, List.append_assoc, List.singleton_append]
  exact hfold []

@[simp] theorem size_ofNodes : (ofNodes added).size = added.length := by
  rw [size, nodes_ofNodes]

/-- The dependencies of a node are its row. -/
theorem dependencies_ofNodes : (ofNodes added).dependencies i = (row? added i).getD [] := by
  rw [dependencies, node?, nodes_ofNodes, row?]

theorem row?_of_lt (hi : i < added.length) : row? added i = some ((ofNodes added).dependencies i) := by
  rw [dependencies_ofNodes, row?, List.getElem?_eq_getElem hi, Option.map_some, Option.getD_some]

theorem lt_of_mem_dependencies (hexist : ∀ n ∈ added, ∀ j ∈ n.dependencies, j < added.length)
    (h : j ∈ (ofNodes added).dependencies i) : j < added.length := by
  rw [dependencies_ofNodes, row?] at h
  cases hn : added[i]? with
  | none => simp [hn] at h
  | some n =>
    rw [hn, Option.map_some, Option.getD_some] at h
    exact hexist n (List.mem_of_getElem? hn) j h

/-- The layout has the rows of the nodes. -/
theorem row?_layout (h : (added.flatMap Node.dependencies).length < Index.bound) :
    (Layout.ofRows (added.map Node.dependencies)).row? = row? added := by
  funext i
  rw [List.flatMap_def] at h
  rw [Layout.row?_ofRows h, List.getElem?_map, row?]

/-- References lead from one node to another exactly when the one depends on the other. -/
theorem depends_ofNodes_iff : (ofNodes added).Depends i j ↔ Relation.TransGen (Refers added) i j := by
  have hstep : ∀ i j, j ∈ (ofNodes added).dependencies i ↔ Refers added i j := by
    intro i j
    rw [dependencies_ofNodes, Refers]
    cases row? added i with
    | none => simp
    | some row => simp
  constructor
  · intro h
    induction h with
    | direct h => exact .single ((hstep _ _).1 h)
    | through h _ ih => exact .head ((hstep _ _).1 h) ih
  · intro h
    induction h using Relation.TransGen.head_induction_on with
    | single h => exact .direct ((hstep _ _).2 h)
    | head h _ ih => exact .through ((hstep _ _).2 h) ih

end

/-! ### Turns of a visit -/

/-- The state of a visit: the nodes that have been met and those in the queue. -/
structure Visit where
  met : Finset Nat
  queue : List Nat

namespace Visit

/-- A turn takes the first node off the queue. When it is new, its references go to the end of the queue. There is no turn for an empty
queue, nor for a new node without a row. -/
def turn? (rows : Nat → Option (List Nat)) : Visit → Option Visit
  | ⟨_, []⟩ => none
  | ⟨met, i :: queue⟩ =>
    if i ∈ met then some ⟨met, queue⟩ else (rows i).map fun row => ⟨insert i met, queue ++ row⟩

/-- A number of turns leads from one state to another. -/
inductive Turns (rows : Nat → Option (List Nat)) : Nat → Visit → Visit → Prop where
  | zero (v : Visit) : Turns rows 0 v v
  | succ {n : Nat} {u v w : Visit} (h : u.turn? rows = some v) (further : Turns rows n v w) : Turns rows (n + 1) u w

/-- The number of references that nodes have together. -/
def outDegree (rows : Nat → Option (List Nat)) (met : Finset Nat) : Nat := ∑ i ∈ met, ((rows i).getD []).length

section
variable {rows : Nat → Option (List Nat)} {u v w : Visit} {n : Nat}

/-- A turn takes one node off the queue and puts in the references of the node that it meets, if it meets one. -/
theorem balance_turn? (h : u.turn? rows = some v) :
    v.queue.length + outDegree rows u.met + 1 = u.queue.length + outDegree rows v.met := by
  obtain ⟨met, queue⟩ := u
  cases queue with
  | nil => cases h
  | cons i queue =>
    by_cases hi : i ∈ met
    · rw [turn?, if_pos hi] at h
      obtain rfl := Option.some.inj h
      simp only [List.length_cons]
      omega
    · rw [turn?, if_neg hi] at h
      obtain ⟨row, hrow, rfl⟩ := Option.map_eq_some_iff.1 h
      have hmet : outDegree rows (insert i met) = row.length + outDegree rows met := by
        rw [outDegree, Finset.sum_insert hi, hrow]
        rfl
      simp only [hmet, List.length_append, List.length_cons]
      omega

/-- The turns of a visit are paid for by the queue it starts with and by the references of the nodes it meets. -/
theorem Turns.balance (h : Turns rows n u w) :
    w.queue.length + outDegree rows u.met + n = u.queue.length + outDegree rows w.met := by
  induction h with
  | zero => rfl
  | succ hturn _ ih =>
    have := balance_turn? hturn
    omega

/-- A visit that meets nothing before its start empties its queue in as many turns as it starts with nodes and meets references. -/
theorem Turns.eq_add_outDegree {queue : List Nat} {met : Finset Nat} (h : Turns rows n ⟨∅, queue⟩ ⟨met, []⟩) :
    n = queue.length + outDegree rows met := by
  have hbalance : 0 + outDegree rows ∅ + n = queue.length + outDegree rows met := h.balance
  have hnothing : outDegree rows ∅ = 0 := Finset.sum_empty
  rwa [hnothing, Nat.zero_add] at hbalance

end

/-- Where every reference names a node, a visit takes turns until the queue is empty, and then it has met what `reachFrom` collects. -/
theorem exists_turns {added : List Node} (hexist : ∀ n ∈ added, ∀ j ∈ n.dependencies, j < added.length) (seen queue : List Nat)
    (hqueue : ∀ i ∈ queue, i < added.length) :
    ∃ n, Turns (row? added) n ⟨seen.toFinset, queue⟩ ⟨((ofNodes added).reachFrom seen queue).toFinset, []⟩ := by
  induction seen, queue using reachFrom.induct (ofNodes added) with
  | case1 seen =>
    rw [reachFrom]
    exact ⟨0, .zero _⟩
  | case2 seen i rest hseen ih =>
    rw [reachFrom, dif_pos hseen]
    obtain ⟨n, hn⟩ := ih fun j hj => hqueue j (List.mem_cons_of_mem _ hj)
    have hturn : turn? (row? added) ⟨seen.toFinset, i :: rest⟩ = some ⟨seen.toFinset, rest⟩ := by
      rw [turn?, if_pos (by simpa using hseen)]
    exact ⟨n + 1, .succ hturn hn⟩
  | case3 seen i rest hseen hi ih =>
    rw [reachFrom, dif_neg hseen, dif_pos hi]
    obtain ⟨n, hn⟩ := ih (by
      intro j hj
      rcases List.mem_append.1 hj with hj | hj
      · exact hqueue j (List.mem_cons_of_mem _ hj)
      · exact lt_of_mem_dependencies hexist hj)
    have hturn : turn? (row? added) ⟨seen.toFinset, i :: rest⟩ =
        some ⟨(i :: seen).toFinset, rest ++ (ofNodes added).dependencies i⟩ := by
      rw [turn?, if_neg (by simpa using hseen), row?_of_lt (by simpa using hi), Option.map_some, List.toFinset_cons]
    exact ⟨n + 1, .succ hturn hn⟩
  | case4 seen i rest hseen hi ih =>
    -- a node in the queue exists
    rw [size_ofNodes] at hi
    exact absurd (hqueue i List.mem_cons_self) hi

end Visit

/-! ### The closure as a set -/

/-- No node is reached twice. -/
theorem nodup_reachFrom {d : Dag} {seen queue : List Nat} (h : seen.Nodup) : (d.reachFrom seen queue).Nodup := by
  induction seen, queue using reachFrom.induct d with
  | case1 seen =>
    rw [reachFrom]
    exact h
  | case2 seen i rest hseen ih =>
    rw [reachFrom, dif_pos hseen]
    exact ih h
  | case3 seen i rest hseen hi ih =>
    rw [reachFrom, dif_neg hseen, dif_pos hi]
    exact ih (List.nodup_cons.2 ⟨by simpa using hseen, h⟩)
  | case4 seen i rest hseen hi ih =>
    rw [reachFrom, dif_neg hseen, dif_neg hi]
    exact ih (List.nodup_cons.2 ⟨by simpa using hseen, h⟩)

/-- The reached nodes are listed in ascending order. -/
theorem ascending_reach (d : Dag) (i : Nat) : (d.reach i).Pairwise (· < ·) := by
  have hsorted : (d.reach i).Pairwise (· ≤ ·) := by
    have htrans : ∀ a b c : Nat, decide (a ≤ b) = true → decide (b ≤ c) = true → decide (a ≤ c) = true := by
      simpa using fun a b c => Nat.le_trans
    have htotal : ∀ a b : Nat, (decide (a ≤ b) || decide (b ≤ a)) = true := by simpa using Nat.le_total
    exact (List.pairwise_mergeSort htrans htotal _).imp of_decide_eq_true
  have honce : (d.reach i).Nodup := (List.mergeSort_perm _ _).nodup_iff.2 (nodup_reachFrom .nil)
  exact hsorted.imp₂ (fun _ _ hle hne => Nat.lt_of_le_of_ne hle hne) honce

/-! ### Cycles -/

section
variable {α : Type} {r : α → α → Prop} {a b : α}

/-- Where there is a way, there is one that passes nothing twice. -/
theorem exists_simple_chain (h : Relation.ReflTransGen r a b) :
    ∃ l, (a :: l).Nodup ∧ (a :: l).IsChain r ∧ (a :: l).getLast (List.cons_ne_nil a l) = b := by
  induction h using Relation.ReflTransGen.head_induction_on with
  | refl => exact ⟨[], by simp, by simp, rfl⟩
  | @head a c hac _ ih =>
    obtain ⟨l, honce, hchain, hlast⟩ := ih
    by_cases ha : a ∈ c :: l
    · -- the way comes back to its first place, so it can start there
      obtain ⟨before, after, heq⟩ := List.append_of_mem ha
      simp only [heq] at honce hchain hlast
      refine ⟨after, honce.of_append_right, hchain.right_of_append, ?_⟩
      rwa [List.getLast_append_of_ne_nil _ (List.cons_ne_nil a after)] at hlast
    · refine ⟨c :: l, List.nodup_cons.2 ⟨ha, honce⟩, hchain.cons_cons hac, ?_⟩
      rwa [List.getLast_cons_cons]

/-- A way back to where it starts is one along a cycle, on which nothing lies twice. -/
theorem transGen_self_iff : Relation.TransGen r a a ↔ ∃ c : Cycle α, c.Nodup ∧ a ∈ c ∧ c.Chain r := by
  constructor
  · intro h
    obtain ⟨b, hab, hba⟩ := Relation.TransGen.tail'_iff.1 h
    obtain ⟨l, honce, hchain, rfl⟩ := exists_simple_chain hab
    refine ⟨(a :: l : List α), honce, List.mem_cons_self, ?_⟩
    rw [Cycle.chain_coe_cons, ← List.cons_append]
    refine hchain.append (by simp) ?_
    intro x hx y hy
    rw [List.getLast?_eq_getLast_of_ne_nil (List.cons_ne_nil a l), Option.mem_some_iff] at hx
    rw [List.head?_singleton, Option.mem_some_iff] at hy
    rwa [← hx, ← hy]
  · rintro ⟨c, -, ha, hchain⟩
    exact Cycle.chain_iff_pairwise.1 (hchain.imp fun _ _ => Relation.TransGen.single) a ha a ha

end

/-- The closure of a node is what it reaches, in five parts, for any nodes whose references all name nodes in the end.
1. It lists nodes in ascending order, each once.
2. These are the nodes to which one or more references lead.
3. The node itself is among them if and only if it lies on a cycle.
4. A visit in breadth that starts with the references of the node comes to its end, without missing a row, and then it has met the closure.
   It takes as many turns as the node and those of the closure have references together.
5. The rows of the visit can be read from a single list, as long as its length fits a word. -/
theorem reach_ofNodes {added : List Node} (hexist : ∀ n ∈ added, ∀ j ∈ n.dependencies, j < added.length) {start : Nat}
    (hstart : start < added.length) :
    ((ofNodes added).reach start).Pairwise (· < ·) ∧
    (∀ j, j ∈ (ofNodes added).reach start ↔ Relation.TransGen (Refers added) start j) ∧
    (start ∈ (ofNodes added).reach start ↔ ∃ c : Cycle Nat, c.Nodup ∧ start ∈ c ∧ c.Chain (Refers added)) ∧
    (∃ row, row? added start = some row ∧
      Visit.Turns (row? added) (row.length + Visit.outDegree (row? added) ((ofNodes added).reach start).toFinset) ⟨∅, row⟩
        ⟨((ofNodes added).reach start).toFinset, []⟩) ∧
    ((added.flatMap Node.dependencies).length < Index.bound →
      (Layout.ofRows (added.map Node.dependencies)).row? = row? added) := by
  have hmem : ∀ j, j ∈ (ofNodes added).reach start ↔ Relation.TransGen (Refers added) start j := by
    intro j
    rw [mem_reach_iff, depends_ofNodes_iff]
  have hreached : ((ofNodes added).reachFrom [] ((ofNodes added).dependencies start)).toFinset =
      ((ofNodes added).reach start).toFinset :=
    (List.toFinset_eq_of_perm _ _ (List.mergeSort_perm _ _)).symm
  obtain ⟨turns, hturns⟩ := Visit.exists_turns hexist [] ((ofNodes added).dependencies start)
    fun i hi => lt_of_mem_dependencies hexist hi
  rw [hreached, List.toFinset_nil] at hturns
  exact ⟨ascending_reach _ _, hmem, (hmem start).trans transGen_self_iff,
    ⟨_, row?_of_lt hstart, hturns.eq_add_outDegree ▸ hturns⟩, row?_layout⟩

/-- Two nodes refer to each other, the first of them twice. The second one also leads to a node that refers to itself, and nothing leads to
the last one. -/
def circle : List Node := [⟨.sum, [], [1, 1]⟩, ⟨.sum, [], [0, 2]⟩, ⟨.sum, [], [2]⟩, ⟨.sum, [], [0]⟩]

/-- The last node reaches the others in six turns and lies on no cycle, and the first one lies on a cycle. -/
theorem reach_ofNodes_circle :
    (∀ n ∈ circle, ∀ j ∈ n.dependencies, j < circle.length) ∧ 3 < circle.length ∧ (ofNodes circle).reach 3 = [0, 1, 2] ∧
    (∀ j, Relation.TransGen (Refers circle) 3 j ↔ j = 0 ∨ j = 1 ∨ j = 2) ∧
    (¬∃ c : Cycle Nat, c.Nodup ∧ 3 ∈ c ∧ c.Chain (Refers circle)) ∧
    (∃ c : Cycle Nat, c.Nodup ∧ 0 ∈ c ∧ c.Chain (Refers circle)) ∧
    Visit.Turns (row? circle) 6 ⟨∅, [0]⟩ ⟨{0, 1, 2}, []⟩ ∧
    (Layout.ofRows (circle.map Node.dependencies)).row? = row? circle := by
  have hexist : ∀ n ∈ circle, ∀ j ∈ n.dependencies, j < circle.length := by decide
  have hlast : (ofNodes circle).reach 3 = [0, 1, 2] := by cbv
  have hfirst : (ofNodes circle).reach 0 = [0, 1, 2] := by cbv
  have hstart : 3 < circle.length := by decide
  have hstart' : 0 < circle.length := by decide
  obtain ⟨-, hmem, hcycle, ⟨row, hrow, hturns⟩, hlayout⟩ := reach_ofNodes hexist hstart
  obtain ⟨-, -, hcycle', -⟩ := reach_ofNodes hexist hstart'
  rw [hlast] at hmem hcycle hturns
  rw [hfirst] at hcycle'
  obtain rfl := Option.some.inj hrow
  exact ⟨hexist, hstart, hlast, fun j => by simpa using (hmem j).symm, fun h => absurd (hcycle.2 h) (by decide), hcycle'.1 (by decide),
    hturns, hlayout (by decide)⟩

end FormulaDag.Dag
