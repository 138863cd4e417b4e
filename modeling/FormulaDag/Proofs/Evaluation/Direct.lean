import FormulaDag.Evaluation.Basic
import FormulaDag.Proofs.Evaluation.Demand
import FormulaDag.Proofs.Evaluation.Locality

/-!
# Evaluation without a memo

`direct` computes a node by recursion: first the nodes it depends on, in order, and then the node from their branches. Nothing is
kept in between. On ranked nodes the recursion needs no more depth than there are nodes, and its results follow from one another
by `step`. The first fault along a list of demanded nodes is the fault of the target.
-/

namespace FormulaDag.Evaluation

/-- The branches of a node, given what all nodes evaluate to. The first fault among its dependencies is its own fault. -/
def step (e : Evaluation) (values : List Float) (results : Nat → Except EvaluationFault Branches) (i : Nat) :
    Except EvaluationFault Branches :=
  match e.dag.node? i with
  | none => .error (.node i [] .noSuchIndex)
  | some n =>
    match n.dependencies.mapM results with
    | .error fault => .error fault
    | .ok _ => nodeBranches e.rules e.precision values i n fun j => (results j).toOption

/-- The branches of a node by plain recursion, to a given depth. -/
def direct (e : Evaluation) (values : List Float) : Nat → Nat → Except EvaluationFault Branches
  | 0, i => .error (.cycle i)
  | depth + 1, i => e.step values (direct e values depth) i

/-- Results of nodes that are what `step` makes of the results of their dependencies. -/
def Follows (e : Evaluation) (values : List Float) (nodes : Nat → Prop) (results : Nat → Except EvaluationFault Branches) :
    Prop :=
  ∀ i, nodes i → results i = e.step values results i

/-- A step depends on the results of the dependencies only. -/
theorem step_congr {e : Evaluation} {values : List Float} {f g : Nat → Except EvaluationFault Branches} {i : Nat}
    (hlocal : ∀ n ∈ e.dag.nodes, IsLocal e.rules n) (h : ∀ j ∈ e.dag.dependencies i, f j = g j) :
    e.step values f i = e.step values g i := by
  unfold step
  cases hn : e.dag.node? i with
  | none => rfl
  | some n =>
    have hdeps : ∀ j ∈ n.dependencies, f j = g j := by
      intro j hj
      exact h j (by simpa [Dag.dependencies, hn] using hj)
    simp only [mapM_congr hdeps]
    rw [hlocal n (List.mem_of_getElem? hn) e.precision values i _ _ fun j hj => by rw [hdeps j hj]]

/-- A depth above the rank of a node is enough for it. -/
theorem direct_of_rank_lt {e : Evaluation} {values : List Float} {nodes : Nat → Prop} {rank : Nat → Nat}
    (hlocal : ∀ n ∈ e.dag.nodes, IsLocal e.rules n) (h : e.dag.Ranked nodes rank) {depth depth' i : Nat} (hi : nodes i)
    (hdepth : rank i < depth) (hdepth' : rank i < depth') : e.direct values depth i = e.direct values depth' i := by
  induction depth generalizing depth' i with
  | zero => omega
  | succ depth ih =>
    obtain ⟨depth', rfl⟩ := Nat.exists_eq_succ_of_ne_zero (Nat.ne_of_gt (Nat.zero_lt_of_lt hdepth'))
    refine step_congr hlocal fun j hj => ?_
    obtain ⟨hnode, hlt⟩ := (h i hi).2 j hj
    exact ih hnode (by omega) (by omega)

/-- On ranked nodes, plain recursion to a sufficient depth follows. -/
theorem follows_direct {e : Evaluation} (values : List Float) {nodes : Nat → Prop} {rank : Nat → Nat}
    (hlocal : ∀ n ∈ e.dag.nodes, IsLocal e.rules n) (h : e.dag.Ranked nodes rank) {depth : Nat}
    (hdepth : ∀ i, nodes i → rank i < depth) : e.Follows values nodes (e.direct values depth) := by
  intro i hi
  obtain ⟨shallower, rfl⟩ := Nat.exists_eq_succ_of_ne_zero (Nat.ne_of_gt (Nat.zero_lt_of_lt (hdepth i hi)))
  refine step_congr hlocal fun j hj => ?_
  obtain ⟨hnode, hlt⟩ := (h i hi).2 j hj
  have := hdepth i hi
  exact direct_of_rank_lt hlocal h hnode (by omega) (hdepth j hnode)

/-- The first fault of the nodes of a list. -/
def firstFault? (results : Nat → Except EvaluationFault Branches) (l : List Nat) : Option EvaluationFault :=
  l.findSome? fun i =>
    match results i with
    | .error fault => some fault
    | .ok _ => none

@[simp] theorem firstFault?_append (results : Nat → Except EvaluationFault Branches) (l₁ l₂ : List Nat) :
    firstFault? results (l₁ ++ l₂) = (firstFault? results l₁).or (firstFault? results l₂) := List.findSome?_append

/-- A node with a result is passed over. -/
theorem firstFault?_cons_ok {results : Nat → Except EvaluationFault Branches} {i : Nat} {b : Branches}
    (h : results i = .ok b) (l : List Nat) : firstFault? results (i :: l) = firstFault? results l := by
  simp [firstFault?, h]

/-- The fault of the first node is the first fault. -/
theorem firstFault?_cons_error {results : Nat → Except EvaluationFault Branches} {i : Nat} {fault : EvaluationFault}
    (h : results i = .error fault) (l : List Nat) : firstFault? results (i :: l) = some fault := by
  simp [firstFault?, h]

/-- Without a fault all nodes have results. -/
theorem firstFault?_eq_none {results : Nat → Except EvaluationFault Branches} {l : List Nat} :
    firstFault? results l = none ↔ ∀ i ∈ l, ∃ b, results i = .ok b := by
  simp only [firstFault?, List.findSome?_eq_none_iff]
  refine forall_congr' fun i => imp_congr_right fun _ => ?_
  cases results i <;> simp

/-- Going through a list in `Except` ends with its first fault. -/
theorem mapM_of_firstFault? (results : Nat → Except EvaluationFault Branches) (l : List Nat) :
    (∀ fault, firstFault? results l = some fault → l.mapM results = .error fault) ∧
      (firstFault? results l = none → ∃ found, l.mapM results = .ok found) := by
  induction l with
  | nil => exact ⟨by simp [firstFault?], fun _ => ⟨[], rfl⟩⟩
  | cons i l ih =>
    rw [List.mapM_cons]
    cases hi : results i with
    | error fault =>
      rw [firstFault?_cons_error hi]
      exact ⟨fun f hf => by rw [Option.some.inj hf]; rfl, by simp⟩
    | ok b =>
      rw [firstFault?_cons_ok hi]
      refine ⟨fun fault hf => ?_, fun hnone => ?_⟩
      · rw [ih.1 fault hf]
        rfl
      · obtain ⟨found, hfound⟩ := ih.2 hnone
        exact ⟨b :: found, by rw [hfound]; rfl⟩

/-- A dependency that fails makes the node fail in the same way. -/
theorem Follows.eq_error {e : Evaluation} {values : List Float} {nodes : Nat → Prop}
    {results : Nat → Except EvaluationFault Branches} (h : e.Follows values nodes results) {i : Nat} (hi : nodes i)
    {fault : EvaluationFault} (hf : firstFault? results (e.dag.dependencies i) = some fault) :
    results i = .error fault := by
  rw [h i hi]
  unfold step
  cases hn : e.dag.node? i with
  | none => simp [Dag.dependencies, hn, firstFault?] at hf
  | some n =>
    have hdeps : e.dag.dependencies i = n.dependencies := by simp [Dag.dependencies, hn]
    rw [hdeps] at hf
    simp only [(mapM_of_firstFault? results n.dependencies).1 fault hf]

/-- The nodes that a walk lists have the same first fault as those it started from. -/
theorem Follows.firstFault?_demandFrom {e : Evaluation} {values : List Float} {nodes : Nat → Prop}
    {results : Nat → Except EvaluationFault Branches} (h : e.Follows values nodes results)
    (hclosed : ∀ i, nodes i → ∀ j ∈ e.dag.dependencies i, nodes j) {known : Nat → Bool}
    (hknown : ∀ i, known i = true → ∃ b, results i = .ok b) {path demanded pending more : List Nat}
    (hpending : ∀ i ∈ pending, nodes i) (hd : e.dag.demandFrom known path demanded pending = .ok more) :
    firstFault? results more = firstFault? results (demanded ++ pending) := by
  induction path, demanded, pending using Dag.demandFrom.induct e.dag known generalizing more with
  | case1 path demanded =>
    rw [Dag.demandFrom, Except.ok.injEq] at hd
    rw [← hd, List.append_nil]
  | case2 path demanded i rest hseen ih =>
    rw [Dag.demandFrom, if_pos hseen] at hd
    rw [ih (fun j hj => hpending j (List.mem_cons_of_mem _ hj)) hd, firstFault?_append, firstFault?_append]
    rw [Bool.or_eq_true, List.contains_iff_mem] at hseen
    cases hi : results i with
    | ok b => rw [firstFault?_cons_ok hi]
    | error fault =>
      rcases hseen with hmem | hk
      · cases hf : firstFault? results demanded with
        | some f => rfl
        | none =>
          obtain ⟨b, hb⟩ := firstFault?_eq_none.1 hf i hmem
          rw [hi] at hb
          simp at hb
      · obtain ⟨b, hb⟩ := hknown i hk
        rw [hi] at hb
        simp at hb
  | case3 path demanded i rest hseen hpath =>
    rw [Dag.demandFrom, if_neg hseen, dif_pos hpath] at hd
    simp at hd
  | case4 path demanded i rest hseen hpath hi fault hbelow ih =>
    rw [Dag.demandFrom, if_neg hseen, dif_neg hpath, dif_pos hi, hbelow] at hd
    simp at hd
  | case5 path demanded i rest hseen hpath hi below hbelow ihbelow ih =>
    rw [Dag.demandFrom, if_neg hseen, dif_neg hpath, dif_pos hi, hbelow] at hd
    have hnode := hpending i (by simp)
    have hdeps := ihbelow (hclosed i hnode) hbelow
    have habsorb : (firstFault? results (e.dag.dependencies i)).or (firstFault? results [i]) = firstFault? results [i] := by
      cases hf : firstFault? results (e.dag.dependencies i) with
      | none => rfl
      | some fault => rw [firstFault?_cons_error (h.eq_error hnode hf), Option.some_or]
    rw [ih (fun j hj => hpending j (List.mem_cons_of_mem _ hj)) hd]
    calc firstFault? results ((below ++ [i]) ++ rest)
        = ((firstFault? results demanded).or
            ((firstFault? results (e.dag.dependencies i)).or (firstFault? results [i]))).or (firstFault? results rest) := by
          simp only [firstFault?_append, hdeps, Option.or_assoc]
      _ = (firstFault? results demanded).or (firstFault? results ([i] ++ rest)) := by
          rw [habsorb, Option.or_assoc, firstFault?_append results [i]]
      _ = firstFault? results (demanded ++ i :: rest) := (firstFault?_append results demanded _).symm
  | case6 path demanded i rest hseen hpath hi =>
    rw [Dag.demandFrom, if_neg hseen, dif_neg hpath, dif_neg hi] at hd
    simp at hd

end FormulaDag.Evaluation
