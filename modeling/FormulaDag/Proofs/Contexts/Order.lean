import Mathlib
import FormulaDag.Contexts.Order

/-!
# The order of references

The walk along dependents lists every index once. An index that is visited waits on the stack until all its dependents are finished,
and only indices that refer to it, directly or through others, are above it on the stack by then. So a dependent that is still waiting
further down when an index is finished is referred to by it. That is why a dependency behind its dependent in the order lies on a
cycle, and why there is an order exactly when nothing refers to itself.
-/

namespace FormulaDag.References

/-- An index refers to another one. -/
def Refers (r : References) (i j : Nat) : Prop := ∃ e ∈ r, e.1 = i ∧ j ∈ e.2

/-- No index refers to itself, directly or through others. -/
def Acyclic (r : References) : Prop := ∀ i, ¬ Relation.TransGen r.Refers i i

/-- Every index ranks above what it refers to. -/
def Ranked (r : References) (rank : Nat → Nat) : Prop := ∀ e ∈ r, ∀ d ∈ e.2, rank d < rank e.1

/-- Every index in a list is followed by what refers to it, as far as it does not refer to that itself. -/
def Placed (r : References) (l : List Nat) : Prop :=
  ∀ before i after, l = before ++ i :: after → ∀ j ∈ r.dependents i, j ∈ after ∨ Relation.TransGen r.Refers i j

/-- The state of a walk: every index waits to be visited, or is finished, or is on the stack. In the last case all that is above it
refers to it, and each of its dependents is finished, above it or further down, where it is referred to. -/
structure Walking (r : References) (remaining finished stack : List Nat) : Prop where
  distinct : remaining.Nodup
  vertices : ∀ i ∈ stack, i ∈ r.vertices
  waiting : ∀ i ∈ remaining, i ∈ stack
  opened : ∀ i ∈ r.vertices, i ∉ remaining → i ∉ finished → ∃ above below, stack = above ++ i :: below ∧ i ∉ above ∧
    (∀ j ∈ above, Relation.TransGen r.Refers j i) ∧
    ∀ j ∈ r.dependents i, j ∈ finished ∨ j ∈ above ∨ Relation.TransGen r.Refers i j
  loopless : ∀ i ∈ r.vertices, i ∉ remaining → i ∉ r.dependents i
  inside : ∀ i ∈ finished, i ∈ r.vertices
  once : finished.Nodup
  placed : r.Placed finished

theorem nodup_eraseDups (l : List Nat) : l.eraseDups.Nodup := by
  induction hlen : l.length using Nat.strong_induction_on generalizing l with
  | _ length ih =>
    cases l with
    | nil => simp
    | cons a l =>
      rw [List.eraseDups_cons, List.nodup_cons]
      refine ⟨by simp [List.mem_eraseDups], ih _ ?_ _ rfl⟩
      have := List.length_filter_le (fun b => !b == a) l
      rw [← hlen, List.length_cons]
      omega

section
variable {r : References}

/-- The dependents of an index are those that refer to it. -/
theorem mem_dependents {i j : Nat} : j ∈ r.dependents i ↔ r.Refers j i := by
  simp only [dependents, List.mem_filterMap, Option.ite_none_right_eq_some, List.contains_iff_mem, Option.some.injEq, Refers]
  exact exists_congr fun e => and_congr_right fun _ => and_comm

/-- The vertices are the indices of the entries and what these refer to. -/
theorem mem_vertices {i : Nat} : i ∈ r.vertices ↔ ∃ e ∈ r, i = e.1 ∨ i ∈ e.2 := by
  simp [vertices, List.mem_eraseDups]

theorem Refers.mem_vertices {i j : Nat} (h : r.Refers i j) : i ∈ r.vertices ∧ j ∈ r.vertices := by
  obtain ⟨e, he, rfl, hj⟩ := h
  exact ⟨References.mem_vertices.2 ⟨e, he, .inl rfl⟩, References.mem_vertices.2 ⟨e, he, .inr hj⟩⟩

theorem refers_of_mem_dependencies {i d : Nat} (h : d ∈ r.dependencies i) : r.Refers i d := by
  unfold dependencies at h
  cases hl : r.lookup i with
  | none => simp [hl] at h
  | some ds =>
    obtain ⟨l₁, l₂, hr, -⟩ := List.lookup_eq_some_iff.1 hl
    exact ⟨(i, ds), by simp [hr], rfl, by simpa [hl] using h⟩

/-- Where every index has one entry, what it refers to is in that entry. -/
theorem mem_dependencies (h : (r.map Prod.fst).Nodup) {i d : Nat} : d ∈ r.dependencies i ↔ r.Refers i d := by
  refine ⟨refers_of_mem_dependencies, ?_⟩
  rintro ⟨⟨j, ds⟩, he, rfl, hd⟩
  have hlookup : r.lookup j = some ds := by
    obtain ⟨l₁, l₂, rfl⟩ := List.append_of_mem he
    rw [List.map_append, List.nodup_append] at h
    refine List.lookup_eq_some_iff.2 ⟨l₁, l₂, rfl, fun p hp => ?_⟩
    exact bne_iff_ne.2 fun heq => h.2.2 p.1 (List.mem_map_of_mem hp) j (by simp) heq.symm
  simpa [dependencies, hlookup] using hd

/-- References with a rank have no cycle. -/
theorem Ranked.acyclic {rank : Nat → Nat} (h : r.Ranked rank) : r.Acyclic := by
  have hlt : ∀ i j, Relation.TransGen r.Refers i j → rank j < rank i := by
    intro i j hij
    induction hij with
    | single hstep =>
      obtain ⟨e, he, rfl, hj⟩ := hstep
      exact h e he _ hj
    | tail _ hstep ih =>
      obtain ⟨e, he, rfl, hj⟩ := hstep
      exact Nat.lt_trans (h e he _ hj) ih
  exact fun i hi => Nat.lt_irrefl _ (hlt i i hi)

/-- An index is visited. -/
theorem Walking.visit {remaining finished below : List Nat} {i : Nat} (h : Walking r remaining finished (i :: below))
    (hi : i ∈ remaining) (hself : i ∉ r.dependents i) :
    Walking r (remaining.erase i) finished
      (((r.dependents i).filter fun d => (remaining.erase i).contains d).reverse ++ i :: below) := by
  have hmem : ∀ j, j ∈ ((r.dependents i).filter fun d => (remaining.erase i).contains d).reverse ↔
      j ∈ r.dependents i ∧ j ∈ remaining.erase i := by simp
  generalize ((r.dependents i).filter fun d => (remaining.erase i).contains d).reverse = pushed at hmem
  have herase : ∀ j, j ∈ remaining.erase i ↔ j ≠ i ∧ j ∈ remaining := fun j => h.distinct.mem_erase_iff
  have hpushed : ∀ k ∈ pushed, r.Refers k i := fun k hk => mem_dependents.1 ((hmem k).1 hk).1
  refine ⟨h.distinct.erase i, fun j hj => ?_, fun j hj => ?_, fun j hj hremaining hfinished => ?_, fun j hj hremaining => ?_,
    h.inside, h.once, h.placed⟩
  · rcases List.mem_append.1 hj with hj | hj
    · exact (hpushed j hj).mem_vertices.1
    · exact h.vertices j hj
  · exact List.mem_append_right _ (h.waiting j ((herase j).1 hj).2)
  · by_cases hji : j = i
    · subst hji
      refine ⟨pushed, below, rfl, fun hmem' => ?_, fun k hk => .single (hpushed k hk), fun k hk => ?_⟩
      · exact ((herase j).1 ((hmem j).1 hmem').2).1 rfl
      · by_cases hkf : k ∈ finished
        · exact .inl hkf
        by_cases hkr : k ∈ remaining.erase j
        · exact .inr (.inl ((hmem k).2 ⟨hk, hkr⟩))
        -- the dependent was visited before, so it is open and the visited index is above it
        have hkj : k ≠ j := fun heq => hself (heq ▸ hk)
        have hk' := (mem_dependents.1 hk).mem_vertices.1
        obtain ⟨above, rest, heq, -, habove, -⟩ := h.opened k hk' (fun hk => hkr ((herase k).2 ⟨hkj, hk⟩)) hkf
        cases above with
        | nil => exact absurd (List.cons.inj heq).1.symm hkj
        | cons top above => exact .inr (.inr (habove j (by simp [(List.cons.inj heq).1])))
    · have hj' : j ∉ remaining := fun hjr => hremaining ((herase j).2 ⟨hji, hjr⟩)
      obtain ⟨above, rest, heq, hnot, habove, hdependents⟩ := h.opened j hj hj' hfinished
      cases above with
      | nil => exact absurd (List.cons.inj heq).1.symm hji
      | cons top above =>
        obtain ⟨rfl, rfl⟩ := List.cons.inj heq
        refine ⟨pushed ++ i :: above, rest, by simp, ?_, fun k hk => ?_, fun k hk => ?_⟩
        · simp only [List.mem_append, not_or]
          exact ⟨fun hmem' => hj' ((herase j).1 ((hmem j).1 hmem').2).2, hnot⟩
        · rcases List.mem_append.1 hk with hk | hk
          · exact .head (hpushed k hk) (habove i (by simp))
          · exact habove k hk
        · exact (hdependents k hk).imp id (Or.imp (List.mem_append_right _) id)
  · by_cases hji : j = i
    · exact hji ▸ hself
    · exact h.loopless j hj fun hjr => hremaining ((herase j).2 ⟨hji, hjr⟩)

/-- An index that was visited before is taken off the stack and finished if it was not. -/
theorem Walking.leave {remaining finished below : List Nat} {i : Nat} (h : Walking r remaining finished (i :: below))
    (hi : i ∉ remaining) : Walking r remaining (if finished.contains i then finished else i :: finished) below := by
  have hfinished : ∀ j, j ∈ (if finished.contains i then finished else i :: finished) ↔ j = i ∨ j ∈ finished := by
    intro j
    split
    · rename_i hmem
      rw [List.contains_iff_mem] at hmem
      constructor
      · exact .inr
      · rintro (rfl | hj)
        · exact hmem
        · exact hj
    · exact List.mem_cons
  refine ⟨h.distinct, fun j hj => h.vertices j (List.mem_cons_of_mem _ hj), fun j hj => ?_, fun j hj hremaining hnot => ?_,
    h.loopless, fun j hj => ?_, ?_, ?_⟩
  · refine (List.mem_cons.1 (h.waiting j hj)).resolve_left fun heq => hi (heq ▸ hj)
  · simp only [hfinished, not_or] at hnot
    obtain ⟨above, rest, heq, hfree, habove, hdependents⟩ := h.opened j hj hremaining hnot.2
    cases above with
    | nil => exact absurd (List.cons.inj heq).1.symm hnot.1
    | cons top above =>
      obtain ⟨rfl, rfl⟩ := List.cons.inj heq
      refine ⟨above, rest, rfl, fun hmem => hfree (List.mem_cons_of_mem _ hmem), fun k hk => habove k (List.mem_cons_of_mem _ hk),
        fun k hk => ?_⟩
      rw [hfinished]
      rcases hdependents k hk with hk | hk | hk
      · exact .inl (.inr hk)
      · exact (List.mem_cons.1 hk).imp .inl .inl
      · exact .inr (.inr hk)
  · rcases (hfinished j).1 hj with rfl | hj
    · exact h.vertices j (by simp)
    · exact h.inside j hj
  · split
    · exact h.once
    · rename_i hmem
      exact List.nodup_cons.2 ⟨by simpa using hmem, h.once⟩
  · split
    · exact h.placed
    · rename_i hmem
      intro before j after heq k hk
      cases before with
      | nil =>
        obtain ⟨rfl, rfl⟩ := List.cons.inj heq
        obtain ⟨above, rest, hstack, hfree, -, hdependents⟩ := h.opened i (h.vertices i (by simp)) hi (by simpa using hmem)
        cases above with
        | nil => exact (hdependents k hk).imp id fun hk => hk.resolve_left (by simp)
        | cons top above => exact absurd (by simp [(List.cons.inj hstack).1]) hfree
      | cons first before =>
        obtain ⟨-, rfl⟩ := List.cons.inj heq
        exact h.placed before j after rfl k hk

/-- A list of all indices that nothing refers to itself in, each once and before what refers to it but not the other way round. -/
structure Listed (r : References) (l : List Nat) : Prop where
  once : l.Nodup
  all : ∀ i, i ∈ l ↔ i ∈ r.vertices
  loopless : ∀ i, ¬ r.Refers i i
  placed : r.Placed l

/-- A walk ends with the list of all indices, or at one that refers to itself. -/
theorem Walking.walk {remaining finished stack : List Nat} (h : Walking r remaining finished stack) :
    (∀ l, r.walk remaining finished stack = .ok l → Listed r l) ∧
      ∀ i, r.walk remaining finished stack = .error i → r.Refers i i := by
  induction remaining, finished, stack using walk.induct r with
  | case1 remaining finished =>
    have hnone : ∀ i, i ∉ remaining := fun i hi => by simpa using h.waiting i hi
    rw [References.walk]
    refine ⟨fun l hl => ?_, by simp⟩
    obtain rfl := Except.ok.inj hl
    refine ⟨h.once, fun i => ⟨h.inside i, fun hi => ?_⟩, fun i hi => ?_, h.placed⟩
    · by_contra hnot
      obtain ⟨above, below, heq, -⟩ := h.opened i hi (hnone i) hnot
      simp at heq
    · exact h.loopless i hi.mem_vertices.1 (hnone i) (mem_dependents.2 hi)
  | case2 remaining finished i below hi hself =>
    rw [References.walk, dif_pos hi, if_pos hself]
    refine ⟨by simp, fun j hj => ?_⟩
    rw [← Except.error.inj hj]
    exact mem_dependents.1 (List.contains_iff_mem.1 hself)
  | case3 remaining finished i below hi hself ih =>
    rw [References.walk, dif_pos hi, if_neg hself]
    exact ih (h.visit hi (by simpa using hself))
  | case4 remaining finished i below hi ih =>
    rw [References.walk, dif_neg hi]
    exact ih (h.leave hi)

/-- The walk from all indices. -/
theorem walk_vertices (r : References) : (∀ l, r.walk r.vertices [] r.vertices = .ok l → Listed r l) ∧
    ∀ i, r.walk r.vertices [] r.vertices = .error i → r.Refers i i := by
  refine Walking.walk ⟨nodup_eraseDups _, fun i hi => hi, fun i hi => hi, fun i hi hnot => absurd hi hnot,
    fun i hi hnot => absurd hi hnot, by simp, .nil, ?_⟩
  intro before i after heq
  simp at heq

/-- Nothing is misplaced in a list exactly when what an index refers to is that index or stands before it. -/
theorem misplaced?_eq_none {placed rest : List Nat} : r.misplaced? placed rest = none ↔
    ∀ before i after, rest = before ++ i :: after → ∀ d ∈ r.dependencies i, d = i ∨ d ∈ placed ∨ d ∈ before := by
  induction rest generalizing placed with
  | nil => simp [misplaced?]
  | cons i rest ih =>
    have hhead : ((r.dependencies i).filter fun d => d != i && !placed.contains d).getLast? = none ↔
        ∀ d ∈ r.dependencies i, d = i ∨ d ∈ placed := by
      simp [or_iff_not_imp_left]
    rw [misplaced?]
    cases hlast : ((r.dependencies i).filter fun d => d != i && !placed.contains d).getLast? with
    | some d =>
      simp only [reduceCtorEq, false_iff]
      intro hall
      rw [hhead.2 fun d hd => (hall [] i rest rfl d hd).imp id fun h => h.resolve_right (by simp)] at hlast
      simp at hlast
    | none =>
      simp only
      rw [ih]
      constructor
      · intro hrest before j after heq d hd
        cases before with
        | nil =>
          obtain ⟨rfl, rfl⟩ := List.cons.inj heq
          exact (hhead.1 hlast d hd).imp id .inl
        | cons first before =>
          obtain ⟨rfl, rfl⟩ := List.cons.inj heq
          rcases hrest before j after rfl d hd with hd | hd | hd
          · exact .inl hd
          · exact (List.mem_cons.1 hd).elim (fun hd => .inr (.inr (by simp [hd]))) fun hd => .inr (.inl hd)
          · exact .inr (.inr (List.mem_cons_of_mem _ hd))
      · intro hall before j after heq d hd
        rcases hall (i :: before) j after (by rw [heq]; rfl) d hd with hd | hd | hd
        · exact .inl hd
        · exact .inr (.inl (List.mem_cons_of_mem _ hd))
        · exact (List.mem_cons.1 hd).elim (fun hd => .inr (.inl (by simp [hd]))) fun hd => .inr (.inr hd)

/-- What is misplaced is referred to by an index that it is not and that it does not stand before. -/
theorem misplaced?_eq_some {placed rest : List Nat} {d : Nat} (h : r.misplaced? placed rest = some d) :
    ∃ before i after, rest = before ++ i :: after ∧ d ∈ r.dependencies i ∧ d ≠ i ∧ d ∉ placed ∧ d ∉ before := by
  induction rest generalizing placed with
  | nil => simp [misplaced?] at h
  | cons i rest ih =>
    rw [misplaced?] at h
    cases hlast : ((r.dependencies i).filter fun d => d != i && !placed.contains d).getLast? with
    | some d' =>
      have hmem := List.mem_of_getLast? hlast
      rw [hlast] at h
      obtain rfl := Option.some.inj h
      simp only [List.mem_filter, Bool.and_eq_true, bne_iff_ne, ne_eq, Bool.not_eq_true', List.contains_eq_mem,
        decide_eq_false_iff_not] at hmem
      exact ⟨[], i, rest, rfl, hmem.1, hmem.2.1, hmem.2.2, by simp⟩
    | none =>
      rw [hlast] at h
      obtain ⟨before, j, after, rfl, hd, hne, hplaced, hbefore⟩ := ih h
      simp only [List.mem_cons, not_or] at hplaced
      exact ⟨i :: before, j, after, rfl, hd, hne, hplaced.2, by simp [hplaced.1, hbefore]⟩

/-- The index that is reported instead of an order refers to itself, directly or through others. -/
theorem transGen_of_order_eq_error {i : Nat} (h : r.order = .error i) : Relation.TransGen r.Refers i i := by
  rw [order] at h
  cases hwalk : r.walk r.vertices [] r.vertices with
  | error j =>
    rw [hwalk] at h
    obtain rfl := Except.error.inj h
    exact .single (r.walk_vertices.2 j hwalk)
  | ok found =>
    have hl := r.walk_vertices.1 found hwalk
    rw [hwalk] at h
    simp only at h
    cases hmis : r.misplaced? [] found with
    | none => simp [hmis] at h
    | some d =>
      rw [hmis] at h
      obtain rfl := Except.error.inj h
      obtain ⟨before, j, after, hfound, hd, hne, -, hbefore⟩ := misplaced?_eq_some hmis
      have hrefers := refers_of_mem_dependencies hd
      have hbehind : d ∈ after := by
        have := (hl.all d).2 hrefers.mem_vertices.2
        rw [hfound, List.mem_append, List.mem_cons] at this
        exact (this.resolve_left hbefore).resolve_left hne
      -- the dependent is not behind its dependency, so it was open when that was finished
      obtain ⟨u, v, rfl⟩ := List.append_of_mem hbehind
      rcases hl.placed (before ++ j :: u) d v (by rw [hfound]; simp) j (mem_dependents.2 hrefers) with hj | hj
      · have honce := hl.once
        rw [hfound, List.nodup_append, List.nodup_cons] at honce
        exact absurd (by simp [hj]) honce.2.1.1
      · exact hj.tail hrefers

/-- An order lists all indices, each once and behind what it refers to. -/
structure Orders (r : References) (l : List Nat) : Prop where
  once : l.Nodup
  all : ∀ i, i ∈ l ↔ i ∈ r.vertices
  earlier : ∀ i j, r.Refers i j → l.idxOf j < l.idxOf i

/-- An order that is found puts dependencies first. -/
theorem orders_of_order_eq_ok (hkeys : (r.map Prod.fst).Nodup) {l : List Nat} (h : r.order = .ok l) : r.Orders l := by
  rw [order] at h
  cases hwalk : r.walk r.vertices [] r.vertices with
  | error j => simp [hwalk] at h
  | ok found =>
    have hl := r.walk_vertices.1 found hwalk
    rw [hwalk] at h
    simp only at h
    cases hmis : r.misplaced? [] found with
    | some d => simp [hmis] at h
    | none =>
      rw [hmis] at h
      obtain rfl := Except.ok.inj h
      refine ⟨hl.once, hl.all, fun i j hij => ?_⟩
      obtain ⟨before, after, rfl, hfirst⟩ := List.eq_append_cons_of_mem ((hl.all i).2 hij.mem_vertices.1)
      have hj : j ∈ before := by
        rcases misplaced?_eq_none.1 hmis before i after rfl j ((mem_dependencies hkeys).2 hij) with rfl | hj | hj
        · exact absurd hij (hl.loopless j)
        · simp at hj
        · exact hj
      rw [List.idxOf_append_of_mem hj, List.idxOf_append_of_notMem hfirst]
      have := List.idxOf_lt_length_of_mem hj
      omega

/-- There is an order if nothing refers to itself. -/
theorem Acyclic.exists_order (h : r.Acyclic) : ∃ l, r.order = .ok l := by
  cases ho : r.order with
  | ok l => exact ⟨l, rfl⟩
  | error i => exact absurd (transGen_of_order_eq_error ho) (h i)

end

/-! ### The second pass as a search -/

/-- Takes the next index that was not met off the stack of a search against the references: that index, what is met then and the
stack with what the index refers to. -/
def advance? (r : References) (met : List Nat) : List Nat → Option (Nat × List Nat × List Nat)
  | [] => none
  | i :: below =>
    if met.contains i then advance? r met below
    else some (i, i :: met, ((r.dependencies i).filter fun d => !(i :: met).contains d).reverse ++ below)

/-- Searches from every index of a list, in order, and answers the second index that is met from the same one. -/
def collision? (r : References) (met : List Nat) : List Nat → Option Nat
  | [] => none
  | i :: rest =>
    match r.advance? met [i] with
    | none => r.collision? met rest
    | some (_, met, stack) =>
      match r.advance? met stack with
      | none => r.collision? met rest
      | some (j, _, _) => some j

/-- The search from an index meets a second one exactly when something that the index refers to is misplaced, and the first one it
meets is the last of these. -/
theorem collision?_eq_misplaced? (r : References) {met l : List Nat} (h : l.Nodup) (hmet : ∀ i ∈ l, i ∉ met) :
    r.collision? met l = r.misplaced? met l := by
  induction l generalizing met with
  | nil => rfl
  | cons i rest ih =>
    rw [List.nodup_cons] at h
    have hi : i ∉ met := hmet i (by simp)
    have hfirst : r.advance? met [i] =
        some (i, i :: met, ((r.dependencies i).filter fun d => !(i :: met).contains d).reverse) := by
      rw [advance?, if_neg (by simp [hi]), List.append_nil]
    have hfilter : ((r.dependencies i).filter fun d => !(i :: met).contains d) =
        (r.dependencies i).filter fun d => d != i && !met.contains d := by
      refine List.filter_congr fun d _ => ?_
      by_cases hd : d = i <;> simp [hd]
    rw [collision?, hfirst, misplaced?, ← hfilter]
    simp only
    rcases List.eq_nil_or_concat ((r.dependencies i).filter fun d => !(i :: met).contains d) with hnil | ⟨ds, d, hds⟩
    · rw [hnil]
      exact ih h.2 fun j hj => by
        simp only [List.mem_cons, not_or]
        exact ⟨fun heq => h.1 (heq ▸ hj), hmet j (List.mem_cons_of_mem _ hj)⟩
    · have hd : (i :: met).contains d = false := by
        have hmem : d ∈ (r.dependencies i).filter fun d => !(i :: met).contains d := by rw [hds]; simp
        simpa using (List.mem_filter.1 hmem).2
      rw [hds, List.concat_eq_append, List.reverse_append, List.reverse_singleton, List.singleton_append, advance?,
        if_neg (by rw [hd]; simp), List.getLast?_append]
      rfl

/-- The order by two depth-first passes: along dependents, and against them from each index in the order that the first pass ends with.
The second pass fails when it meets two indices from one. -/
def twoPasses (r : References) : Except Nat (List Nat) :=
  match r.walk r.vertices [] r.vertices with
  | .error i => .error i
  | .ok found =>
    match r.collision? [] found with
    | some i => .error i
    | none => .ok found

/-- The order is what the two passes find. -/
theorem order_eq_twoPasses (r : References) : r.order = r.twoPasses := by
  rw [order, twoPasses]
  cases hwalk : r.walk r.vertices [] r.vertices with
  | error i => rfl
  | ok found =>
    have heq := r.collision?_eq_misplaced? (r.walk_vertices.1 found hwalk).once (by simp : ∀ i ∈ found, i ∉ [])
    cases hmisplaced : r.misplaced? [] found with
    | none => simp only [hmisplaced, heq]
    | some i => simp only [hmisplaced, heq]

end FormulaDag.References
