import FormulaDag.Evaluation.Basic
import FormulaDag.Proofs.Evaluation.Locality
import FormulaDag.Proofs.Evaluation.Memo
import FormulaDag.Proofs.Evaluation.Reach
import FormulaDag.Proofs.Evaluation.Search

/-!
# What evaluation keeps

Evaluation computes what the search lists, one node after the other, so what one computed result preserves is preserved by an
evaluation, also by one that fails. In particular a memo stays complete: a result is kept together with those it was made from, and
for nodes that the target depends on only. And it stays true to its nodes: every result is what its node gives for those it was made from.
-/

namespace FormulaDag

namespace Evaluation

section
variable {e : Evaluation} {a : Valuation} {target : Nat} {l : List Nat} {m : Memo} {P : Memo → Prop} {Q : List Nat → Memo → Prop}

/-- What every computed result preserves, given the nodes that are still to be computed, holds when computing stops. -/
theorem computeAll_invariant
    (hstep : ∀ i l m n result, Q (i :: l) m → e.dag.node? i = some n →
      nodeBranches e.rules e.precision a.values i n (fun j => m.get? j a.key) = .ok result → Q l (m.insert i a.key result))
    (hm : Q l m) : ∃ rest, Q rest (e.computeAll a l m).2 := by
  induction l generalizing m with
  | nil => exact ⟨[], hm⟩
  | cons i l ih =>
    rw [computeAll]
    split
    · exact ⟨_, hm⟩
    · rename_i n hn
      split
      · exact ⟨_, hm⟩
      · rename_i result hresult
        exact ih (hstep i l m n result hm hn hresult)

/-- What holds of a memo and the list of nodes to compute, and is preserved by every computed result, holds after an evaluation. -/
theorem evaluate_invariant (hm : P m) (hstart : ∀ l, e.dag.demand (fun i => m.contains i a.key) target = .ok l → Q l m)
    (hstep : ∀ i l m n result, Q (i :: l) m → e.dag.node? i = some n →
      nodeBranches e.rules e.precision a.values i n (fun j => m.get? j a.key) = .ok result → Q l (m.insert i a.key result))
    (hend : ∀ l m, Q l m → P m) : P (e.evaluate a target m).2 := by
  rw [evaluate]
  split
  · exact hm
  · split
    · exact hm
    · rename_i demanded hd
      obtain ⟨rest, hrest⟩ := computeAll_invariant hstep (hstart demanded hd)
      have hcomputed := hend rest _ hrest
      split
      · rename_i heq
        rwa [heq] at hcomputed
      · rename_i heq
        rw [heq] at hcomputed
        split <;> exact hcomputed

end

/-- The result of a target is kept. -/
theorem get?_of_evaluate_eq_ok {e : Evaluation} {a : Valuation} {target : Nat} {m kept : Memo} {result : Branches}
    (h : e.evaluate a target m = (.ok result, kept)) : kept.get? target a.key = some result := by
  rw [evaluate] at h
  split at h
  · cases h
    assumption
  · split at h
    · cases h
    · split at h
      · cases h
      · split at h
        · cases h
          assumption
        · cases h

end Evaluation

namespace Memo

/-- Every result in a memo has a property. -/
def Holds (m : Memo) (P : Branches → Prop) : Prop := ∀ entry ∈ m.entries, P entry.2

section
variable {m : Memo} {P : Branches → Prop} (h : m.Holds P)
include h

theorem Holds.get? {i : Nat} {key : Key} {result : Branches} (hget : m.get? i key = some result) : P result := by
  obtain ⟨before, after, hentries, -⟩ := List.lookup_eq_some_iff.1 hget
  exact h ((i, key), result) (by rw [hentries]; exact List.mem_append_right _ List.mem_cons_self)

theorem Holds.insert (i : Nat) (key : Key) {result : Branches} (hresult : P result) : (m.insert i key result).Holds P := by
  rw [Memo.insert]
  split
  · exact List.forall_mem_cons.2 ⟨hresult, fun entry hentry => h entry (List.mem_filter.1 hentry).1⟩
  · exact h

end

end Memo

namespace Evaluation

/-- A property that a node passes on from the results it reads to its own holds of all results that are kept, and of the answers. -/
theorem holds_evaluate {e : Evaluation} {a : Valuation} {P : Branches → Prop}
    (hnode : ∀ i n lookup result, (∀ j found, lookup j = some found → P found) →
      nodeBranches e.rules e.precision a.values i n lookup = .ok result → P result)
    (target : Nat) {m : Memo} (hm : m.Holds P) :
    (e.evaluate a target m).2.Holds P ∧ ∀ result, (e.evaluate a target m).1 = .ok result → P result := by
  have hkept : (e.evaluate a target m).2.Holds P :=
    evaluate_invariant (Q := fun _ m => m.Holds P) hm (fun _ _ => hm)
      (fun _ _ _ _ _ hm _ hresult => hm.insert _ _ (hnode _ _ _ _ (fun _ _ hfound => hm.get? hfound) hresult)) fun _ _ hm => hm
  exact ⟨hkept, fun result h => hkept.get? (get?_of_evaluate_eq_ok (Prod.ext h rfl))⟩

end Evaluation

namespace Memo

/-- A memo that keeps a result together with those of the nodes that its node refers to, for nodes in the span of a target only, and
in one entry each. -/
structure Complete (m : Memo) (d : Dag) (target : Nat) : Prop where
  slots : m.slots = d.size
  once : (m.entries.map Prod.fst).Nodup
  closed : ∀ i key, m.contains i key = true → ∀ j ∈ d.dependencies i, m.contains j key = true
  inside : ∀ i key, m.contains i key = true → i < d.size
  reached : ∀ i key, m.contains i key = true → i ∈ d.span target

section
variable {m : Memo} {d : Dag} {target i : Nat} {key : Key} {result : Branches}

theorem contains_iff_mem : m.contains i key = true ↔ (i, key) ∈ m.entries.map Prod.fst := by
  rw [contains, Option.isSome_iff_exists]
  constructor
  · rintro ⟨result, h⟩
    obtain ⟨before, after, hentries, -⟩ := List.lookup_eq_some_iff.1 h
    exact List.mem_map.2 ⟨_, by rw [hentries]; exact List.mem_append_right _ List.mem_cons_self, rfl⟩
  · intro h
    obtain ⟨⟨k, result⟩, hmem, rfl⟩ := List.mem_map.1 h
    refine Option.isSome_iff_exists.1 (Option.isSome_iff_ne_none.2 fun hnone => ?_)
    exact absurd (List.lookup_eq_none_iff.1 hnone _ hmem) (by simp)

theorem complete_empty (d : Dag) (target : Nat) : (Memo.empty d.size).Complete d target where
  slots := rfl
  once := .nil
  closed := fun i key h => by cases h
  inside := fun i key h => by cases h
  reached := fun i key h => by cases h

/-- Keeping the result of a node in the span, once the nodes it refers to have results, leaves a memo complete. -/
theorem Complete.insert (h : m.Complete d target) (hi : i < d.size) (hspan : i ∈ d.span target)
    (hdeps : ∀ j ∈ d.dependencies i, m.contains j key = true) : (m.insert i key result).Complete d target := by
  have hslot : i < m.slots := h.slots ▸ hi
  refine ⟨?_, ?_, fun j k hk l hl => ?_, fun j k hk => ?_, fun j k hk => ?_⟩
  · exact (m.slots_insert _ _ _).trans h.slots
  · rw [Memo.insert, if_pos hslot]
    refine List.nodup_cons.2 ⟨fun hmem => ?_, h.once.sublist (List.filter_sublist.map _)⟩
    obtain ⟨entry, hentry, heq⟩ := List.mem_map.1 hmem
    exact absurd heq (by simpa using (List.mem_filter.1 hentry).2)
  · rw [contains_insert hslot] at hk ⊢
    rcases hk with ⟨rfl, rfl⟩ | hk
    · exact .inr (hdeps l hl)
    · exact .inr (h.closed j k hk l hl)
  · rw [contains_insert hslot] at hk
    rcases hk with ⟨rfl, rfl⟩ | hk
    · exact hi
    · exact h.inside j k hk
  · rw [contains_insert hslot] at hk
    rcases hk with ⟨rfl, rfl⟩ | hk
    · exact hspan
    · exact h.reached j k hk

/-- With a result of the target, a complete memo has those of its whole span. -/
theorem Complete.contains_of_mem_span (h : m.Complete d target) (htarget : m.contains target key = true) (hi : i ∈ d.span target) :
    m.contains i key = true :=
  Dag.mem_of_mem_span (P := fun i => m.contains i key = true) hi htarget fun i hi j hj => h.closed i key hi j hj

end

end Memo

namespace Memo

/-- A memo in which every result is what its node gives for the results that are kept for the node's dependencies, under one of the given
precisions and for finite values that have its key. -/
def Computed (m : Memo) (d : Dag) (s : RuleSet) (precisions : List Nat) : Prop :=
  ∀ i key result, m.get? i key = some result → ∃ n, ∃ precision ∈ precisions, ∃ values : List Float, d.node? i = some n ∧
    (∀ x ∈ values, x.isFinite = true) ∧ Key.ofValues values = key ∧
      Evaluation.nodeBranches s precision values i n (fun j => m.get? j key) = .ok result

section
variable {m : Memo} {d : Dag} {s : RuleSet} {precisions precisions' : List Nat} {target : Nat}

theorem computed_empty (slots : Nat) : (Memo.empty slots).Computed d s precisions := fun _ _ _ h => nomatch h

theorem Computed.mono (h : m.Computed d s precisions) (hsub : precisions ⊆ precisions') : m.Computed d s precisions' := by
  intro i key result hget
  obtain ⟨n, precision, hp, hrest⟩ := h i key result hget
  exact ⟨n, precision, hsub hp, hrest⟩

/-- A new result changes none of those that the other results were made from. -/
theorem Computed.insert (h : m.Computed d s precisions) (hm : m.Complete d target) (hlocal : ∀ n ∈ d.nodes, Evaluation.IsLocal s n)
    {i : Nat} {values : List Float} {n : Node} {precision : Nat} {result : Branches} (hnew : m.contains i (Key.ofValues values) = false)
    (hdeps : ∀ j ∈ d.dependencies i, m.contains j (Key.ofValues values) = true) (hn : d.node? i = some n) (hp : precision ∈ precisions)
    (hvalues : ∀ x ∈ values, x.isFinite = true)
    (hresult : Evaluation.nodeBranches s precision values i n (fun j => m.get? j (Key.ofValues values)) = .ok result) :
    (m.insert i (Key.ofValues values) result).Computed d s precisions := by
  have hslot : i < m.slots := hm.slots ▸ (List.getElem?_eq_some_iff.1 hn).1
  have hkept : ∀ j key, m.contains j key = true → (m.insert i (Key.ofValues values) result).get? j key = m.get? j key := by
    intro j key hj
    rw [get?_insert hslot, if_neg]
    rintro ⟨rfl, rfl⟩
    rw [hnew] at hj
    cases hj
  have hnode : ∀ {j n}, d.node? j = some n → n.dependencies = d.dependencies j := by
    intro j n hn
    rw [Dag.dependencies, hn, Option.map_some, Option.getD_some]
  intro j key found hget
  rw [get?_insert hslot] at hget
  split at hget
  · rename_i heq
    obtain ⟨rfl, rfl⟩ := heq
    obtain rfl := Option.some.inj hget
    refine ⟨n, precision, hp, values, hn, hvalues, rfl, ?_⟩
    rw [← hresult]
    exact hlocal n (List.mem_of_getElem? hn) _ _ _ _ _ fun k hk => hkept k _ (hdeps k (hnode hn ▸ hk))
  · obtain ⟨n', precision', hp', values', hn', hvalues', rfl, hfound⟩ := h j key found hget
    refine ⟨n', precision', hp', values', hn', hvalues', rfl, ?_⟩
    rw [← hfound]
    refine hlocal n' (List.mem_of_getElem? hn') _ _ _ _ _ fun k hk => hkept k _ ?_
    exact hm.closed j _ (contains_iff.2 ⟨_, hget⟩) k (hnode hn' ▸ hk)

end

end Memo

namespace Dag

/-- What a target wants has no result. -/
theorem Wants.unknown {d : Dag} {known : Nat → Bool} {target i : Nat} (h : d.Wants known target i) : known i = false := by
  obtain ⟨htarget, hpath⟩ := h
  cases hpath with
  | refl => exact htarget
  | tail _ hstep => exact hstep.2.2

/-- What a target wants is in its span. -/
theorem Wants.mem_span {d : Dag} {known : Nat → Bool} {target i : Nat} (h : d.Wants known target i) : i ∈ d.span target := by
  obtain ⟨-, hpath⟩ := h
  induction hpath with
  | refl => exact self_mem_span
  | tail _ hstep ih => exact closed_span ih hstep.2.1

end Dag

namespace Evaluation

/-- Evaluating a target leaves a memo complete, also when it fails. -/
theorem complete_evaluate {e : Evaluation} (a : Valuation) {target : Nat} {m : Memo} (hm : m.Complete e.dag target) :
    (e.evaluate a target m).2.Complete e.dag target := by
  refine evaluate_invariant (Q := fun l m => m.Complete e.dag target ∧ (∀ i ∈ l, i ∈ e.dag.span target) ∧
    e.dag.Ordered (fun i => m.contains i a.key) l) hm ?_ ?_ fun _ _ h => h.1
  · intro l hl
    obtain ⟨_, hd, -, hmem, hordered, -⟩ | ⟨_, hd, -⟩ := e.dag.demand_cases (fun i => m.contains i a.key) target
    · obtain rfl := Except.ok.inj (hl.symm.trans hd)
      exact ⟨hm, fun i hi => ((hmem i).1 hi).mem_span, hordered⟩
    · rw [hd] at hl
      cases hl
  · rintro i l m n result ⟨hm, hspan, hordered⟩ - -
    obtain ⟨hi, hdeps⟩ := hordered.head
    have hslot : i < m.slots := hm.slots ▸ hi
    exact ⟨hm.insert hi (hspan i List.mem_cons_self) hdeps, fun j hj => hspan j (List.mem_cons_of_mem _ hj),
      hordered.tail ((Memo.contains_insert hslot i _).2 (.inl ⟨rfl, rfl⟩)) fun j hj => (Memo.contains_insert hslot j _).2 (.inr hj)⟩

/-- An evaluation keeps what its nodes give and nothing else, also when it fails. -/
theorem computed_evaluate {e : Evaluation} {values : List Float} {precisions : List Nat} {target : Nat} {m : Memo}
    (hc : m.Computed e.dag e.rules precisions) (hm : m.Complete e.dag target) (hlocal : ∀ n ∈ e.dag.nodes, IsLocal e.rules n)
    (hp : e.precision ∈ precisions) (hvalues : ∀ x ∈ values, x.isFinite = true) :
    (e.evaluate (.ofValues values) target m).2.Computed e.dag e.rules precisions := by
  refine evaluate_invariant (a := .ofValues values) (Q := fun l m => m.Computed e.dag e.rules precisions ∧ m.Complete e.dag target ∧
    (∀ i ∈ l, i ∈ e.dag.span target ∧ m.contains i (Key.ofValues values) = false) ∧ l.Nodup ∧
      e.dag.Ordered (fun i => m.contains i (Key.ofValues values)) l) hc ?_ ?_ fun _ _ h => h.1
  · intro l hl
    obtain ⟨_, hd, honce, hmem, hordered, -⟩ | ⟨_, hd, -⟩ := e.dag.demand_cases (fun i => m.contains i (Key.ofValues values)) target
    · obtain rfl := Except.ok.inj (hl.symm.trans hd)
      exact ⟨hc, hm, fun i hi => ⟨((hmem i).1 hi).mem_span, ((hmem i).1 hi).unknown⟩, honce, hordered⟩
    · cases hl.symm.trans hd
  · rintro i l m n result ⟨hc, hm, hwanted, honce, hordered⟩ hn hresult
    obtain ⟨hi, hdeps⟩ := hordered.head
    obtain ⟨hspan, hnew⟩ := hwanted i List.mem_cons_self
    obtain ⟨hfresh, honce⟩ := List.nodup_cons.1 honce
    have hcontains : ∀ j, (m.insert i (Key.ofValues values) result).contains j (Key.ofValues values) = true ↔
        j = i ∧ Key.ofValues values = Key.ofValues values ∨ m.contains j (Key.ofValues values) = true :=
      fun j => Memo.contains_insert (hm.slots ▸ hi) j _
    refine ⟨hc.insert hm hlocal hnew hdeps hn hp hvalues hresult, hm.insert hi hspan hdeps, fun j hj => ?_, honce,
      hordered.tail ((hcontains i).2 (.inl ⟨rfl, rfl⟩)) fun j hj => (hcontains j).2 (.inr hj)⟩
    obtain ⟨hspan, hnew⟩ := hwanted j (List.mem_cons_of_mem _ hj)
    refine ⟨hspan, Bool.eq_false_iff.2 fun hkept => ?_⟩
    rcases (hcontains j).1 hkept with ⟨rfl, -⟩ | hold
    · exact hfresh hj
    · rw [hnew] at hold
      cases hold

end Evaluation

end FormulaDag
