import FormulaDag.Proofs.Contexts.Order

/-!
# Validation of contexts

Contexts that are given from outside are accepted exactly when they have the shape that taking a source text apart gives them: there is
a root, every token names an index with a context, and no index depends on itself. The last condition is decided by ordering the
dependencies, which succeeds exactly when there is no cycle.
-/

namespace FormulaDag.Contexts

/-- The context of an index refers to another index. -/
def Refers (c : Contexts) (i j : Nat) : Prop := ∃ t, c.get? i = some t ∧ j ∈ Token.references t

/-- No index refers to itself through any others. -/
def Acyclic (c : Contexts) : Prop := ∀ i, ¬ Relation.TransGen c.Refers i i

/-- Contexts with a root in which every token names an index with a context and no index refers to itself through any others. -/
structure WellShaped (c : Contexts) : Prop where
  nonempty : c.entries ≠ []
  rooted : Index.root ∈ c.indices
  named : ∀ i t, c.get? i = some t → ∀ number ∈ Token.numerals t, ∃ j ∈ c.indices, Index.read? number = some j
  acyclic : c.Acyclic

/-- A list of all indices that have a context or are referred to, each once and behind what it refers to. -/
structure DependenciesFirst (c : Contexts) (l : List Nat) : Prop where
  once : l.Nodup
  all : ∀ i, i ∈ l ↔ i ∈ c.indices ∨ ∃ j, c.Refers j i
  earlier : ∀ i j, c.Refers i j → l.idxOf j < l.idxOf i

section
variable {c : Contexts}

/-- No index of contexts is listed twice. -/
theorem nodup_indices (c : Contexts) : c.indices.Nodup := by
  rw [indices, List.Nodup, List.pairwise_map]
  exact c.ascending.imp fun h => Nat.ne_of_lt h

/-- An index has the text of its entry. -/
theorem get?_eq_some_iff {i : Nat} {t : Text} : c.get? i = some t ↔ (i, t) ∈ c.entries := by
  constructor
  · intro h
    obtain ⟨l₁, l₂, heq, -⟩ := List.lookup_eq_some_iff.1 h
    simp [heq]
  · intro h
    obtain ⟨l₁, l₂, heq⟩ := List.append_of_mem h
    have hnodup := c.nodup_indices
    rw [indices, heq, List.map_append, List.nodup_append] at hnodup
    refine List.lookup_eq_some_iff.2 ⟨l₁, l₂, heq, fun p hp => ?_⟩
    exact bne_iff_ne.2 fun hip => hnodup.2.2 p.1 (List.mem_map_of_mem hp) i (by simp) hip.symm

/-- The indices are those that have a text. -/
theorem mem_indices_iff {i : Nat} : i ∈ c.indices ↔ ∃ t, c.get? i = some t := by
  simp only [indices, List.mem_map, get?_eq_some_iff]
  constructor
  · rintro ⟨e, he, rfl⟩
    exact ⟨e.2, he⟩
  · rintro ⟨t, ht⟩
    exact ⟨_, ht, rfl⟩

/-- The references of contexts are those of their texts. -/
theorem references_refers {i j : Nat} : c.references.Refers i j ↔ c.Refers i j := by
  constructor
  · rintro ⟨e, he, rfl, hj⟩
    obtain ⟨⟨i, t⟩, hentry, rfl⟩ := List.mem_map.1 he
    exact ⟨t, get?_eq_some_iff.2 hentry, hj⟩
  · rintro ⟨t, ht, hj⟩
    exact ⟨(i, Token.references t), List.mem_map.2 ⟨(i, t), get?_eq_some_iff.1 ht, rfl⟩, rfl, hj⟩

theorem references_refers_eq (c : Contexts) : c.references.Refers = c.Refers := by
  funext i j
  exact propext references_refers

/-- The vertices of the references are the indices and what they refer to. -/
theorem mem_vertices_references {i : Nat} : i ∈ c.references.vertices ↔ i ∈ c.indices ∨ ∃ j, c.Refers j i := by
  rw [References.mem_vertices]
  constructor
  · rintro ⟨e, he, hi⟩
    rcases hi with rfl | hi
    · obtain ⟨entry, hentry, rfl⟩ := List.mem_map.1 he
      exact .inl (List.mem_map_of_mem hentry)
    · exact .inr ⟨e.1, references_refers.1 ⟨e, he, rfl, hi⟩⟩
  · rintro (hi | ⟨j, hj⟩)
    · obtain ⟨entry, hentry, rfl⟩ := List.mem_map.1 hi
      exact ⟨_, List.mem_map_of_mem hentry, .inl rfl⟩
    · obtain ⟨e, he, -, hi⟩ := references_refers.2 hj
      exact ⟨e, he, .inr hi⟩

/-- An order puts dependencies first. -/
theorem dependenciesFirst_of_order {l : List Nat} (h : c.order = .ok l) : c.DependenciesFirst l := by
  have hkeys : (c.references.map Prod.fst).Nodup := by
    rw [references, List.map_map]
    exact c.nodup_indices
  obtain ⟨honce, hall, hearlier⟩ := References.orders_of_order_eq_ok hkeys h
  exact ⟨honce, fun i => (hall i).trans mem_vertices_references, fun i j hij => hearlier i j (references_refers.2 hij)⟩

/-- Contexts with an order that puts dependencies first have no cycle. -/
theorem DependenciesFirst.acyclic {l : List Nat} (h : c.DependenciesFirst l) : c.Acyclic := by
  have hranked : c.references.Ranked l.idxOf := fun e he d hd => h.earlier e.1 d (references_refers.1 ⟨e, he, rfl, hd⟩)
  have := hranked.acyclic
  rwa [References.Acyclic, references_refers_eq] at this

/-- The index that is reported instead of an order refers to itself through others. -/
theorem transGen_of_order {i : Nat} (h : c.order = .error i) : Relation.TransGen c.Refers i i := by
  rw [← references_refers_eq]
  exact References.transGen_of_order_eq_error h

/-- Contexts have an order exactly when they have no cycle. -/
theorem exists_order_iff : (∃ l, c.order = .ok l) ↔ c.Acyclic := by
  constructor
  · rintro ⟨l, hl⟩
    exact (dependenciesFirst_of_order hl).acyclic
  · intro h
    rw [Acyclic, ← references_refers_eq] at h
    exact References.Acyclic.exists_order h

/-- Nothing dangles exactly when every token names an index with a context. -/
theorem dangling?_eq_none_iff {l : List (Nat × Text)} : c.dangling? l = none ↔
    ∀ e ∈ l, ∀ number ∈ Token.numerals e.2, ∃ j ∈ c.indices, Index.read? number = some j := by
  have hknown : ∀ number : Text, (!(Index.read? number).any c.indices.contains) = false ↔
      ∃ j ∈ c.indices, Index.read? number = some j := by
    intro number
    cases Index.read? number <;> simp
  induction l with
  | nil => simp [dangling?]
  | cons e rest ih =>
    obtain ⟨i, t⟩ := e
    rw [dangling?]
    cases hfind : (Token.numerals t).find? fun number => !(Index.read? number).any c.indices.contains with
    | some number =>
      simp only [reduceCtorEq, false_iff]
      intro hall
      have hbad := List.find?_some hfind
      rw [(hknown number).2 (hall (i, t) (by simp) number (List.mem_of_find?_eq_some hfind))] at hbad
      exact Bool.false_ne_true hbad
    | none =>
      have hnone : ∀ number ∈ Token.numerals t, ∃ j ∈ c.indices, Index.read? number = some j := fun number hnumber =>
        (hknown number).1 (by simpa using List.find?_eq_none.1 hfind number hnumber)
      simp only
      exact ⟨fun h => List.forall_mem_cons.2 ⟨hnone, ih.1 h⟩, fun h => ih.2 (List.forall_mem_cons.1 h).2⟩

/-- A dangling reference is no cycle. -/
theorem dangling?_ne_cycle {l : List (Nat × Text)} {i : Nat} : c.dangling? l ≠ some (.cycle i) := by
  induction l with
  | nil => simp [dangling?]
  | cons e rest ih =>
    obtain ⟨j, t⟩ := e
    rw [dangling?]
    split
    · simp
    · exact ih

/-- Validation accepts exactly the well-shaped contexts. -/
theorem validate_eq_ok : c.validate = .ok () ↔ c.WellShaped := by
  have hvalidate : c.validate = .ok () ↔ c.fault? = none := by
    rw [validate]
    cases c.fault? <;> simp
  have hnamed : c.dangling? c.entries = none ↔
      ∀ i t, c.get? i = some t → ∀ number ∈ Token.numerals t, ∃ j ∈ c.indices, Index.read? number = some j := by
    rw [dangling?_eq_none_iff]
    constructor
    · exact fun h i t ht => h (i, t) (get?_eq_some_iff.1 ht)
    · exact fun h e he => h e.1 e.2 (get?_eq_some_iff.2 he)
  rw [hvalidate, fault?]
  constructor
  · intro h
    split at h
    · simp at h
    · rename_i hentries
      split at h
      · simp at h
      · rename_i hroot
        split at h
        · simp at h
        · rename_i hdangling
          split at h
          · simp at h
          · rename_i l hl
            exact ⟨hentries, by simpa using hroot, hnamed.1 hdangling, exists_order_iff.1 ⟨l, hl⟩⟩
  · rintro ⟨hentries, hroot, hall, hacyclic⟩
    obtain ⟨l, hl⟩ := exists_order_iff.2 hacyclic
    rw [if_neg hentries, if_neg (by simpa using hroot), hnamed.2 hall, hl]

/-- The index of a reported cycle refers to itself through others. -/
theorem transGen_of_validate {i : Nat} (h : c.validate = .error (.cycle i)) : Relation.TransGen c.Refers i i := by
  have hfault : c.fault? = some (.cycle i) := by
    rw [validate] at h
    split at h
    · rename_i fault hfault
      rw [hfault, Except.error.inj h]
    · simp at h
  rw [fault?] at hfault
  split at hfault
  · simp at hfault
  · split at hfault
    · simp at hfault
    · split at hfault
      · rename_i fault hdangling
        exact absurd (hdangling.trans hfault) dangling?_ne_cycle
      · split at hfault
        · rename_i j hj
          simp only [Option.some.injEq, ContextsFault.cycle.injEq] at hfault
          exact transGen_of_order (hfault ▸ hj)
        · simp at hfault

end

/-- Validation accepts exactly the well-shaped contexts, and a cycle that it reports is one. Whether they are valid or not, contexts have
an order exactly when no index refers to itself through others, and then it lists all indices, dependencies first. The order is found by
two depth-first passes. -/
theorem validate_and_order (c : Contexts) :
    (c.validate = .ok () ↔ c.WellShaped) ∧
      (∀ i, c.validate = .error (.cycle i) → Relation.TransGen c.Refers i i) ∧
      ((∃ l, c.order = .ok l) ↔ c.Acyclic) ∧
      (∀ l, c.order = .ok l → c.DependenciesFirst l) ∧
      c.order = c.references.twoPasses :=
  ⟨validate_eq_ok, fun _ => transGen_of_validate, exists_order_iff, fun _ => dependenciesFirst_of_order,
    References.order_eq_twoPasses _⟩

example : (ofTexts ["@/2/@".toList, "x".toList, "@/0/@+@/1/@".toList]).validate = .error (.cycle 2) := by cbv

end FormulaDag.Contexts
