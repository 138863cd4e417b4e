import FormulaDag.Proofs.Evaluation.Renaming

/-!
# Nodes with one branch

Two references to one node take the same branch of it, while references to two nodes take their branches independently. This makes no
difference where nodes have one branch only. So a node of this kind may be given copies: along any dag whose nodes are copies of those
of another one, apart from the indices in them, recursion computes the same single branches.
-/

namespace FormulaDag

open Token (Renamed)

namespace Combination

/-- Lists of one element contribute this element to every combination. -/
theorem product_append_singles {α : Type} (lists : List (List α)) (elements : List α) :
    product (lists ++ elements.map fun x => [x]) = (product lists).map (· ++ elements) := by
  induction lists with
  | nil =>
    have hsingles : product (elements.map fun x => [x]) = [elements] := by
      induction elements with
      | nil => rfl
      | cons x elements ih => rw [List.map_cons, product, ih, List.flatMap_singleton, List.map_singleton]
    rw [List.nil_append, hsingles, product, List.map_singleton, List.nil_append]
  | cons list lists ih =>
    rw [List.cons_append, product, product, ih, List.map_flatMap]
    refine List.flatMap_congr fun x _ => ?_
    rw [List.map_map, List.map_map]
    rfl

end Combination

theorem lookup_zip_map {α : Type} {l : List Nat} (f : Nat → α) {i : Nat} (hi : i ∈ l) : (l.zip (l.map f)).lookup i = some (f i) := by
  induction l with
  | nil => cases hi
  | cons k l ih =>
    rw [List.map_cons, List.zip_cons_cons, List.lookup_cons]
    split
    · rename_i heq
      rw [beq_iff_eq.1 heq]
    · rename_i hne
      exact ih ((List.mem_cons.1 hi).resolve_left fun heq => by simp [heq] at hne)

section
variable {ρ : Nat → Nat → Prop}

namespace Leaf

/-- Leaves that differ in indices only have the same value, or both none, when related indices have the same single branch. -/
theorem combine_single {l l' : List Lexeme} (h : List.Forall₂ (RenamedLexeme ρ) l l') {value value' : Nat → Choice}
    (hvalue : ∀ i j, ρ i j → value i = value' j) {chosen : List Choice} (hchosen : chosen.length = (Lexeme.symbolChoices l).length)
    (i j : Nat) (context context' : Text) :
    Alike Eq (combine i context l (chosen ++ (Lexeme.indices l).map value))
      (combine j context' l' (chosen ++ (Lexeme.indices l').map value')) := by
  refine combine_alike h ?_ i j context context'
  rw [← hchosen, List.take_left, List.drop_left, List.take_left, List.drop_left]
  refine resolve_renamed (fun i j hij hi hj => ?_) h chosen
  rw [lookup_zip_map value (mem_indices.2 hi), lookup_zip_map value' (mem_indices.2 hj), hvalue i j hij]

end Leaf

namespace Evaluation

variable {e e' : Evaluation} {value value' : Nat → Float}

theorem sumValue_single (hvalue : ∀ i j, ρ i j → value i = value' j) {context context' : Text} (h : Renamed ρ context context')
    (i j : Nat) : Alike Eq (sumValue (fun k => [value k]) i context) (sumValue (fun k => [value' k]) j context') := by
  have hscan := Lexeme.scan_renamed h
  rw [sumValue_eq, sumValue_eq]
  generalize Lexeme.scan context = lexemes at hscan
  generalize Lexeme.scan context' = lexemes' at hscan
  cases hscan with
  | error => exact .error _ _
  | @ok lexemes lexemes' hlexemes =>
    have hproduct : ∀ (choices : List (List Choice)) (indices : List Nat) (value : Nat → Float),
        Combination.product (choices ++ indices.map fun k => [value k].map Choice.number) =
          (Combination.product choices).map (· ++ indices.map fun k => Choice.number (value k)) := by
      intro choices indices value
      have hsingles : (indices.map fun k => [value k].map Choice.number) =
          (indices.map fun k => Choice.number (value k)).map fun x => [x] := by
        rw [List.map_map]
        rfl
      rw [hsingles, Combination.product_append_singles]
    simp only [Leaf.axes, hproduct, ← Lexeme.symbolChoices_renamed hlexemes, List.mapM_map]
    exact .mapM_self fun chosen hchosen => Leaf.combine_single hlexemes (fun i j hij => congrArg Choice.number (hvalue i j hij))
      (Combination.length_of_mem_product hchosen) i j context context'

/-- Dags in which the nodes of the second are copies of those of the first, apart from the indices in them. -/
structure CopiedDag (ρ : Nat → Nat → Prop) (d d' : Dag) : Prop where
  unique : Relator.LeftUnique ρ
  nodes : ∀ i j, ρ i j → ∀ n, d.node? i = some n → ∃ n', d'.node? j = some n' ∧ RenamedKind ρ n.kind n'.kind ∧
    Renamed ρ n.context n'.context ∧ ∀ k' ∈ n'.dependencies, ∃ k ∈ n.dependencies, ρ k k'

/-- Where every node has one branch and no other result, its copies have the same branch. -/
theorem Computes.copied (hrules : e.rules = e'.rules) (hprecision : e.precision = e'.precision) (hdag : CopiedDag ρ e.dag e'.dag)
    {values : List Float} {nodes : Nat → Prop} {rank : Nat → Nat} (hrank : e.dag.Ranked nodes rank)
    (hsingle : ∀ i, nodes i → e.Computes values i (.ok [value i]) ∧ ∀ r, e.Computes values i r → r = .ok [value i]) {i : Nat}
    (hi : nodes i) {j : Nat} (hij : ρ i j) : e'.Computes values j (.ok [value i]) := by
  obtain ⟨value', hvalue⟩ := exists_along hdag.unique value
  induction hr : rank i using Nat.strong_induction_on generalizing i j with
  | _ r ih =>
    subst hr
    obtain ⟨hsize, hbelow⟩ := hrank i hi
    obtain ⟨n, hn⟩ : ∃ n, e.dag.node? i = some n := ⟨_, List.getElem?_eq_getElem hsize⟩
    have hn' : e.dag.dependencies i = n.dependencies := by simp [Dag.dependencies, hn]
    rw [hn'] at hbelow
    obtain ⟨n', hcopy, hkind, hcontext, hdependencies⟩ := hdag.nodes i j hij n hn
    have hown : e.nodeValue values (fun k => [value k]) i n = .ok [value i] :=
      (hsingle i hi).2 _ (.value hn fun k hk => (hsingle k (hbelow k hk).1).1)
    have hcopied : e'.Computes values j (e'.nodeValue values (fun k => [value' k]) j n') := by
      refine .value hcopy fun k' hk' => ?_
      obtain ⟨k, hk, hkk'⟩ := hdependencies k' hk'
      rw [← hvalue k k' hkk']
      exact ih (rank k) (hbelow k hk).2 (hbelow k hk).1 hkk' rfl
    have halike := nodeValue_alike hrules hprecision values (fun k k' hk => congrArg (fun x => [x]) (hvalue k k' hk)) hkind
      (sumValue_single hvalue hcontext i j)
    rw [hown] at halike
    exact halike.eq_ok_iff.1 rfl ▸ hcopied

end Evaluation

end

end FormulaDag
