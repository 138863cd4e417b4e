import FormulaDag.Argument
import FormulaDag.Proofs.Evaluation.Recursion

/-!
# Evaluation under another order of the variables

The order of the variables shows in a dag only in the positions of its variables, and in an assignment only in the places of the values.
When both are reordered in the same way, all nodes have the values that they had.
-/

namespace FormulaDag

/-- Kinds that are the same, except that a variable has its position among other letters. -/
inductive ReorderedKind (letters letters' : List Char) : NodeKind → NodeKind → Prop where
  | variable {c : Char} (hc : c ∈ letters) : ReorderedKind letters letters' (.variable (letters.idxOf c)) (.variable (letters'.idxOf c))
  | rule (o : Occurrence) : ReorderedKind letters letters' (.rule o) (.rule o)
  | sum : ReorderedKind letters letters' .sum .sum

/-- Nodes that are the same, except for the positions of variables. -/
structure ReorderedNode (letters letters' : List Char) (n n' : Node) : Prop where
  kind : ReorderedKind letters letters' n.kind n'.kind
  context : n.context = n'.context
  dependencies : n.dependencies = n'.dependencies

/-- Every variable has the same value in both assignments. -/
def Agree (letters letters' : List Char) (values values' : List Float) : Prop :=
  ∀ c ∈ letters, ∃ x, values[letters.idxOf c]? = some x ∧ values'[letters'.idxOf c]? = some x

section
variable {letters letters' : List Char}

namespace Dag

/-- A context has its node in either order of the variables, or in none. -/
theorem nodeOf_reordered (s : RuleSet) (hsame : ∀ c, c ∈ letters ↔ c ∈ letters') (t : Text) :
    Alike (ReorderedNode letters letters') (nodeOf s letters t) (nodeOf s letters' t) := by
  have hkind : Alike (ReorderedKind letters letters') (kindOf s letters t) (kindOf s letters' t) := by
    by_cases hletter : ∃ c ∈ letters, t = [c]
    · obtain ⟨c, hc, rfl⟩ := hletter
      have hposition : letterPosition? letters [c] = some (letters.idxOf c) := if_pos hc
      have hposition' : letterPosition? letters' [c] = some (letters'.idxOf c) := if_pos ((hsame c).1 hc)
      rw [kindOf, kindOf, hposition, hposition']
      exact .ok (.variable hc)
    · have hnone : ∀ {l : List Char}, (∀ c, c ∈ letters ↔ c ∈ l) → letterPosition? l t = none := by
        intro l hl
        unfold letterPosition?
        split
        · rename_i c
          exact if_neg fun hc => hletter ⟨c, (hl c).2 hc, rfl⟩
        · rfl
      rw [kindOf, kindOf, hnone fun _ => Iff.rfl, hnone hsame]
      cases s.resolve t with
      | error fault => exact .error _ _
      | ok found =>
        cases found with
        | some o => exact .ok (.rule o)
        | none => exact .ok .sum
  exact hkind.map fun _ _ hkind => ⟨hkind, rfl, rfl⟩

section
variable {s : RuleSet} {c : Contexts} {d d' : Dag}

/-- Contexts have a dag in either order of the variables, or in none. -/
theorem exists_build_reordered (hsame : ∀ c, c ∈ letters ↔ c ∈ letters') :
    (∃ d, build s letters c = .ok d) ↔ ∃ d, build s letters' c = .ok d := by
  rw [exists_build_iff, exists_build_iff]
  exact forall₃_congr fun _ t _ => (nodeOf_reordered s hsame t).exists_ok_iff

theorem node?_reordered (hsame : ∀ c, c ∈ letters ↔ c ∈ letters') (hdense : c.isDense = true) (hbuild : build s letters c = .ok d)
    (hbuild' : build s letters' c = .ok d') (i : Nat) : Option.Rel (ReorderedNode letters letters') (d.node? i) (d'.node? i) := by
  have hnode := node?_of_build hdense hbuild i
  have hnode' := node?_of_build hdense hbuild' i
  cases ht : c.get? i with
  | none =>
    rw [ht, Option.map_none, Option.map_eq_none_iff] at hnode hnode'
    rw [hnode, hnode']
    exact .none
  | some t =>
    rw [ht, Option.map_some, Option.map_eq_some_iff] at hnode hnode'
    obtain ⟨n, hn, hnode⟩ := hnode
    obtain ⟨n', hn', hnode'⟩ := hnode'
    have halike := nodeOf_reordered s hsame t
    rw [← hnode, ← hnode'] at halike
    rw [hn, hn']
    cases halike with
    | ok hreordered => exact .some hreordered

end

end Dag

namespace Evaluation

variable {e e' : Evaluation} {values values' : List Float}

/-- Reordered nodes have the same branches under assignments that agree. -/
theorem nodeValue_reordered (hrules : e.rules = e'.rules) (hprecision : e.precision = e'.precision)
    (hagree : Agree letters letters' values values') {n n' : Node} (h : ReorderedNode letters letters' n n') (found : Nat → Branches)
    (i : Nat) : e.nodeValue values found i n = e'.nodeValue values' found i n' := by
  have hkind := h.kind
  rw [nodeValue, nodeValue, hprecision, hrules, h.context]
  generalize n.kind = kind at hkind
  generalize n'.kind = kind' at hkind
  cases hkind with
  | «variable» hc =>
    obtain ⟨x, hx, hx'⟩ := hagree _ hc
    simp only [hx, hx']
  | rule o => rfl
  | sum => rfl

/-- What recursion computes in one order of the variables it computes in the other. -/
theorem Computes.reordered (hrules : e.rules = e'.rules) (hprecision : e.precision = e'.precision)
    (hagree : Agree letters letters' values values')
    (hdag : ∀ i, Option.Rel (ReorderedNode letters letters') (e.dag.node? i) (e'.dag.node? i)) {i : Nat}
    {r : Except EvaluationFault Branches} (h : e.Computes values i r) : e'.Computes values' i r := by
  have hnode : ∀ {i n}, e.dag.node? i = some n → ∃ n', e'.dag.node? i = some n' ∧ ReorderedNode letters letters' n n' := by
    intro i n hn
    rcases rel_cases (hdag i) with ⟨hnone, -⟩ | ⟨m, n', hm, hn', hreordered⟩
    · cases hn.symm.trans hnone
    · obtain rfl := Option.some.inj (hn.symm.trans hm)
      exact ⟨n', hn', hreordered⟩
  induction h with
  | @missing i hn =>
    rcases rel_cases (hdag i) with ⟨-, hn'⟩ | ⟨n, -, hsome, -, -⟩
    · exact .missing hn'
    · cases hn.symm.trans hsome
  | failing hn hsplit _ _ ihbefore ihj =>
    obtain ⟨n', hn', hreordered⟩ := hnode hn
    exact .failing hn' (hreordered.dependencies ▸ hsplit) ihbefore ihj
  | @value i n found hn _ ih =>
    obtain ⟨n', hn', hreordered⟩ := hnode hn
    rw [nodeValue_reordered hrules hprecision hagree hreordered]
    exact .value hn' (hreordered.dependencies ▸ ih)

/-- Evaluation answers the same in either order of the variables. -/
theorem evaluate_reordered {rules : RuleSet} {c : Contexts} {d d' : Dag} (hvalid : c.validate = .ok ()) (hdense : c.isDense = true)
    (hsame : ∀ c, c ∈ letters ↔ c ∈ letters') (hbuild : Dag.build rules letters c = .ok d)
    (hbuild' : Dag.build rules letters' c = .ok d') (hagree : Agree letters letters' values values') (precision target : Nat) :
    (evaluate ⟨d, rules, precision⟩ (.ofValues values) target (.empty d.size)).1 =
      (evaluate ⟨d', rules, precision⟩ (.ofValues values') target (.empty d'.size)).1 := by
  obtain ⟨hcomputes, -⟩ := computes_evaluate hvalid hdense hbuild precision values target
  obtain ⟨-, hunique⟩ := computes_evaluate hvalid hdense hbuild' precision values' target
  exact hunique _ (@Computes.reordered letters letters' ⟨d, rules, precision⟩ ⟨d', rules, precision⟩ values values' rfl rfl hagree
    (Dag.node?_reordered hsame hdense hbuild hbuild') _ _ hcomputes)

end Evaluation

namespace Argument

/-- A variable has the value of its argument. -/
theorem getElem?_of_bind {arguments : List (Text × Argument)} {values : List Float} (h : bind arguments letters = .ok values) {c : Char}
    (hc : c ∈ letters) : ∃ x, valueOf arguments c = .ok x ∧ values[letters.idxOf c]? = some x := by
  have hmap := congrArg (fun l : List (Except UserFault Float) => l[letters.idxOf c]?) (mapM_eq_ok_iff.1 h)
  simp only [List.getElem?_map, List.getElem?_idxOf hc, Option.map_some] at hmap
  obtain ⟨x, hx, hvalue⟩ := Option.map_eq_some_iff.1 hmap.symm
  exact ⟨x, hvalue.symm, hx⟩

/-- Arguments are bound in either order of the variables or in none, and to the same values. -/
theorem bind_reordered (hsame : ∀ c, c ∈ letters ↔ c ∈ letters') (arguments : List (Text × Argument)) :
    Alike (Agree letters letters') (bind arguments letters) (bind arguments letters') := by
  have hiff : (∃ values, bind arguments letters = .ok values) ↔ ∃ values, bind arguments letters' = .ok values := by
    rw [bind, bind, exists_mapM_iff, exists_mapM_iff]
    exact forall_congr' fun c => by rw [hsame]
  cases hbind : bind arguments letters with
  | error fault =>
    cases hbind' : bind arguments letters' with
    | error fault' => exact .error _ _
    | ok values' =>
      obtain ⟨values, hvalues⟩ := hiff.2 ⟨values', hbind'⟩
      cases hbind.symm.trans hvalues
  | ok values =>
    obtain ⟨values', hvalues'⟩ := hiff.1 ⟨values, hbind⟩
    rw [hvalues']
    refine .ok fun c hc => ?_
    obtain ⟨x, hx, hget⟩ := getElem?_of_bind hbind hc
    obtain ⟨x', hx', hget'⟩ := getElem?_of_bind hvalues' ((hsame c).1 hc)
    obtain rfl := Except.ok.inj (hx.symm.trans hx')
    exact ⟨x, hget, hget'⟩

end Argument

end

end FormulaDag
