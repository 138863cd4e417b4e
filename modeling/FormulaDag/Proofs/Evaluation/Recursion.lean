import FormulaDag.Proofs.Combination
import FormulaDag.Proofs.Contexts.Numbering
import FormulaDag.Proofs.Contexts.Validation
import FormulaDag.Proofs.Evaluation.Memo
import FormulaDag.Proofs.Leaf.Product

/-!
# What evaluation computes

A node has the value that plain recursion gives it: first the nodes that its context refers to, in order of first appearance, and then
its own branches, a rule or a sum being applied to every element of a Cartesian product. `Computes` says so without a memo, an order of
nodes or an odometer. On the dag of valid contexts evaluation with an empty memo agrees with it, failures included.
-/

namespace FormulaDag

namespace Evaluation

/-- The branches of the operands that refer to nodes, one list for each such operand. -/
def axes (found : Nat → Branches) : List (Option Operand) → List Branches
  | some (.index j) :: operands => found j :: axes found operands
  | _ :: operands => axes found operands
  | [] => []

/-- The operand values in one combination: references take its elements in order, numbers stay as they are. -/
def fill : List (Option Operand) → List Float → List (Option Float)
  | some (.index _) :: operands, x :: combination => some x :: fill operands combination
  | some (.literal value) :: operands, combination => some value :: fill operands combination
  | _ :: operands, combination => none :: fill operands combination
  | [], _ => []

/-- The first slot of a rule whose operand is neither a number nor a reference. -/
def unreduced? : List Slot → List (Option Operand) → Option Slot
  | slot :: _, some (.raw _) :: _ => some slot
  | _ :: slots, _ :: operands => unreduced? slots operands
  | _, _ => none

/-- The branches of a rule node: the function of its rule on every element of the Cartesian product of its references. A value that is
not finite is a fault that lists the operands. -/
def ruleValue (s : RuleSet) (found : Nat → Branches) (i : Nat) (o : Occurrence) : Except EvaluationFault Branches :=
  match s.get? o.rule with
  | none => .error (.unknownFunction ("rule " ++ Nat.repr o.rule))
  | some r =>
    match unreduced? r.slots o.operands with
    | some slot => .error (.unreducedOperand slot.name r.name i)
    | none =>
      (Combination.product (axes found o.operands)).mapM fun combination =>
        match r.apply ⟨o.selector, fill o.operands combination⟩ with
        | .error fault => .error fault
        | .ok x => if x.isFinite then .ok x else .error (.notFinite r.name ((fill o.operands combination).filterMap id))

/-- The branches of a sum: the value of its terms on every element of the Cartesian product of the meanings of its symbols and the
branches of its indices. -/
def sumValue (found : Nat → Branches) (i : Nat) (context : Text) : Except EvaluationFault Branches :=
  match Lexeme.scan context with
  | .error fault => .error (.node i context (.lexical fault))
  | .ok lexemes =>
    (Combination.product (Leaf.axes found lexemes)).mapM fun combination => Leaf.worth i context (Leaf.terms lexemes combination)

/-- The branches of a node, given those of other nodes. -/
def nodeValue (e : Evaluation) (values : List Float) (found : Nat → Branches) (i : Nat) (n : Node) : Except EvaluationFault Branches :=
  Except.map (Branches.normalForm e.precision) <|
    match n.kind with
    | .variable position =>
      match values[position]? with
      | some x => .ok [x]
      | none => .error (.node i n.context (.noVariable position))
    | .rule o => ruleValue e.rules found i o
    | .sum => sumValue found i n.context

/-- What plain recursion gives for a node: the fault of its first dependency that fails, or else its own branches. -/
inductive Computes (e : Evaluation) (values : List Float) : Nat → Except EvaluationFault Branches → Prop where
  | missing {i : Nat} (hn : e.dag.node? i = none) : Computes e values i (.error (.node i [] .noSuchIndex))
  | failing {i j : Nat} {n : Node} {before after : List Nat} {found : Nat → Branches} {fault : EvaluationFault}
      (hn : e.dag.node? i = some n) (hsplit : n.dependencies = before ++ j :: after)
      (hbefore : ∀ k ∈ before, Computes e values k (.ok (found k))) (hj : Computes e values j (.error fault)) :
      Computes e values i (.error fault)
  | value {i : Nat} {n : Node} {found : Nat → Branches} (hn : e.dag.node? i = some n)
      (hdeps : ∀ k ∈ n.dependencies, Computes e values k (.ok (found k))) :
      Computes e values i (e.nodeValue values found i n)

/-- On each combination a rule node is computed by applying its rule. -/
theorem ruleValue_eq (s : RuleSet) (found : Nat → Branches) (i : Nat) (o : Occurrence) :
    ruleValue s found i o =
      match s.get? o.rule with
      | none => .error (.unknownFunction ("rule " ++ Nat.repr o.rule))
      | some r =>
        match unreduced? r.slots o.operands with
        | some slot => .error (.unreducedOperand slot.name r.name i)
        | none => (Combination.product (axes found o.operands)).mapM fun combination => applyRule r o.selector (fill o.operands combination) :=
  rfl

/-- On each combination a sum is computed by resolving its lexemes. -/
theorem sumValue_eq (found : Nat → Branches) (i : Nat) (context : Text) :
    sumValue found i context =
      match Lexeme.scan context with
      | .error fault => .error (.node i context (.lexical fault))
      | .ok lexemes => (Combination.product (Leaf.axes found lexemes)).mapM (Leaf.combine i context lexemes) := by
  rw [sumValue]
  cases Lexeme.scan context with
  | error fault => rfl
  | ok lexemes =>
    exact mapM_congr fun combination hmem => (Leaf.combine_eq_worth (Combination.length_of_mem_product hmem)).symm

/-- The choices of an operand that is no text. -/
def choicesOf (found : Nat → Branches) : Option Operand → List (Option Float)
  | some (.index j) => (found j).map some
  | some (.literal value) => [some value]
  | _ => [none]

/-- Numbers and absent operands add no choice: the product over all slots is that over the references, filled up. -/
theorem product_choicesOf (found : Nat → Branches) (operands : List (Option Operand)) :
    Combination.product (operands.map (choicesOf found)) = (Combination.product (axes found operands)).map (fill operands) := by
  induction operands with
  | nil => rfl
  | cons operand operands ih =>
    rcases operand with _ | value | j | text
    · simp [choicesOf, Combination.product, axes, fill, ih]
    · simp [choicesOf, Combination.product, axes, fill, ih]
    · rw [List.map_cons, choicesOf, Combination.product, ih, axes, Combination.product, List.flatMap_map, List.map_flatMap]
      refine List.flatMap_congr fun x _ => ?_
      rw [List.map_map, List.map_map]
      rfl
    · simp [choicesOf, Combination.product, axes, fill, ih]

/-- With the branches of all references known, the choices of operands fail at the first slot that holds a text. -/
theorem mapM_operandChoices (found : Nat → Branches) (i : Nat) (rule : String) {slots : List Slot} {operands : List (Option Operand)}
    (h : slots.length = operands.length) :
    ((slots.zip operands).mapM fun (slot, operand) => operandChoices i rule (fun j => some (found j)) slot operand) =
      match unreduced? slots operands with
      | some slot => .error (.unreducedOperand slot.name rule i)
      | none => .ok (operands.map (choicesOf found)) := by
  induction slots generalizing operands with
  | nil =>
    rw [List.eq_nil_of_length_eq_zero h.symm]
    rfl
  | cons slot slots ih =>
    obtain _ | ⟨operand, operands⟩ := operands
    · simp at h
    have hrest := ih (Nat.succ_injective h)
    rw [List.zip_cons_cons, List.mapM_cons, hrest]
    rcases operand with _ | value | j | text
    · simp only [operandChoices, unreduced?]
      cases unreduced? slots operands <;> rfl
    · simp only [operandChoices, unreduced?]
      cases unreduced? slots operands <;> rfl
    · simp only [operandChoices, unreduced?]
      cases unreduced? slots operands <;> rfl
    · rfl

/-- A node with an operand for every slot of its rule, if it has one. -/
def Filled (s : RuleSet) (n : Node) : Prop :=
  ∀ o, n.kind = .rule o → ∃ r, s.get? o.rule = some r ∧ r.slots.length = o.operands.length

/-- A node is computed from the branches of other nodes as its value says. -/
theorem nodeBranches_eq_nodeValue {e : Evaluation} {n : Node} (h : Filled e.rules n) (values : List Float) (found : Nat → Branches)
    (i : Nat) : nodeBranches e.rules e.precision values i n (fun j => some (found j)) = e.nodeValue values found i n := by
  rw [nodeBranches, nodeValue, rawBranches]
  congr 1
  cases hk : n.kind with
  | «variable» position => rfl
  | rule o =>
    obtain ⟨r, hr, hlength⟩ := h o hk
    simp only [ruleBranches, ruleValue, hr, mapM_operandChoices found i r.name hlength]
    cases unreduced? r.slots o.operands with
    | some slot => rfl
    | none =>
      simp only
      rw [Combination.mapChoices_eq_mapM, product_choicesOf, List.mapM_map]
      rfl
  | sum =>
    simp only [Leaf.branches, sumValue_eq, Leaf.gather_eq_map fun _ _ => rfl, Combination.mapChoices_eq_mapM, List.map_map]
    rfl

section
variable {e : Evaluation} {values : List Float} {nodes : Nat → Prop} {rank : Nat → Nat}
  {results : Nat → Except EvaluationFault Branches}

/-- With all dependencies computed, a node has its own value. -/
theorem Follows.eq_nodeValue (hfilled : ∀ n ∈ e.dag.nodes, Filled e.rules n) (hlocal : ∀ n ∈ e.dag.nodes, IsLocal e.rules n)
    (h : e.Follows values nodes results) {i : Nat} (hi : nodes i) {n : Node} (hn : e.dag.node? i = some n) {found : Nat → Branches}
    (hdeps : ∀ k ∈ n.dependencies, results k = .ok (found k)) : results i = e.nodeValue values found i n := by
  have hmem := List.mem_of_getElem? hn
  obtain ⟨all, hall⟩ := (mapM_of_firstFault? results n.dependencies).2
    (firstFault?_eq_none.2 fun k hk => ⟨found k, hdeps k hk⟩)
  rw [h i hi, step, hn, ← nodeBranches_eq_nodeValue (hfilled n hmem)]
  simp only [hall]
  exact hlocal n hmem _ _ _ _ _ fun k hk => by rw [hdeps k hk]; rfl

/-- Results that follow from one another are what recursion computes. -/
theorem Follows.computes (hfilled : ∀ n ∈ e.dag.nodes, Filled e.rules n) (hlocal : ∀ n ∈ e.dag.nodes, IsLocal e.rules n)
    (hrank : e.dag.Ranked nodes rank) (h : e.Follows values nodes results) {i : Nat} (hi : nodes i) :
    e.Computes values i (results i) := by
  induction hr : rank i using Nat.strong_induction_on generalizing i with
  | _ r ih =>
    subst hr
    obtain ⟨hsize, hbelow⟩ := hrank i hi
    obtain ⟨n, hn⟩ : ∃ n, e.dag.node? i = some n := ⟨_, List.getElem?_eq_getElem hsize⟩
    have hn' : e.dag.dependencies i = n.dependencies := by simp [Dag.dependencies, hn]
    rw [hn'] at hbelow
    have hcomputes : ∀ k ∈ n.dependencies, e.Computes values k (results k) := fun k hk =>
      ih (rank k) (hbelow k hk).2 (hbelow k hk).1 rfl
    have hok : ∀ k, (∃ b, results k = .ok b) → results k = .ok ((results k).toOption.getD []) := by
      rintro k ⟨b, hb⟩
      rw [hb]
      rfl
    cases hfault : firstFault? results n.dependencies with
    | none =>
      have hdeps := fun k hk => hok k (firstFault?_eq_none.1 hfault k hk)
      rw [h.eq_nodeValue hfilled hlocal hi hn hdeps]
      exact .value hn fun k hk => hdeps k hk ▸ hcomputes k hk
    | some fault =>
      rw [h.eq_error hi (hn'.symm ▸ hfault)]
      obtain ⟨before, j, after, hsplit, hj, hbefore⟩ := List.findSome?_eq_some_iff.1 hfault
      have hjfault : results j = .error fault := by
        cases hres : results j <;> simp_all
      have hbefore' : ∀ k ∈ before, ∃ b, results k = .ok b := fun k hk => firstFault?_eq_none.1
        (List.findSome?_eq_none_iff.2 hbefore) k hk
      refine .failing hn hsplit (fun k hk => hok k (hbefore' k hk) ▸ hcomputes k (by simp [hsplit, hk])) ?_
      exact hjfault ▸ hcomputes j (by simp [hsplit])

/-- Recursion computes nothing else. -/
theorem Follows.eq_of_computes (hfilled : ∀ n ∈ e.dag.nodes, Filled e.rules n) (hlocal : ∀ n ∈ e.dag.nodes, IsLocal e.rules n)
    (hrank : e.dag.Ranked nodes rank) (h : e.Follows values nodes results) {i : Nat} (hi : nodes i)
    {r : Except EvaluationFault Branches} (hr : e.Computes values i r) : r = results i := by
  induction hr with
  | @missing i hn =>
    have hsize := (hrank i hi).1
    rw [Dag.node?, List.getElem?_eq_none_iff] at hn
    exact absurd hsize (Nat.not_lt.2 hn)
  | @failing i j n before after found fault hn hsplit hbefore hj ihbefore ihj =>
    have hn' : e.dag.dependencies i = n.dependencies := by simp [Dag.dependencies, hn]
    have hnodes : ∀ k ∈ n.dependencies, nodes k := fun k hk => ((hrank i hi).2 k (hn' ▸ hk)).1
    have hfirst : firstFault? results before = none := firstFault?_eq_none.2 fun k hk =>
      ⟨found k, (ihbefore k hk (hnodes k (by simp [hsplit, hk]))).symm⟩
    refine (h.eq_error hi ?_).symm
    rw [hn', hsplit, firstFault?_append, hfirst, Option.none_or,
      firstFault?_cons_error (ihj (hnodes j (by simp [hsplit]))).symm]
  | @value i n found hn hdeps ih =>
    have hn' : e.dag.dependencies i = n.dependencies := by simp [Dag.dependencies, hn]
    exact (h.eq_nodeValue hfilled hlocal hi hn fun k hk => (ih k hk ((hrank i hi).2 k (hn' ▸ hk)).1).symm).symm

end

end Evaluation

namespace RuleSet

/-- The occurrence of a rule has an operand for every slot. -/
theorem exists_slots_of_resolve {s : RuleSet} {t : Text} {o : Occurrence} (h : s.resolve t = .ok (some o)) :
    ∃ r, s.get? o.rule = some r ∧ r.slots.length = o.operands.length := by
  obtain ⟨id, r, hmem, hfind⟩ := resolveWith_eq_some h
  obtain ⟨hit, -, -, -, ho⟩ := Rule.findWhole_eq_some (s.isAligned r (mem_of_numbered hmem)) hfind
  obtain ⟨hid, -, -, -, hoperands⟩ := Rule.occurrence_eq_ok ho
  refine ⟨r, hid ▸ mem_numbered.1 hmem, ?_⟩
  have hlength := congrArg List.length (mapM_eq_ok_iff.1 hoperands)
  simpa using hlength

end RuleSet

namespace Dag

section
variable {s : RuleSet} {letters : List Char} {c : Contexts} {d : Dag}

theorem filled_of_build (h : build s letters c = .ok d) : ∀ n ∈ d.nodes, Evaluation.Filled s n := by
  obtain ⟨nodes, hnodes, rfl⟩ := map_eq_ok.1 h
  intro n hn o ho
  obtain ⟨t, -, ht⟩ := exists_of_mem_mapM hnodes hn
  exact RuleSet.exists_slots_of_resolve (resolve_of_nodeOf ht ho)

theorem exists_build_iff : (∃ d, build s letters c = .ok d) ↔ ∀ i t, c.get? i = some t → ∃ n, nodeOf s letters t = .ok n := by
  have hnodes : (∃ d, build s letters c = .ok d) ↔ ∃ nodes, c.texts.mapM (nodeOf s letters) = .ok nodes := by
    simp only [build, map_eq_ok]
    exact ⟨fun ⟨_, nodes, h, _⟩ => ⟨nodes, h⟩, fun ⟨nodes, h⟩ => ⟨_, nodes, h, rfl⟩⟩
  rw [hnodes, exists_mapM_iff, Contexts.texts, List.forall_mem_map]
  exact ⟨fun h i t ht => h _ (Contexts.get?_eq_some_iff.1 ht), fun h e he => h e.1 e.2 (Contexts.get?_eq_some_iff.2 he)⟩

/-- In a dag of dense contexts, a node is that of the context with the same number. -/
theorem node?_of_build (hdense : c.isDense = true) (h : build s letters c = .ok d) (i : Nat) :
    (d.node? i).map .ok = (c.get? i).map (nodeOf s letters) := by
  obtain ⟨nodes, hnodes, rfl⟩ := map_eq_ok.1 h
  have hmap := congrArg (fun l : List (Except OperandFault Node) => l[i]?) (mapM_eq_ok_iff.1 hnodes)
  simp only [List.getElem?_map] at hmap
  rw [← Contexts.ofTexts_texts hdense, Contexts.get?_ofTexts, hmap]
  rfl

/-- In a dag of dense contexts, a node depends on the indices that its own context refers to. -/
theorem refers_of_mem_dependencies (hdense : c.isDense = true) (h : build s letters c = .ok d) {i j : Nat}
    (hj : j ∈ d.dependencies i) : c.Refers i j := by
  have hnode := node?_of_build hdense h i
  rw [dependencies] at hj
  cases hn : d.node? i with
  | none => simp [hn] at hj
  | some n =>
    rw [hn, Option.map_some] at hnode
    obtain ⟨t, ht, hnode⟩ := Option.map_eq_some_iff.1 hnode.symm
    obtain ⟨-, hdeps, -⟩ := nodeOf_eq_ok hnode
    simp only [hn, Option.map_some, Option.getD_some] at hj
    exact ⟨t, ht, hdeps ▸ hj⟩

theorem size_of_build (h : build s letters c = .ok d) : d.size = c.size := by
  obtain ⟨nodes, hnodes, rfl⟩ := map_eq_ok.1 h
  have hlength := congrArg List.length (mapM_eq_ok_iff.1 hnodes)
  simpa [Contexts.texts, Contexts.size, size] using hlength.symm

/-- In the dag of valid contexts every node is ranked above those it depends on. -/
theorem exists_ranked_of_validate (hvalid : c.validate = .ok ()) (hdense : c.isDense = true) (h : build s letters c = .ok d) :
    ∃ rank, d.Ranked (· < d.size) rank := by
  obtain ⟨-, -, hnamed, hacyclic⟩ := Contexts.validate_eq_ok.1 hvalid
  obtain ⟨l, hl⟩ := Contexts.exists_order_iff.2 hacyclic
  have hindices : c.indices = List.range d.size := by
    rw [size_of_build h]
    simpa [Contexts.isDense] using hdense
  refine ⟨l.idxOf, fun i hi => ⟨hi, fun j hj => ?_⟩⟩
  have hrefers := refers_of_mem_dependencies hdense h hj
  refine ⟨?_, (Contexts.dependenciesFirst_of_order hl).earlier i j hrefers⟩
  obtain ⟨t, ht, hjt⟩ := hrefers
  rw [Token.references, List.mem_eraseDups, List.mem_filterMap] at hjt
  obtain ⟨number, hnumber, hread⟩ := hjt
  obtain ⟨k, hk, hread'⟩ := hnamed i t ht number hnumber
  rw [hread] at hread'
  rw [← Option.some.inj hread', hindices] at hk
  exact List.mem_range.1 hk

end

end Dag

namespace Evaluation

theorem evaluate_of_size_le (e : Evaluation) (a : Valuation) {target : Nat} (h : e.dag.size ≤ target) :
    (e.evaluate a target (.empty e.dag.size)).1 = .error (.node target [] .noSuchIndex) := by
  have hdemand : e.dag.demand (fun i => (Memo.empty e.dag.size).contains i a.key) target = .error (.node target [] .noSuchIndex) := by
    rw [Dag.demand, Dag.demandFrom]
    simp [Memo.contains, Memo.get?, Memo.empty, Nat.not_lt.2 h]
  rw [evaluate]
  simp only [hdemand]
  rfl

/-- What evaluation answers is what recursion computes, and recursion computes nothing else. -/
theorem computes_evaluate {rules : RuleSet} {letters : List Char} {contexts : Contexts} {dag : Dag}
    (hvalid : contexts.validate = .ok ()) (hdense : contexts.isDense = true) (hbuild : Dag.build rules letters contexts = .ok dag)
    (precision : Nat) (values : List Float) (target : Nat) :
    Computes ⟨dag, rules, precision⟩ values target (evaluate ⟨dag, rules, precision⟩ (.ofValues values) target (.empty dag.size)).1 ∧
      ∀ r, Computes ⟨dag, rules, precision⟩ values target r →
        r = (evaluate ⟨dag, rules, precision⟩ (.ofValues values) target (.empty dag.size)).1 := by
  obtain ⟨rank, hrank⟩ := Dag.exists_ranked_of_validate hvalid hdense hbuild
  have hlocal := Dag.isLocal_of_build hbuild
  have hfilled := Dag.filled_of_build hbuild
  set e : Evaluation := ⟨dag, rules, precision⟩
  by_cases htarget : target < dag.size
  · have hfollows : e.Follows values (· < dag.size) (e.direct values ((Finset.range dag.size).sup rank + 1)) :=
      follows_direct values hlocal hrank fun i hi => Nat.lt_succ_of_le (Finset.le_sup (f := rank) (Finset.mem_range.2 hi))
    have hkeys : Key.Separates (· = values) := fun v w hv hw _ => hv.trans hw.symm
    obtain ⟨heval, -, -⟩ := @evaluate_sound e (· < dag.size) rank (· = values) (fun values => e.direct values _) values hlocal hrank
      hfollows hkeys rfl _ (.empty _ _ _ _) target htarget
    rw [heval]
    exact ⟨hfollows.computes hfilled hlocal hrank htarget, fun r hr => hfollows.eq_of_computes hfilled hlocal hrank htarget hr⟩
  · have hnode : dag.node? target = none := List.getElem?_eq_none (Nat.not_lt.1 htarget)
    rw [evaluate_of_size_le e (.ofValues values) (Nat.not_lt.1 htarget)]
    refine ⟨.missing hnode, fun r hr => ?_⟩
    cases hr with
    | missing hn => rfl
    | failing hn => cases hnode.symm.trans hn
    | value hn => cases hnode.symm.trans hn

/-- Evaluation answers what recursion computes. -/
theorem Computes.evaluate_eq {rules : RuleSet} {dag : Dag} {precision : Nat} {values : List Float} {target : Nat}
    {r : Except EvaluationFault Branches} (h : Computes ⟨dag, rules, precision⟩ values target r) {letters : List Char}
    {contexts : Contexts} (hvalid : contexts.validate = .ok ()) (hdense : contexts.isDense = true)
    (hbuild : Dag.build rules letters contexts = .ok dag) :
    (evaluate ⟨dag, rules, precision⟩ (.ofValues values) target (.empty dag.size)).1 = r :=
  ((computes_evaluate hvalid hdense hbuild precision values target).2 r h).symm

/-- Evaluation on demand computes what plain recursion does. On the dag of valid contexts that are numbered from zero on, evaluating any
target with an empty memo answers the branches, or the fault, that recursion gives, and recursion gives no other. -/
theorem evaluate_iff_computes {rules : RuleSet} {letters : List Char} {contexts : Contexts} {dag : Dag}
    (hvalid : contexts.validate = .ok ()) (hdense : contexts.isDense = true) (hbuild : Dag.build rules letters contexts = .ok dag)
    (precision : Nat) (values : List Float) (target : Nat) (r : Except EvaluationFault Branches) :
    (evaluate ⟨dag, rules, precision⟩ (.ofValues values) target (.empty dag.size)).1 = r ↔
      Computes ⟨dag, rules, precision⟩ values target r := by
  constructor
  · intro h
    rw [← h]
    exact (computes_evaluate hvalid hdense hbuild precision values target).1
  · exact fun h => h.evaluate_eq hvalid hdense hbuild

/-- The contexts of a variable divided by itself. -/
def ratio : Contexts := .ofTexts ["@/1/@/@/1/@".toList, "x".toList]

/-- The dag of a variable divided by itself. -/
def ratioDag : Dag := ⟨[⟨.sum, "@/1/@/@/1/@".toList, [1]⟩, ⟨.variable 0, "x".toList, []⟩]⟩

theorem build_ratio : Dag.build .standard ['x'] ratio = .ok ratioDag := by
  have hbuild : Dag.build .standard ['x'] ratio = .ok ⟨[⟨.sum, "@/1/@/@/1/@".toList, Token.references "@/1/@/@/1/@".toList⟩,
    ⟨.variable 0, "x".toList, Token.references "x".toList⟩]⟩ := rfl
  have hratio : Token.references "@/1/@/@/1/@".toList = [1] := by decide +kernel
  have hx : Token.references "x".toList = [] := by decide +kernel
  rw [hbuild, hratio, hx]
  rfl

theorem computes_ratio : Computes ⟨ratioDag, .standard, 15⟩ [0.0] 0 (.error (.divisionByZero 0.0)) := by
  have hx : Computes ⟨ratioDag, .standard, 15⟩ [0.0] 1 (.ok [0.0]) := by
    have hvalue : nodeValue ⟨ratioDag, .standard, 15⟩ [0.0] (fun _ => []) 1 ⟨.variable 0, "x".toList, []⟩ = .ok [0.0] := by
      simp only [nodeValue, List.getElem?_cons_zero, Except.map, Branches.normalForm, List.map_cons, List.map_nil,
        List.mergeSort_singleton]
      decide +kernel
    exact hvalue ▸ .value rfl (by simp)
  have hvalue : nodeValue ⟨ratioDag, .standard, 15⟩ [0.0] (fun _ => [0.0]) 0 ⟨.sum, "@/1/@/@/1/@".toList, [1]⟩ =
      .error (.divisionByZero 0.0) := by
    have hscan : Lexeme.scan "@/1/@/@/1/@".toList = .ok [.index 1, .op .divide, .index 1] := by decide +kernel
    have hsum : sumValue (fun _ => [0.0]) 0 "@/1/@/@/1/@".toList = .error (.divisionByZero 0.0) := by
      rw [sumValue, hscan]
      decide +kernel
    rw [nodeValue]
    simp only [hsum, Except.map]
  exact hvalue ▸ .value rfl (by simpa using hx)

/-- A variable divided by itself fails at zero. -/
theorem evaluate_iff_computes_ratio :
    (evaluate ⟨ratioDag, .standard, 15⟩ (.ofValues [0.0]) 0 (.empty 2)).1 = .error (.divisionByZero 0.0) :=
  (evaluate_iff_computes (by cbv) (by decide) build_ratio 15 [0.0] 0 _).2 computes_ratio

/-- A variable divided by itself has the value one. -/
theorem computes_ratio_nonzero : Computes ⟨ratioDag, .standard, 15⟩ [1.5] 1 (.ok [1.5]) ∧
    Computes ⟨ratioDag, .standard, 15⟩ [1.5] 0 (.ok [1.0]) := by
  have hx : Computes ⟨ratioDag, .standard, 15⟩ [1.5] 1 (.ok [1.5]) := by
    have hvalue : nodeValue ⟨ratioDag, .standard, 15⟩ [1.5] (fun _ => []) 1 ⟨.variable 0, "x".toList, []⟩ =
        .ok [1.5] := by
      simp only [nodeValue, List.getElem?_cons_zero, Except.map, Branches.normalForm, List.map_cons, List.map_nil,
        List.mergeSort_singleton]
      decide +kernel
    exact hvalue ▸ .value rfl (by simp)
  have hvalue : nodeValue ⟨ratioDag, .standard, 15⟩ [1.5] (fun _ => [1.5]) 0
      ⟨.sum, "@/1/@/@/1/@".toList, [1]⟩ = .ok [1.0] := by
    have hscan : Lexeme.scan "@/1/@/@/1/@".toList = .ok [.index 1, .op .divide, .index 1] := by decide +kernel
    have hsum : sumValue (fun _ => [1.5]) 0 "@/1/@/@/1/@".toList = .ok [1.0] := by
      rw [sumValue, hscan]
      decide +kernel
    simp only [nodeValue, hsum, Except.map, Branches.normalForm, List.map_cons, List.map_nil, List.mergeSort_singleton]
    decide +kernel
  exact ⟨hx, hvalue ▸ .value rfl (by simpa using hx)⟩

end Evaluation

end FormulaDag
