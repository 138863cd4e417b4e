import FormulaDag.Proofs.Evaluation.Permutation
import FormulaDag.Proofs.Rule.Calls

/-!
# The faults of an evaluation

An evaluation can fail in many ways on paper, but in a dag that was built from valid contexts only those are left that the inputs or the
formula are to blame for. Every node that is demanded exists, what it depends on has a result when its turn comes, its rule is there, and
every variable has a value. The operands of a rule and the lexemes of a sum refer to dependencies of the node and to nothing else. A
function of the user may fail with any fault; then it belongs to a node, and fails at a result that is kept for the operand.
-/

namespace FormulaDag

/-- A computation on a list fails as it does on some element. -/
theorem exists_of_mapM_eq_error {α β ε : Type} {f : α → Except ε β} {xs : List α} {fault : ε} (h : xs.mapM f = .error fault) :
    ∃ x ∈ xs, f x = .error fault := by
  induction xs with
  | nil => cases h
  | cons x xs ih =>
    rw [List.mapM_cons] at h
    cases hx : f x with
    | error fault' =>
      rw [hx] at h
      exact ⟨x, by simp, hx.trans (congrArg Except.error (Except.error.inj h))⟩
    | ok y =>
      cases hxs : xs.mapM f with
      | error fault' =>
        rw [hx, hxs] at h
        obtain rfl : fault' = fault := Except.error.inj h
        obtain ⟨z, hz, hfault⟩ := ih hxs
        exact ⟨z, List.mem_cons_of_mem _ hz, hfault⟩
      | ok ys =>
        rw [hx, hxs] at h
        cases h

/-- The faults that the values of a formula or the text of a sum are to blame for. -/
inductive EvaluationFault.IsOrdinary : EvaluationFault → Prop where
  | logarithmBase (function : String) : IsOrdinary (.logarithmBase function)
  | rootUndefined (degree value : Float) : IsOrdinary (.rootUndefined degree value)
  | divisionByZero (numerator : Float) : IsOrdinary (.divisionByZero numerator)
  | notFinite (rule : String) (inputs : List Float) : IsOrdinary (.notFinite rule inputs)
  | lexical (i : Nat) (context : Text) (fault : LexicalFault) : IsOrdinary (.node i context (.lexical fault))
  | grammatical (i : Nat) (context : Text) (fault : GrammarFault) : IsOrdinary (.node i context (.grammatical fault))

namespace Rule

/-- The function that is chosen is one that the rule offers, if it offers some. -/
def Chooses (r : Rule) (selector : Option String) : Prop :=
  ∀ s, r.selector = some s → ∃ choice ∈ s.choices, selector = some choice

/-- A table that has an entry for every word of a rule. -/
theorem byName_eq_ok {table : Float → String → Option Float} {words : List String} (h : ∀ x, ∀ w ∈ words, (table x w).isSome = true)
    {a : Arguments} (ha : ∃ w ∈ words, a.selector = some w) : ∃ x, byName table a = .ok x := by
  obtain ⟨w, hw, hselector⟩ := ha
  obtain ⟨x, hx⟩ := Option.isSome_iff_exists.1 (h (a.value 0) w hw)
  have hfunction : a.function = w := by
    rw [Arguments.function, hselector, Option.getD_some]
  exact ⟨x, by rw [byName, hfunction, hx]⟩

/-- The standard rules fail for want of a value only. -/
theorem isOrdinary_of_standard {r : Rule} (hr : r ∈ standard) {a : Arguments} (ha : r.Chooses a.selector) {fault : EvaluationFault}
    (h : r.apply a = .error fault) : fault.IsOrdinary := by
  have never : ∀ (table : Float → String → Option Float) (words : List String), (∀ x, ∀ w ∈ words, (table x w).isSome = true) →
      (∃ w ∈ words, a.selector = some w) → byName table a ≠ .error fault := by
    intro table words htable hw herror
    obtain ⟨x, hx⟩ := byName_eq_ok htable hw
    cases hx.symm.trans herror
  simp only [standard, List.mem_cons, List.not_mem_nil, or_false] at hr
  rcases hr with rfl | rfl | rfl | rfl | rfl | rfl | rfl
  · simp only [root] at h
    split at h
    · cases h
    · exact Except.error.inj h ▸ .rootUndefined _ _
  · simp only [fraction] at h
    split at h
    · exact Except.error.inj h ▸ .divisionByZero _
    · cases h
  · change logarithmValue a = .error fault at h
    rw [logarithmValue] at h
    split at h
    · cases h
    · cases h
    · cases h
    · exact Except.error.inj h ▸ .logarithmBase _
  · refine absurd h (never _ trigonometricWords (fun x w hw => ?_) (ha _ rfl))
    simp only [trigonometricWords, List.mem_cons, List.not_mem_nil, or_false] at hw
    rcases hw with rfl | rfl | rfl | rfl | rfl | rfl | rfl | rfl | rfl | rfl | rfl | rfl <;> rfl
  · refine absurd h (never _ inverseWords (fun x w hw => ?_) (ha _ rfl))
    simp only [inverseWords, List.mem_cons, List.not_mem_nil, or_false] at hw
    rcases hw with rfl | rfl | rfl | rfl | rfl | rfl <;> rfl
  · cases h
  · cases h

/-- An occurrence names a function that its rule offers. -/
theorem chooses_of_occurrence {r : Rule} {id : Nat} {behind : Text} {h : Hit} {o : Occurrence} (ho : r.occurrence id behind h = .ok o) :
    r.Chooses o.selector := by
  intro s hs
  rw [occurrence_eq, selected, hs] at ho
  simp only at ho
  cases hread : s.read h.parts with
  | error fault => simp [hread, Except.map] at ho
  | ok choice =>
    simp only [hread, Except.map] at ho
    rw [Selector.read] at hread
    split at hread
    · rename_i found hfound
      refine ⟨found, List.mem_of_find?_eq_some hfound, ?_⟩
      split at ho
      · cases ho
      · rw [← Except.ok.inj ho, ← Except.ok.inj hread]
    · cases hread

/-- The slots of a rule have different names. -/
theorem nodup_slots_standard : ∀ r ∈ standard, (r.slots.map Slot.name).Nodup := by
  intro r hr
  simp only [standard, List.mem_cons, List.not_mem_nil, or_false] at hr
  rcases hr with rfl | rfl | rfl | rfl | rfl | rfl | rfl <;> decide

end Rule

theorem RuleSet.nodup_slots (s : RuleSet) : ∀ r ∈ s.rules, (r.slots.map Slot.name).Nodup := by
  intro r hr
  rcases List.mem_append.1 hr with hr | hr
  · obtain ⟨f, -, rfl⟩ := List.mem_map.1 hr
    exact List.nodup_singleton _
  · exact Rule.nodup_slots_standard r hr

/-- The rule of the occurrence that describes a text is in the set and offers the function that the occurrence names. -/
theorem RuleSet.chooses_of_resolve {s : RuleSet} {t : Text} {o : Occurrence} (h : s.resolve t = .ok (some o)) {r : Rule}
    (hr : s.get? o.rule = some r) : r.Chooses o.selector := by
  obtain ⟨id, r', hmem, hfind⟩ := resolveWith_eq_some h
  obtain ⟨hit, -, -, -, ho⟩ := Rule.findWhole_eq_some (s.isAligned r' (mem_of_numbered hmem)) hfind
  have hid : o.rule = id := (Rule.occurrence_eq_ok ho).1
  rw [hid, mem_numbered.1 hmem, Option.some.injEq] at hr
  exact hr ▸ Rule.chooses_of_occurrence ho

/-- A rule of a set is that of a function in its place, or a standard one. -/
theorem RuleSet.get?_cases {s : RuleSet} {id : Nat} {r : Rule} (h : s.get? id = some r) :
    (∃ u, s.functions[id]? = some u ∧ r = u.rule) ∨ r ∈ Rule.standard := by
  rw [get?, rules, List.getElem?_append] at h
  split at h
  · rw [List.getElem?_map] at h
    obtain ⟨u, hu, rfl⟩ := Option.map_eq_some_iff.1 h
    exact .inl ⟨u, hu, rfl⟩
  · exact .inr (List.mem_of_getElem? h)

/-- A text that the rule of a function describes has an index for its only operand. -/
theorem RuleSet.operands_of_resolve {s : RuleSet} {t : Text} {o : Occurrence} (h : s.resolve t = .ok (some o)) {u : UserFunction}
    (hu : s.get? o.rule = some u.rule) : ∃ k, o.operands = [some (.index k)] := by
  obtain ⟨id, r, hmem, hfind⟩ := resolveWith_eq_some h
  obtain ⟨_, -, -, -, ho⟩ := Rule.findWhole_eq_some (s.isAligned r (mem_of_numbered hmem)) hfind
  rw [(Rule.occurrence_eq_ok ho).1, mem_numbered.1 hmem, Option.some.injEq] at hu
  exact UserFunction.operands_of_findWhole (hu ▸ hfind)

/-- The position of a variable is that of a declared letter. -/
theorem Dag.lt_of_variable {s : RuleSet} {letters : List Char} {t : Text} {n : Node} (h : nodeOf s letters t = .ok n) {position : Nat}
    (hk : n.kind = .variable position) : position < letters.length := by
  obtain ⟨-, -, hkind⟩ := nodeOf_eq_ok h
  rw [hk, kindOf] at hkind
  split at hkind
  · rename_i position' hposition
    obtain rfl : position' = position := NodeKind.variable.inj (Except.ok.inj hkind)
    rw [letterPosition?.eq_def] at hposition
    split at hposition
    · split at hposition
      · rename_i c hc
        exact Option.some.inj hposition ▸ List.idxOf_lt_length_of_mem hc
      · cases hposition
    · cases hposition
  · split at hkind
    · cases hkind
    · cases hkind
    · cases hkind

/-- Every node of a dag is the one of its context. -/
theorem Dag.nodeOf_context {s : RuleSet} {letters : List Char} {c : Contexts} {d : Dag} (h : build s letters c = .ok d) :
    ∀ n ∈ d.nodes, nodeOf s letters n.context = .ok n := by
  obtain ⟨nodes, hnodes, rfl⟩ := map_eq_ok.1 h
  intro n hn
  obtain ⟨t, -, ht⟩ := exists_of_mem_mapM hnodes hn
  rwa [(nodeOf_eq_ok ht).1]

namespace Evaluation

/-- The operand of a rule node in the slot with a name. -/
def operand? (e : Evaluation) (i : Nat) (slot : String) : Option Operand :=
  match (e.dag.node? i).map Node.kind with
  | some (.rule o) => (e.rules.get? o.rule).bind fun r => (((r.slots.map Slot.name).zip o.operands).lookup slot).join
  | _ => none

/-- A function of the user fails at a node of its rule, for a branch of the result that is known for its operand. -/
structure FunctionFails (e : Evaluation) (known : Nat → Option Branches) (fault : EvaluationFault) (i j : Nat) (o : Occurrence)
    (u : UserFunction) (branches : Branches) (x : Float) : Prop where
  node : (e.dag.node? i).map Node.kind = some (.rule o)
  function : e.rules.functions[o.rule]? = some u
  operand : o.operands = [some (.index j)]
  result : known j = some branches
  branch : x ∈ branches
  fails : u.apply x = .error fault

/-- What an evaluation may fail with: an ordinary fault, an operand that is text, or what a function of the user fails with at a node. -/
inductive Reports (e : Evaluation) (known : Nat → Option Branches) : EvaluationFault → Prop where
  | ordinary {fault : EvaluationFault} (h : fault.IsOrdinary) : Reports e known fault
  | text {i : Nat} {slot rule : String} {t : Text} (h : e.operand? i slot = some (.raw t)) :
      Reports e known (.unreducedOperand slot rule i)
  | function {fault : EvaluationFault} {i j : Nat} {o : Occurrence} {u : UserFunction} {branches : Branches} {x : Float}
      (h : e.FunctionFails known fault i j o u branches x) : Reports e known fault

/-- The slot that is reported for its text holds text. -/
theorem lookup_of_unreduced? {slots : List Slot} {operands : List (Option Operand)} (hnodup : (slots.map Slot.name).Nodup) {slot : Slot}
    (h : unreduced? slots operands = some slot) :
    ∃ t, ((slots.map Slot.name).zip operands).lookup slot.name = some (some (.raw t)) := by
  fun_induction unreduced? slots operands with
  | case1 slot' slots t operands =>
    obtain rfl := Option.some.inj h
    exact ⟨t, by simp⟩
  | case2 slot' slots operand operands hother ih =>
    rw [List.map_cons, List.nodup_cons] at hnodup
    obtain ⟨t, ht⟩ := ih hnodup.2 h
    obtain ⟨before, after, hzip, -⟩ := List.lookup_eq_some_iff.1 ht
    have hmem : slot.name ∈ slots.map Slot.name := by
      have hin : (slot.name, some (Operand.raw t)) ∈ (slots.map Slot.name).zip operands := by
        rw [hzip]
        simp
      exact (List.of_mem_zip hin).1
    have hne : slot.name ≠ slot'.name := fun heq => hnodup.1 (heq ▸ hmem)
    exact ⟨t, by rw [List.map_cons, List.zip_cons_cons, List.lookup_cons, beq_false_of_ne hne, ht]⟩
  | case3 => cases h

section
variable {e : Evaluation} {fault : EvaluationFault}

/-- A rule that is applied fails as its function does, or because the value is not finite. -/
theorem of_applyRule_eq_error {r : Rule} {selector : Option String} {values : List (Option Float)}
    (h : applyRule r selector values = .error fault) : r.apply ⟨selector, values⟩ = .error fault ∨ fault.IsOrdinary := by
  rw [applyRule] at h
  split at h
  · rename_i fault' happly
    obtain rfl := Except.error.inj h
    exact .inl happly
  · split at h
    · cases h
    · exact .inr (Except.error.inj h ▸ .notFinite _ _)

theorem reports_of_ruleValue {letters : List Char} {i : Nat} {n : Node} (hn : e.dag.node? i = some n)
    (hnode : Dag.nodeOf e.rules letters n.context = .ok n) {o : Occurrence} (hkind : n.kind = .rule o) {found : Nat → Branches}
    {known : Nat → Option Branches} (hknown : ∀ j ∈ n.dependencies, known j = some (found j))
    (h : ruleValue e.rules found i o = .error fault) : e.Reports known fault := by
  have hresolve := Dag.resolve_of_nodeOf hnode hkind
  obtain ⟨r, hr, -⟩ := RuleSet.exists_slots_of_resolve hresolve
  simp only [ruleValue_eq, hr] at h
  split at h
  · rename_i slot hslot
    obtain ⟨t, ht⟩ := lookup_of_unreduced? (e.rules.nodup_slots r (List.mem_of_getElem? hr)) hslot
    obtain rfl := Except.error.inj h
    refine .text (t := t) ?_
    simp only [operand?, hn, Option.map_some, hkind, hr, Option.bind_some, ht, Option.join_some]
  · obtain ⟨combination, hmem, hcombination⟩ := exists_of_mapM_eq_error h
    rcases of_applyRule_eq_error hcombination with happly | hordinary
    · rcases RuleSet.get?_cases hr with ⟨u, hu, rfl⟩ | hstandard
      · -- the operand of a function is an index, so what it was applied to is a branch of that
        obtain ⟨j, hj⟩ := RuleSet.operands_of_resolve hresolve hr
        have hdepends : j ∈ n.dependencies := by
          rw [(Dag.nodeOf_eq_ok hnode).2.1]
          exact RuleSet.index_mem_references hresolve (by simp [hj])
        rw [hj, axes, axes, Combination.product, Combination.product, List.mem_flatMap] at hmem
        obtain ⟨x, hx, hmem⟩ := hmem
        obtain rfl := List.mem_singleton.1 hmem
        rw [hj] at happly
        exact .function ⟨by rw [hn, Option.map_some, hkind], hu, hj, hknown j hdepends, hx, happly⟩
      · exact .ordinary (Rule.isOrdinary_of_standard hstandard (RuleSet.chooses_of_resolve hresolve hr) happly)
    · exact .ordinary hordinary

theorem isOrdinary_of_combine {i : Nat} {context : Text} {lexemes : List Lexeme} {combination : List Choice}
    (h : Leaf.combine i context lexemes combination = .error fault) : fault.IsOrdinary := by
  rw [Leaf.combine] at h
  split at h
  · exact Except.error.inj h ▸ .grammatical _ _ _
  · exact Except.error.inj h ▸ .divisionByZero _
  · split at h
    · cases h
    · exact Except.error.inj h ▸ .notFinite _ _

theorem isOrdinary_of_sumValue {found : Nat → Branches} {i : Nat} {context : Text} (h : sumValue found i context = .error fault) :
    fault.IsOrdinary := by
  rw [sumValue_eq] at h
  split at h
  · exact Except.error.inj h ▸ .lexical _ _ _
  · obtain ⟨combination, -, hcombination⟩ := exists_of_mapM_eq_error h
    exact isOrdinary_of_combine hcombination

/-- A node that was made from its context reports no other fault, if every variable has a value. -/
theorem reports_of_nodeValue {letters : List Char} {values : List Float} (hvalues : values.length = letters.length) {i : Nat} {n : Node}
    (hn : e.dag.node? i = some n) (hnode : Dag.nodeOf e.rules letters n.context = .ok n) {found : Nat → Branches}
    {known : Nat → Option Branches} (hknown : ∀ j ∈ n.dependencies, known j = some (found j))
    (h : e.nodeValue values found i n = .error fault) : e.Reports known fault := by
  have hraw : ∀ {x : Except EvaluationFault Branches}, x.map (Branches.normalForm e.precision) = .error fault → x = .error fault := by
    intro x hx
    cases x with
    | error fault' => exact congrArg Except.error (Except.error.inj hx)
    | ok b => cases hx
  rw [nodeValue] at h
  cases hkind : n.kind with
  | «variable» position =>
    have hposition : position < values.length := hvalues ▸ Dag.lt_of_variable hnode hkind
    rw [hkind] at h
    simp only [List.getElem?_eq_getElem hposition] at h
    cases h
  | rule o =>
    rw [hkind] at h
    exact reports_of_ruleValue hn hnode hkind hknown (hraw h)
  | sum =>
    rw [hkind] at h
    exact .ordinary (isOrdinary_of_sumValue (hraw h))

end

theorem slots_computeAll (e : Evaluation) (a : Valuation) (l : List Nat) (m : Memo) : (e.computeAll a l m).2.slots = m.slots := by
  induction l generalizing m with
  | nil => rfl
  | cons i rest ih =>
    rw [computeAll]
    split
    · rfl
    · split
      · rfl
      · rw [ih, Memo.slots_insert]

theorem slots_evaluate (e : Evaluation) (a : Valuation) (target : Nat) (m : Memo) : (e.evaluate a target m).2.slots = m.slots := by
  rw [evaluate]
  split
  · rfl
  · split
    · rfl
    · rename_i demanded _
      have hcomputed := e.slots_computeAll a demanded m
      split
      · rename_i heq
        rwa [heq] at hcomputed
      · rename_i heq
        rw [heq] at hcomputed
        split
        · exact hcomputed
        · exact hcomputed

section
variable {e : Evaluation} {letters : List Char} (hnodes : ∀ n ∈ e.dag.nodes, Dag.nodeOf e.rules letters n.context = .ok n)
  {a : Valuation} (hvalues : a.values.length = letters.length)
include hnodes hvalues

/-- A node whose dependencies have results, right or wrong, has branches or reports a fault. -/
theorem reports_of_nodeBranches {i : Nat} {n : Node} (hn : e.dag.node? i = some n) {m : Memo}
    (hdeps : ∀ j ∈ n.dependencies, m.contains j a.key = true) {fault : EvaluationFault}
    (h : nodeBranches e.rules e.precision a.values i n (fun j => m.get? j a.key) = .error fault) :
    e.Reports (fun j => m.get? j a.key) fault := by
  have hnode := hnodes n (List.mem_of_getElem? hn)
  have hfilled : Filled e.rules n := fun o ho => RuleSet.exists_slots_of_resolve (Dag.resolve_of_nodeOf hnode ho)
  have hfound : ∀ j ∈ n.dependencies, m.get? j a.key = some ((m.get? j a.key).getD []) := by
    intro j hj
    obtain ⟨b, hb⟩ := Memo.contains_iff.1 (hdeps j hj)
    rw [hb, Option.getD_some]
  rw [Dag.isLocal_nodeOf hnode _ _ _ _ _ hfound, nodeBranches_eq_nodeValue hfilled a.values] at h
  exact reports_of_nodeValue hvalues hn hnode hfound h

/-- Nodes that are computed in order either all get results, or one of them reports a fault of what is kept by then. -/
theorem reports_of_computeAll {l : List Nat} {m : Memo} (hslots : m.slots = e.dag.size)
    (ho : e.dag.Ordered (fun i => m.contains i a.key) l) :
    (∀ fault, (e.computeAll a l m).1 = .error fault → e.Reports (fun j => (e.computeAll a l m).2.get? j a.key) fault) ∧
      ((e.computeAll a l m).1 = .ok () → ∀ i, m.contains i a.key = true ∨ i ∈ l → (e.computeAll a l m).2.contains i a.key = true) := by
  induction l generalizing m with
  | nil => exact ⟨fun _ h => (nomatch h), fun _ i hi => hi.resolve_right (by simp)⟩
  | cons i l ih =>
    obtain ⟨hsize, hdeps⟩ := ho.head
    obtain ⟨n, hn⟩ : ∃ n, e.dag.node? i = some n := ⟨_, List.getElem?_eq_getElem hsize⟩
    rw [Dag.dependencies, hn] at hdeps
    rw [computeAll]
    simp only [hn]
    cases hbranches : nodeBranches e.rules e.precision a.values i n fun j => m.get? j a.key with
    | error fault =>
      refine ⟨fun fault' h => ?_, fun h => by cases h⟩
      exact Except.error.inj h ▸ reports_of_nodeBranches hnodes hvalues hn hdeps hbranches
    | ok b =>
      have hslot : i < m.slots := hslots ▸ hsize
      have grows : ∀ j, j = i ∧ a.key = a.key ∨ m.contains j a.key = true → (m.insert i a.key b).contains j a.key = true := fun j =>
        (Memo.contains_insert hslot j a.key).2
      have ho' := ho.tail (grows i (.inl ⟨rfl, rfl⟩)) fun j h => grows j (.inr h)
      obtain ⟨hfault, hall⟩ := ih ((m.slots_insert i a.key b).trans hslots) ho'
      refine ⟨hfault, fun h j hj => hall h j ?_⟩
      rcases hj with hj | hj
      · exact .inl (grows j (.inr hj))
      · rcases List.mem_cons.1 hj with rfl | hj
        · exact .inl (grows j (.inl ⟨rfl, rfl⟩))
        · exact .inr hj

/-- Whatever a memo holds, an evaluation of a node of a ranked dag reports no other fault, and its memo afterwards has the results that a
function of the user failed at. -/
theorem reports_of_evaluate {rank : Nat → Nat} (hrank : e.dag.Ranked (· < e.dag.size) rank) {m : Memo} (hslots : m.slots = e.dag.size)
    {target : Nat} (htarget : target < e.dag.size) {fault : EvaluationFault} (h : (e.evaluate a target m).1 = .error fault) :
    e.Reports (fun j => (e.evaluate a target m).2.get? j a.key) fault := by
  rw [evaluate] at h ⊢
  cases hget : m.get? target a.key with
  | some found =>
    rw [hget] at h
    cases h
  | none =>
    obtain ⟨l, hl⟩ : ∃ l, e.dag.demandFrom (fun i => m.contains i a.key) [] [] [target] = .ok l :=
      hrank.exists_demandFrom (by simpa using htarget)
    obtain ⟨-, hordered, hcover⟩ := Dag.ordered_of_demandFrom hl .nil
    have hdemand : e.dag.demand (fun i => m.contains i a.key) target = .ok l := hl
    obtain ⟨hfault, hall⟩ := reports_of_computeAll hnodes hvalues hslots hordered
    simp only [hget, hdemand] at h ⊢
    cases hcomputed : e.computeAll a l m with
    | mk answer kept =>
      rw [hcomputed] at hfault hall
      simp only [hcomputed] at h ⊢
      cases answer with
      | error fault' => exact Except.error.inj h ▸ hfault fault' rfl
      | ok u =>
        obtain ⟨b, hb⟩ := Memo.contains_iff.1 (hall rfl target (hcover target (by simp)))
        simp only at hb h
        rw [hb] at h
        cases h

end

end Evaluation

end FormulaDag
