import FormulaDag.Proofs.Evaluation.Recursion
import FormulaDag.Proofs.Expression.Nodes

/-!
# The values of expressions

A node whose indices have one value each has one value itself, the one that the expression it stands for has by recursion, or fails when
that has none. So, by induction on the expression, evaluating a node that stands for an expression gives the value of the expression.
-/

namespace FormulaDag

namespace Evaluation

/-- A result that is a single number, or a failure when there is none. -/
def Yields (r : Except EvaluationFault Branches) : Option Float → Prop
  | some x => r = .ok [x]
  | none => ∃ fault, r = .error fault

/-- The value of an operand when every index has one. -/
def operandValue (value : Nat → Float) : Option Operand → Option Float
  | some (.literal x) => some x
  | some (.index k) => some (value k)
  | _ => none

theorem product_singletons {α : Type} (l : List α) : Combination.product (l.map fun x => [x]) = [l] := by
  induction l with
  | nil => rfl
  | cons x l ih => simp [Combination.product, ih]

theorem mapM_singleton {α β : Type} (f : α → Except EvaluationFault β) (a : α) : [a].mapM f = (f a).map fun b => [b] := by
  rw [List.mapM_cons]
  cases f a <;> rfl

/-- A number is accepted when it is finite. -/
theorem yields_finite (x : Float) (fault : EvaluationFault) :
    Yields ((if x.isFinite then .ok x else .error fault : Except EvaluationFault Float).map fun x => [x])
      ((some x).filter Float.isFinite) := by
  cases hx : x.isFinite with
  | false =>
    rw [Option.filter_some_neg (by simp [hx])]
    exact ⟨fault, rfl⟩
  | true =>
    rw [Option.filter_some_pos hx]
    rfl

theorem normalForm_singleton (precision : Nat) (x : Float) :
    Branches.normalForm precision [x] = [Branches.normalize precision x] := by
  rw [Branches.normalForm, List.map_cons, List.map_nil, List.mergeSort_singleton]
  rfl

/-- A finite result is rounded, and any other one is none. -/
theorem Yields.settle {r : Except EvaluationFault Branches} {y : Option Float} (h : Yields r (y.filter Float.isFinite)) (precision : Nat) :
    Yields (r.map (Branches.normalForm precision)) (y.bind (Expression.settle precision)) := by
  cases y with
  | none =>
    obtain ⟨fault, rfl⟩ := h
    exact ⟨fault, rfl⟩
  | some x =>
    rw [Option.bind_some, Expression.settle]
    cases hx : x.isFinite with
    | false =>
      rw [Option.filter_some_neg (by simp [hx])] at h
      obtain ⟨fault, rfl⟩ := h
      exact ⟨fault, rfl⟩
    | true =>
      rw [Option.filter_some_pos hx] at h
      obtain rfl : r = .ok [x] := h
      exact congrArg Except.ok (normalForm_singleton precision x)

/-- A rule whose operands have one value each has one value. -/
theorem yields_ruleValue {s : RuleSet} {r : Rule} {o : Occurrence} (hr : s.get? o.rule = some r)
    (hreduced : unreduced? r.slots o.operands = none) (value : Nat → Float) (i : Nat) :
    Yields (ruleValue s (fun k => [value k]) i o)
      ((r.apply ⟨o.selector, o.operands.map (operandValue value)⟩).toOption.filter Float.isFinite) := by
  have hproduct : Combination.product (o.operands.map (choicesOf fun k => [value k])) = [o.operands.map (operandValue value)] := by
    rw [← product_singletons, List.map_map]
    congr 1
    refine List.map_congr_left fun operand _ => ?_
    rcases operand with _ | x | k | text <;> rfl
  have hmapM : ruleValue s (fun k => [value k]) i o =
      [o.operands.map (operandValue value)].mapM (applyRule r o.selector) := by
    rw [← hproduct, product_choicesOf, List.mapM_map, ruleValue_eq, hr]
    simp only [hreduced]
    rfl
  rw [hmapM, mapM_singleton, applyRule]
  cases r.apply ⟨o.selector, o.operands.map (operandValue value)⟩ with
  | error fault => exact ⟨fault, rfl⟩
  | ok x => exact yields_finite x _

end Evaluation

/-! ## Sums of indices -/

namespace Lexeme

theorem scanAll_token {k : Nat} (hk : k < Index.bound) (t : Text) :
    scanAll (Index.token k ++ t) = (scanAll t).map (.index k :: ·) := by
  have hsplit := Token.split?_token k t
  rw [Index.token_eq, List.cons_append] at hsplit ⊢
  have hfirst : first '@' ('/' :: (Text.ofNat k ++ ['/', '@']) ++ t) = .ok (.index k, t) := by
    rw [first, if_neg (by decide), if_pos rfl, token?, hsplit]
    simp only [Index.read?_ofNat hk]
  rw [scanAll_cons, hfirst]
  rfl

theorem scanAll_operator (op : Operator) (t : Text) : scanAll (op.char :: t) = (scanAll t).map (.op op :: ·) := by
  have hfirst : first op.char t = .ok (.op op, t) := by
    cases op <;> rfl
  rw [scanAll_cons, hfirst]
  rfl

end Lexeme

namespace Evaluation

open Phrase

theorem lookup_map_of_mem {β : Type} (f : Nat → β) {k : Nat} {l : List Nat} (h : k ∈ l) :
    (l.map fun k => (k, f k)).lookup k = some (f k) := by
  induction l with
  | nil => cases h
  | cons j l ih =>
    rw [List.map_cons, List.lookup_cons]
    cases hjk : k == j with
    | true => rw [eq_of_beq hjk]
    | false => exact ih ((List.mem_cons.1 h).resolve_left (by simpa using hjk))

/-- The terms of a sum without symbols when every index has one value. -/
def termsOf (value : Nat → Float) (lexemes : List Lexeme) : List Term :=
  Leaf.resolve [] ((Lexeme.indices lexemes).map fun k => (k, .number (value k))) lexemes

/-- A sum without symbols has one value when every index has one. -/
theorem yields_sumValue {context : Text} {lexemes : List Lexeme} (hscan : Lexeme.scan context = .ok lexemes)
    (hsymbols : Lexeme.symbolChoices lexemes = []) (value : Nat → Float) (i : Nat) :
    Yields (sumValue (fun k => [value k]) i context) ((Sum.value (termsOf value lexemes)).toOption.filter Float.isFinite) := by
  have hproduct : Combination.product ((Lexeme.indices lexemes).map fun j => [value j].map Choice.number) =
      [(Lexeme.indices lexemes).map fun j => Choice.number (value j)] := by
    rw [← product_singletons, List.map_map]
    rfl
  have hzip : ∀ l : List Nat, (l.zip (l.map fun j => Choice.number (value j))) = l.map fun k => (k, Choice.number (value k)) := by
    intro l
    induction l with
    | nil => rfl
    | cons j l ih => rw [List.map_cons, List.zip_cons_cons, ih, List.map_cons]
  rw [sumValue_eq, hscan]
  simp only [Leaf.axes, hsymbols, List.nil_append, hproduct, mapM_singleton, Leaf.combine, List.length_nil, List.take_zero, List.drop_zero, hzip]
  rw [← termsOf]
  cases Sum.value (termsOf value lexemes) with
  | error fault => cases fault <;> exact ⟨_, rfl⟩
  | ok x => exact yields_finite x _

section
variable {j k : Nat} (hj : j < Index.bound) (hk : k < Index.bound) (value : Nat → Float) (i : Nat)

include hk in
/-- The negative of an index. -/
theorem yields_negation :
    Yields (sumValue (fun k => [value k]) i (line [.sign '-', .ref k]).text) ((some (-value k)).filter Float.isFinite) := by
  have hscan : Lexeme.scan (line [.sign '-', .ref k]).text = .ok [.op .minus, .index k] := by
    have htext : (line [.sign '-', .ref k]).text = Operator.minus.char :: (Index.token k ++ []) := rfl
    rw [Lexeme.scan, htext, Lexeme.scanAll_operator, Lexeme.scanAll_token hk, Lexeme.scanAll]
    rfl
  have hterms : termsOf value [.op .minus, .index k] = [.op .minus, .number (value k)] := by
    have hindex : k ∈ Lexeme.indices [.op .minus, .index k] := by simp [Lexeme.indices, List.mem_eraseDups]
    simp only [termsOf, Leaf.resolve, lookup_map_of_mem _ hindex]
    rfl
  have h := yields_sumValue hscan rfl value i
  rw [hterms] at h
  exact h

include hj hk in
/-- An operation on two indices. -/
theorem yields_operation (op : Operator) :
    Yields (sumValue (fun k => [value k]) i (line [.ref j, .sign op.char, .ref k]).text)
      ((op.value (value j) (value k)).filter Float.isFinite) := by
  have hscan : Lexeme.scan (line [.ref j, .sign op.char, .ref k]).text = .ok [.index j, .op op, .index k] := by
    have htext : (line [.ref j, .sign op.char, .ref k]).text = Index.token j ++ op.char :: (Index.token k ++ []) := by
      simp [Item.line, Mark.text]
    rw [Lexeme.scan, htext, Lexeme.scanAll_token hj, Lexeme.scanAll_operator, Lexeme.scanAll_token hk, Lexeme.scanAll]
    rfl
  have hterms : termsOf value [.index j, .op op, .index k] = [.number (value j), .op op, .number (value k)] := by
    have hindices : ∀ m, m = j ∨ m = k → m ∈ Lexeme.indices [.index j, .op op, .index k] := by
      intro m hm
      simpa [Lexeme.indices, List.mem_eraseDups] using hm
    simp only [termsOf, Leaf.resolve, lookup_map_of_mem _ (hindices j (.inl rfl)), lookup_map_of_mem _ (hindices k (.inr rfl))]
    rfl
  have h := yields_sumValue hscan rfl value i
  rw [hterms] at h
  have hvalue : (Sum.value [.number (value j), .op op, .number (value k)]).toOption = op.value (value j) (value k) := by
    cases op with
    | divide =>
      cases hzero : value k == 0.0 <;>
        simp [Sum.value, Sum.start, Sum.run, Sum.step, Sum.supply, Sum.negate, Sum.Pending.fresh, Sum.finish, Sum.addTo, Except.toOption,
          Operator.value, hzero]
    | _ => rfl
  exact hvalue ▸ h

end

end Evaluation

/-! ## Nodes -/

/-- The operation that a command stands for, on the values of its indices. -/
def Call.result (value : Nat → Float) : Call → Option Float
  | fraction k l => Operator.divide.value (value k) (value l)
  | squareRoot k => Elementary.root? 2.0 (value k)
  | root k l => Elementary.root? (value k) (value l)
  | logarithm k l => some ((value l).log / (value k).log)
  | application f k => some (f.value (value k))

/-- The rule of a command carries out its operation. -/
theorem Call.exists_rule (c : Call) (value : Nat → Float) : ∃ r, RuleSet.standard.get? c.rule = some r ∧
    Evaluation.unreduced? r.slots c.arguments = none ∧
      (r.apply ⟨c.selector, c.arguments.map (Evaluation.operandValue value)⟩).toOption = c.result value := by
  have hroot : ∀ x y : Float, (Rule.root.apply ⟨none, [some x, some y]⟩).toOption = Elementary.root? x y := by
    intro x y
    have happly : Rule.root.apply ⟨none, [some x, some y]⟩ = match Elementary.root? x y with
        | some z => .ok z
        | none => .error (.rootUndefined x y) := rfl
    rw [happly]
    cases Elementary.root? x y <;> rfl
  cases c with
  | fraction k l =>
    refine ⟨Rule.fraction, rfl, rfl, ?_⟩
    have happly : Rule.fraction.apply ⟨none, [some (value k), some (value l)]⟩ =
        if value l == 0.0 then .error (.divisionByZero (value k)) else .ok (value k / value l) := rfl
    refine (congrArg Except.toOption happly).trans ?_
    rw [result, Operator.value]
    split <;> rfl
  | squareRoot k => exact ⟨Rule.root, rfl, rfl, hroot _ _⟩
  | root k l => exact ⟨Rule.root, rfl, rfl, hroot _ _⟩
  | logarithm k l => exact ⟨Rule.logarithm, rfl, rfl, rfl⟩
  | application f k => cases f <;> exact ⟨_, rfl, rfl, rfl⟩

namespace Expression

/-- The expressions that an expression is made of. -/
def children : Expression → List Expression
  | digits _ | letter _ => []
  | negation a | squareRoot a | application _ a => [a]
  | operation _ a b | fraction a b | root a b | logarithm a b | power a b => [a, b]

/-- Induction from the parts of an expression to the expression. -/
theorem induction_children {P : Expression → Prop} (h : ∀ e, (∀ a ∈ e.children, P a) → P e) (e : Expression) : P e := by
  induction e with
  | digits | letter => exact h _ (by simp [children])
  | negation a ih | squareRoot a ih | application f a ih => exact h _ (by simpa [children] using ih)
  | operation op a b iha ihb | fraction a b iha ihb | root a b iha ihb | logarithm a b iha ihb | power a b iha ihb =>
    exact h _ (by simpa [children] using ⟨iha, ihb⟩)

variable {precision : Nat} {assignment : Char → Float}

/-- An expression has no value when a part of it has none. -/
theorem value_eq_none {e : Expression} (h : ∃ a ∈ e.children, a.value precision assignment = none) :
    e.value precision assignment = none := by
  obtain ⟨a, ha, hnone⟩ := h
  cases e with
  | digits | letter => cases ha
  | negation a' | squareRoot a' | application f a' =>
    obtain rfl := List.mem_singleton.1 ha
    simp [value, hnone]
  | operation op a' b | fraction a' b | root a' b | power a' b | logarithm a' b =>
    simp only [children, List.mem_cons, List.not_mem_nil, or_false] at ha
    rcases ha with rfl | rfl <;> simp [value, hnone]

end Expression

namespace Call

variable {M : Nat → Expression → Prop} {c : Call} {e : Expression}

theorem Reads.exists_ref (h : c.Reads M e) : ∀ a ∈ e.children, ∃ k, .ref k ∈ c.line ∧ M k a := by
  cases h <;> simp [Expression.children, line, Line.ofText, operands] <;> grind

theorem Reads.exists_child (h : c.Reads M e) : ∀ k, .ref k ∈ c.line → ∃ a ∈ e.children, M k a := by
  cases h <;> simp [Expression.children, line, Line.ofText, operands] <;> grind

/-- The value of a command is that of its operation. -/
theorem Reads.value_eq (h : c.Reads M e) {precision : Nat} {assignment : Char → Float} {value : Nat → Float}
    (hM : ∀ k, .ref k ∈ c.line → ∀ a ∈ e.children, M k a → a.value precision assignment = some (value k)) :
    e.value precision assignment = (c.result value).bind (Expression.settle precision) := by
  have hoperand : ∀ k, .ref k ∈ c.operands → ∀ a ∈ e.children, M k a → a.value precision assignment = some (value k) := fun k hk =>
    hM k (by simp [line, hk])
  cases h with
  | fraction ha hb | root ha hb | logarithm ha hb =>
    have ha := hoperand _ (by simp [operands]) _ (by simp [Expression.children]) ha
    have hb := hoperand _ (by simp [operands]) _ (by simp [Expression.children]) hb
    simp [Expression.value, result, ha, hb]
  | squareRoot ha | application f ha =>
    simp [Expression.value, result, hoperand _ (by simp [operands]) _ (by simp [Expression.children]) ha]

end Call

namespace Phrase

section
variable {letters : List Char} {M : Nat → Expression → Prop} {l : Phrase} {kind : NodeKind} {e : Expression}

/-- The parts of an expression are what the indices of its node stand for. -/
theorem HasKind.exists_ref (h : HasKind letters M l kind e) : ∀ a ∈ e.children, ∃ k, .ref k ∈ l.line ∧ M k a := by
  cases h with
  | letter | digits => simp [Expression.children]
  | call h => simpa [Item.line] using h.exists_ref
  | power ha hb => simpa [Expression.children, Item.line] using ⟨.inl ha, .inr hb⟩
  | negation ha => simpa [Expression.children, Item.line] using ha
  | operation op ha hb => simpa [Expression.children, Item.line] using ⟨.inl ha, .inr hb⟩

theorem HasKind.exists_child (h : HasKind letters M l kind e) : ∀ k, .ref k ∈ l.line → ∃ a ∈ e.children, M k a := by
  cases h with
  | letter => simp [Item.line]
  | digits => simp [Item.line, Line.ofText]
  | call h => simpa [Item.line] using h.exists_child
  | power ha hb => simpa [Expression.children, Item.line] using ⟨.inl ha, .inr hb⟩
  | negation ha => simpa [Expression.children, Item.line] using ha
  | operation op ha hb => simpa [Expression.children, Item.line] using ⟨.inl ha, .inr hb⟩

open Evaluation

/-- When every index has one value, a node has the value of the expression that it stands for. -/
theorem HasKind.yields (h : HasKind letters M l kind e) (hrefs : ∀ k, .ref k ∈ l.line → k < Index.bound) {precision : Nat}
    {assignment : Char → Float} {value : Nat → Float}
    (hM : ∀ k, .ref k ∈ l.line → ∀ a ∈ e.children, M k a → a.value precision assignment = some (value k)) (dag : Dag) (i : Nat) (deps : List Nat) :
    Yields (nodeValue ⟨dag, .standard, precision⟩ (letters.map assignment) (fun k => [value k]) i ⟨kind, l.line.text, deps⟩)
      (e.value precision assignment) := by
  have hruled : ∀ {o : Occurrence} {r : Rule} {y : Option Float}, RuleSet.standard.get? o.rule = some r →
      unreduced? r.slots o.operands = none →
      (r.apply ⟨o.selector, o.operands.map (operandValue value)⟩).toOption = y →
      Yields (nodeValue ⟨dag, .standard, precision⟩ (letters.map assignment) (fun k => [value k]) i ⟨.rule o, l.line.text, deps⟩)
        (y.bind (Expression.settle precision)) := fun hr hreduced happly =>
    (happly ▸ yields_ruleValue hr hreduced value i).settle precision
  cases h with
  | @letter c hc =>
    have hget : (letters.map assignment)[letters.idxOf c]? = some (assignment c) := by
      rw [List.getElem?_map, List.getElem?_idxOf hc]
      rfl
    rw [nodeValue]
    simp only [hget]
    exact congrArg Except.ok (normalForm_singleton precision (assignment c))
  | @digits run x o hx hrule hselector hoperands =>
    have hvalue : (Expression.digits run).value precision assignment = (some x).bind (Expression.settle precision) := by simp [Expression.value, hx]
    rw [hvalue]
    refine hruled (r := .number) (hrule ▸ rfl) (hoperands ▸ rfl) ?_
    rw [hselector, hoperands]
    rfl
  | @call c _ _ h hrule hselector hoperands =>
    rw [h.value_eq fun k hk => hM k (by simpa [Item.line] using hk)]
    obtain ⟨r, hr, hreduced, happly⟩ := c.exists_rule value
    exact hruled (hrule ▸ hr) (hoperands ▸ hreduced) (hselector ▸ hoperands ▸ happly)
  | @power j k a b o ha hb hrule hselector hoperands =>
    have hj := hM j (by simp [Item.line]) a (by simp [Expression.children]) ha
    have hk := hM k (by simp [Item.line]) b (by simp [Expression.children]) hb
    have hvalue : (Expression.power a b).value precision assignment =
        (some (Elementary.power (value j) (value k))).bind (Expression.settle precision) := by
      simp [Expression.value, hj, hk]
    rw [hvalue]
    refine hruled (r := .power) (hrule ▸ rfl) (hoperands ▸ rfl) ?_
    rw [hselector, hoperands]
    rfl
  | @negation k a ha =>
    have hk := hM k (by simp [Item.line]) a (by simp [Expression.children]) ha
    have hvalue : (Expression.negation a).value precision assignment = (some (-value k)).bind (Expression.settle precision) := by
      simp [Expression.value, hk]
    rw [hvalue]
    exact (yields_negation (hrefs k (by simp [Item.line])) value i).settle precision
  | @operation op j k a b ha hb =>
    have hj := hM j (by simp [Item.line]) a (by simp [Expression.children]) ha
    have hk := hM k (by simp [Item.line]) b (by simp [Expression.children]) hb
    have hvalue : (Expression.operation op a b).value precision assignment =
        (op.value (value j) (value k)).bind (Expression.settle precision) := by
      simp [Expression.value, hj, hk]
    rw [hvalue]
    exact (yields_operation (hrefs j (by simp [Item.line])) (hrefs k (by simp [Item.line])) value i op).settle precision

end

end Phrase

/-! ## Evaluation -/

namespace Evaluation

section
variable {e : Evaluation} {values : List Float} {R : Nat → Except EvaluationFault Branches}
  (hR : ∀ i, e.Computes values i (R i) ∧ ∀ r, e.Computes values i r → r = R i)
include hR

/-- A node fails when one that it depends on does. -/
theorem exists_error_of_dependency {i : Nat} {n : Node} (hn : e.dag.node? i = some n)
    (h : ∃ k ∈ n.dependencies, ∃ fault, R k = .error fault) : ∃ fault, R i = .error fault := by
  obtain ⟨k, hk, fault, hfault⟩ := h
  cases hfirst : firstFault? R n.dependencies with
  | none =>
    obtain ⟨b, hb⟩ := firstFault?_eq_none.1 hfirst k hk
    rw [hfault] at hb
    cases hb
  | some first =>
    obtain ⟨before, j, after, hsplit, hj, hbefore⟩ := List.findSome?_eq_some_iff.1 hfirst
    have hjfault : R j = .error first := by
      cases hres : R j <;> simp_all
    have hok : ∀ m ∈ before, R m = .ok ((R m).toOption.getD []) := fun m hm => by
      obtain ⟨b, hb⟩ := firstFault?_eq_none.1 (List.findSome?_eq_none_iff.2 hbefore) m hm
      rw [hb]
      rfl
    exact ⟨first, ((hR i).2 _ (.failing hn hsplit (fun m hm => hok m hm ▸ (hR m).1) (hjfault ▸ (hR j).1))).symm⟩

/-- A node has its own value when those that it depends on have theirs. -/
theorem eq_nodeValue_of_dependencies {i : Nat} {n : Node} (hn : e.dag.node? i = some n) {found : Nat → Branches}
    (h : ∀ k ∈ n.dependencies, R k = .ok (found k)) : R i = e.nodeValue values found i n :=
  ((hR i).2 _ (.value hn fun k hk => h k hk ▸ (hR k).1)).symm

end

/-- What stands for an expression has the value of the expression. -/
theorem yields_of_conveys {letters : List Char} {c : Contexts} {M : Nat → Expression → Prop} (hletters : ∀ c ∈ letters, c.isLower = true)
    (hc : c.Conveys letters M) (hsmall : ∀ i a, M i a → i < Index.bound) (hdense : c.isDense = true) {dag : Dag}
    (hbuild : Dag.build .standard letters c = .ok dag) {precision : Nat} {assignment : Char → Float}
    {R : Nat → Except EvaluationFault Branches}
    (hR : ∀ i, Computes ⟨dag, .standard, precision⟩ (letters.map assignment) i (R i) ∧
      ∀ r, Computes ⟨dag, .standard, precision⟩ (letters.map assignment) i r → r = R i) {i : Nat} {a : Expression} (ha : M i a) :
    Yields (R i) (a.value precision assignment) := by
  induction a using Expression.induction_children generalizing i with
  | h a ih =>
    obtain ⟨l, hget, hl⟩ := hc i a ha
    obtain ⟨kind, hkind, hnode⟩ := hl.exists_kind hletters hsmall
    have hn : dag.node? i = some ⟨kind, l.line.text, Token.references l.line.text⟩ := by
      have hmap := Dag.node?_of_build hdense hbuild i
      rw [hget, Option.map_some, hnode] at hmap
      obtain ⟨n, hn, heq⟩ := Option.map_eq_some_iff.1 hmap
      rw [hn, Except.ok.inj heq]
    have hwithin := (hl.reads (List.nil_subset _)).within hletters hsmall
    have hrefs : ∀ k, k ∈ Token.references l.line.text ↔ .ref k ∈ l.line := fun k => hwithin.mem_references (Nat.le_refl _)
    by_cases hnone : ∃ b ∈ a.children, b.value precision assignment = none
    · obtain ⟨b, hb, hvalue⟩ := hnone
      obtain ⟨k, hk, hkb⟩ := hkind.exists_ref b hb
      have hfails := ih b hb hkb
      rw [hvalue] at hfails
      rw [Expression.value_eq_none ⟨b, hb, hvalue⟩]
      exact exists_error_of_dependency hR hn ⟨k, (hrefs k).2 hk, hfails⟩
    · have hsome : ∀ b ∈ a.children, ∃ x, b.value precision assignment = some x := fun b hb =>
        Option.ne_none_iff_exists'.1 fun hvalue => hnone ⟨b, hb, hvalue⟩
      have hok : ∀ k, ∀ b ∈ a.children, M k b → ∃ x, b.value precision assignment = some x ∧ R k = .ok [x] := by
        intro k b hb hkb
        obtain ⟨x, hx⟩ := hsome b hb
        have hyields := ih b hb hkb
        rw [hx] at hyields
        exact ⟨x, hx, hyields⟩
      have hresults : ∀ k, ∃ x, .ref k ∈ l.line → R k = .ok [x] := by
        intro k
        by_cases hk : .ref k ∈ l.line
        · obtain ⟨b, hb, hkb⟩ := hkind.exists_child k hk
          obtain ⟨x, -, hx⟩ := hok k b hb hkb
          exact ⟨x, fun _ => hx⟩
        · exact ⟨0.0, fun hmem => absurd hmem hk⟩
      choose value hvalue using hresults
      rw [eq_nodeValue_of_dependencies hR hn fun k hk => hvalue k ((hrefs k).1 hk)]
      refine hkind.yields hwithin.refs (fun k hk b hb hkb => ?_) dag i _
      obtain ⟨x, hx, hresult⟩ := hok k b hb hkb
      rw [hvalue k hk, Except.ok.injEq, List.cons.injEq] at hresult
      rw [hx, hresult.1]

end Evaluation

end FormulaDag
