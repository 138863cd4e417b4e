import FormulaDag.Proofs.Evaluation.Recursion
import FormulaDag.Proofs.Rule.Uniform

/-!
# Evaluation under other numbers

Two dags whose nodes correspond to each other, apart from their numbers, have the same values. A leaf reads its indices through their
branches, a rule its operands through theirs, and numbers show in failures only. So recursion along the one dag can be followed step by
step along the other.
-/

namespace FormulaDag

open Token (Renamed)

/-- Lexemes that are the same or related indices. -/
inductive RenamedLexeme (ρ : Nat → Nat → Prop) : Lexeme → Lexeme → Prop where
  | index {i j : Nat} (h : ρ i j) : RenamedLexeme ρ (.index i) (.index j)
  | plain {lexeme : Lexeme} (h : ∀ i, lexeme ≠ .index i) : RenamedLexeme ρ lexeme lexeme

section
variable {ρ : Nat → Nat → Prop}

namespace Lexeme

/-- Texts that differ in indices only begin with related lexemes, and what follows these differs in indices only. -/
theorem first_renamed {c c' : Char} {rest rest' : Text} (h : Renamed ρ (c :: rest) (c' :: rest')) :
    Alike (fun taken taken' => RenamedLexeme ρ taken.1 taken'.1 ∧ Renamed ρ taken.2 taken'.2) (first c rest) (first c' rest') := by
  cases h with
  | plain hs hs' hrest =>
    rw [first, first]
    split
    · obtain ⟨htake, hdrop⟩ := hrest.run (p := inNumber) (by decide)
      rw [number?, number?, htake]
      cases Decimal.read? (c :: rest.takeWhile inNumber) with
      | none => exact .error _ _
      | some value => exact .ok ⟨.plain (by simp), hdrop⟩
    · split
      · rw [token?, token?, hs, hs']
        exact .error _ _
      · split
        · obtain ⟨htake, hdrop⟩ := hrest.run (p := Char.isAlpha) (by decide)
          rw [command?, command?, htake]
          cases hcommand : ofCommand? (c :: rest.takeWhile Char.isAlpha) with
          | none => exact .error _ _
          | some lexeme => exact .ok ⟨.plain fun i hi => ofCommand?_ne_index _ i (hcommand.trans (congrArg some hi)), hdrop⟩
        · cases hchar : ofChar? c with
          | none => exact .error _ _
          | some lexeme => exact .ok ⟨.plain fun i hi => ofChar?_ne_index _ i (hchar.trans (congrArg some hi)), hrest⟩
  | token hs hs' hread hread' hij hrest =>
    obtain ⟨w, hw⟩ := Token.exists_cons_of_split? hs
    obtain ⟨w', hw'⟩ := Token.exists_cons_of_split? hs'
    obtain ⟨rfl, rfl⟩ := List.cons.inj hw
    obtain ⟨rfl, rfl⟩ := List.cons.inj hw'
    have hfirst : ∀ rest, first '@' rest = token? '@' rest := fun _ => rfl
    rw [hfirst, hfirst, token?, token?, hs, hs']
    simp only [hread, hread']
    exact .ok ⟨.index hij, hrest⟩

/-- Renamed texts are scanned to renamed lexemes. -/
theorem scanAll_renamed {t t' : Text} (h : Renamed ρ t t') :
    Alike (List.Forall₂ (RenamedLexeme ρ)) (scanAll t) (scanAll t') := by
  -- what follows the first lexeme need not be a part of the derivation, so the induction is on the length
  induction hn : t.length using Nat.strong_induction_on generalizing t t' with
  | _ n ih =>
    subst hn
    cases t with
    | nil =>
      obtain rfl := h.eq_of_not_mem (by simp)
      rw [scanAll]
      exact .ok .nil
    | cons c rest =>
      cases t' with
      | nil => cases h.head?
      | cons c' rest' =>
        have hfirst := first_renamed h
        rw [scanAll_cons, scanAll_cons]
        cases htaken : first c rest with
        | error fault =>
          rw [htaken] at hfirst
          generalize first c' rest' = taken' at hfirst
          cases hfirst
          exact .error _ _
        | ok taken =>
          rw [htaken] at hfirst
          generalize first c' rest' = taken' at hfirst
          cases hfirst with
          | ok hfirst =>
            have hlength := length_of_first htaken
            exact (ih _ (Nat.lt_succ_of_le hlength) hfirst.2 rfl).map fun _ _ hmore => .cons hfirst.1 hmore

/-- Leaves that differ in indices only have the same lexemes, apart from these. -/
theorem scan_renamed {t t' : Text} (h : Renamed ρ t t') : Alike (List.Forall₂ (RenamedLexeme ρ)) (scan t) (scan t') := by
  have hall := scanAll_renamed h
  rw [scan, scan]
  generalize scanAll t = found at hall
  generalize scanAll t' = found' at hall
  cases hall with
  | error => exact .error _ _
  | ok hlexemes =>
    cases hlexemes with
    | nil => exact .error _ _
    | cons hlexeme hrest => exact .ok (.cons hlexeme hrest)

variable {l l' : List Lexeme}

/-- Renamed lexemes have the same symbols. -/
theorem symbolChoices_renamed (h : List.Forall₂ (RenamedLexeme ρ) l l') : symbolChoices l = symbolChoices l' := by
  induction h with
  | nil => rfl
  | cons hlexeme _ ih =>
    rw [symbolChoices, symbolChoices] at ih ⊢
    cases hlexeme with
    | index => simpa only [List.filterMap_cons] using ih
    | plain => rw [List.filterMap_cons, List.filterMap_cons, ih]

/-- Renamed lexemes have renamed indices. -/
theorem indices_renamed (hρ : Relator.BiUnique ρ) (h : List.Forall₂ (RenamedLexeme ρ) l l') :
    List.Forall₂ ρ (indices l) (indices l') := by
  refine Token.forall₂_eraseDups hρ (List.rel_filterMap (fun lexeme lexeme' hlexeme => ?_) h)
  cases hlexeme with
  | index hij => exact .some hij
  | @plain lexeme hplain =>
    cases lexeme with
    | index i => exact absurd rfl (hplain i)
    | _ => exact .none

end Lexeme

theorem lookup_zip_of_forall₂ (hρ : Relator.BiUnique ρ) {l l' : List Nat} (h : List.Forall₂ ρ l l') {α : Type} (values : List α)
    {i j : Nat} (hij : ρ i j) : (l.zip values).lookup i = (l'.zip values).lookup j := by
  induction h generalizing values with
  | nil => rfl
  | @cons k k' _ _ hk _ ih =>
    cases values with
    | nil => rfl
    | cons value values =>
      have hbeq : (i == k) = (j == k') := by
        rw [Bool.eq_iff_iff, beq_iff_eq, beq_iff_eq]
        exact Relator.rel_eq hρ hij hk
      rw [List.zip_cons_cons, List.zip_cons_cons, List.lookup_cons, List.lookup_cons, hbeq, ih]

namespace Leaf

/-- Renamed lexemes are resolved alike when renamed indices have the same values. -/
theorem resolve_renamed {values values' : List (Nat × Choice)} {l l' : List Lexeme}
    (hvalues : ∀ i j, ρ i j → .index i ∈ l → .index j ∈ l' → values.lookup i = values'.lookup j)
    (h : List.Forall₂ (RenamedLexeme ρ) l l') (chosen : List Choice) : resolve chosen values l = resolve chosen values' l' := by
  induction h generalizing chosen with
  | nil => rfl
  | @cons lexeme _ l l' hlexeme _ ih =>
    have hrest : ∀ chosen, resolve chosen values l = resolve chosen values' l' := ih fun i j hij hi hj =>
      hvalues i j hij (List.mem_cons_of_mem _ hi) (List.mem_cons_of_mem _ hj)
    cases hlexeme with
    | index hij => rw [resolve, resolve, hvalues _ _ hij List.mem_cons_self List.mem_cons_self, hrest]
    | plain hplain =>
      cases lexeme with
      | index i => exact absurd rfl (hplain i)
      | _ => rw [resolve, resolve, hrest]

/-- Leaves that have the same terms under two combinations have the same value under them, or both none. -/
theorem combine_alike {l l' : List Lexeme} (h : List.Forall₂ (RenamedLexeme ρ) l l') {combination combination' : List Choice}
    (hterms : resolve (combination.take (Lexeme.symbolChoices l).length)
        ((Lexeme.indices l).zip (combination.drop (Lexeme.symbolChoices l).length)) l =
      resolve (combination'.take (Lexeme.symbolChoices l).length)
        ((Lexeme.indices l').zip (combination'.drop (Lexeme.symbolChoices l).length)) l')
    (i j : Nat) (context context' : Text) : Alike Eq (combine i context l combination) (combine j context' l' combination') := by
  simp only [combine, ← Lexeme.symbolChoices_renamed h, ← hterms]
  split
  · exact .error _ _
  · exact .error _ _
  · split
    · exact .ok rfl
    · exact .error _ _

/-- Leaves that differ in indices only have the same value under every choice, or both none. -/
theorem combine_renamed (hρ : Relator.BiUnique ρ) {l l' : List Lexeme} (h : List.Forall₂ (RenamedLexeme ρ) l l') (i j : Nat)
    (context context' : Text) (combination : List Choice) :
    Alike Eq (combine i context l combination) (combine j context' l' combination) :=
  combine_alike h (resolve_renamed (fun _ _ hij _ _ => lookup_zip_of_forall₂ hρ (Lexeme.indices_renamed hρ h)
    (combination.drop (Lexeme.symbolChoices l).length) hij) h (combination.take (Lexeme.symbolChoices l).length)) i j context context'

end Leaf

namespace Evaluation

/-- What is known of the nodes of one dag can be written down for the corresponding nodes of another. -/
theorem exists_along {α : Type} [Inhabited α] (hρ : Relator.LeftUnique ρ) (found : Nat → α) :
    ∃ found' : Nat → α, ∀ i j, ρ i j → found i = found' j := by
  classical
  refine ⟨fun j => if h : ∃ i, ρ i j then found h.choose else default, fun i j hij => ?_⟩
  have hex : ∃ i, ρ i j := ⟨i, hij⟩
  simp only [dif_pos hex, hρ hij hex.choose_spec]

variable {found found' : Nat → Branches}

/-- Renamed leaves have alike values. -/
theorem sumValue_renamed (hρ : Relator.BiUnique ρ) (hfound : ∀ i j, ρ i j → found i = found' j) {context context' : Text}
    (h : Renamed ρ context context') (i j : Nat) : Alike Eq (sumValue found i context) (sumValue found' j context') := by
  have hscan := Lexeme.scan_renamed h
  rw [sumValue_eq, sumValue_eq]
  generalize Lexeme.scan context = lexemes at hscan
  generalize Lexeme.scan context' = lexemes' at hscan
  cases hscan with
  | error => exact .error _ _
  | @ok lexemes lexemes' hlexemes =>
    have hbranches : (Lexeme.indices lexemes).map (fun k => (found k).map Choice.number) =
        (Lexeme.indices lexemes').map fun k => (found' k).map Choice.number := by
      rw [← List.forall₂_eq_eq_eq]
      exact List.rel_map (fun k k' hk => congrArg (List.map Choice.number) (hfound k k' hk)) (Lexeme.indices_renamed hρ hlexemes)
    simp only [Leaf.axes, ← Lexeme.symbolChoices_renamed hlexemes, ← hbranches]
    exact .mapM_self fun combination _ => Leaf.combine_renamed hρ hlexemes i j context context' combination

section
variable {operands operands' : List (Option Operand)}

theorem axes_renamed (hfound : ∀ i j, ρ i j → found i = found' j)
    (h : List.Forall₂ (Option.Rel (RenamedOperand ρ)) operands operands') : axes found operands = axes found' operands' := by
  induction h with
  | nil => rfl
  | cons hoperand _ ih =>
    rcases hoperand with ⟨_ | hij | _⟩ | _
    · exact ih
    · rw [axes, axes, hfound _ _ hij, ih]
    · exact ih
    · exact ih

theorem fill_renamed (h : List.Forall₂ (Option.Rel (RenamedOperand ρ)) operands operands') (combination : List Float) :
    fill operands combination = fill operands' combination := by
  induction h generalizing combination with
  | nil => rfl
  | cons hoperand _ ih =>
    rcases hoperand with ⟨_ | hij | _⟩ | _
    · exact congrArg _ (ih combination)
    · cases combination with
      | nil => exact congrArg _ (ih [])
      | cons x combination => exact congrArg _ (ih combination)
    · exact congrArg _ (ih combination)
    · exact congrArg _ (ih combination)

theorem unreduced?_renamed (slots : List Slot) (h : List.Forall₂ (Option.Rel (RenamedOperand ρ)) operands operands') :
    unreduced? slots operands = unreduced? slots operands' := by
  induction h generalizing slots with
  | nil => cases slots <;> rfl
  | cons hoperand _ ih =>
    cases slots with
    | nil => rfl
    | cons slot slots =>
      rcases hoperand with ⟨_ | hij | _⟩ | _
      · exact ih slots
      · exact ih slots
      · rfl
      · exact ih slots

end

/-- Renamed occurrences have alike values. -/
theorem ruleValue_renamed (s : RuleSet) (hfound : ∀ i j, ρ i j → found i = found' j) {o o' : Occurrence}
    (h : RenamedOccurrence (RenamedOperand ρ) o o') (i j : Nat) : Alike Eq (ruleValue s found i o) (ruleValue s found' j o') := by
  rw [ruleValue_eq, ruleValue_eq, ← h.rule, ← h.selector]
  cases s.get? o.rule with
  | none => exact .error _ _
  | some r =>
    simp only [← unreduced?_renamed r.slots h.operands, ← axes_renamed hfound h.operands, ← fill_renamed h.operands]
    cases unreduced? r.slots o.operands with
    | some slot => exact .error _ _
    | none => exact .refl _ fun _ => rfl

end Evaluation

/-- Kinds of nodes that are the same, apart from the indices among operands. -/
inductive RenamedKind (ρ : Nat → Nat → Prop) : NodeKind → NodeKind → Prop where
  | variable (position : Nat) : RenamedKind ρ (.variable position) (.variable position)
  | rule {o o' : Occurrence} (h : RenamedOccurrence (RenamedOperand ρ) o o') : RenamedKind ρ (.rule o) (.rule o')
  | sum : RenamedKind ρ .sum .sum

/-- Nodes that are the same, apart from indices. -/
structure RenamedNode (ρ : Nat → Nat → Prop) (n n' : Node) : Prop where
  kind : RenamedKind ρ n.kind n'.kind
  context : Renamed ρ n.context n'.context
  dependencies : List.Forall₂ ρ n.dependencies n'.dependencies

/-- Dags in which nodes with related numbers are the same, apart from indices. -/
structure RenamedDag (ρ : Nat → Nat → Prop) (d d' : Dag) : Prop where
  unique : Relator.BiUnique ρ
  nodes : ∀ i j, ρ i j → Option.Rel (RenamedNode ρ) (d.node? i) (d'.node? j)

namespace Dag

/-- Renamed texts are the same letter or none. -/
theorem letterPosition?_renamed (letters : List Char) {t t' : Text} (h : Renamed ρ t t') :
    letterPosition? letters t = letterPosition? letters t' := by
  have htoken : ∀ {t digits u : Text}, Token.split? t = some (digits, u) → letterPosition? letters t = none := by
    intro t digits u hs
    rw [Token.split?_eq_some hs]
    rfl
  cases h with
  | nil => rfl
  | plain hs hs' hrest =>
    cases hrest with
    | nil => rfl
    | plain => rfl
    | token hs hs' =>
      obtain ⟨w, rfl⟩ := Token.exists_cons_of_split? hs
      obtain ⟨w', rfl⟩ := Token.exists_cons_of_split? hs'
      rfl
  | token hs hs' => rw [htoken hs, htoken hs']

/-- Contexts that differ in indices only are evaluated in the same way. -/
theorem kindOf_renamed (s : RuleSet) (letters : List Char) {t t' : Text} (h : Renamed ρ t t') :
    Alike (RenamedKind ρ) (kindOf s letters t) (kindOf s letters t') := by
  rw [kindOf, kindOf, letterPosition?_renamed letters h]
  cases letterPosition? letters t' with
  | some position => exact .ok (.variable position)
  | none =>
    have hresolve := s.resolve_alike h
    generalize s.resolve t = found at hresolve
    generalize s.resolve t' = found' at hresolve
    cases hresolve with
    | error => exact .error _ _
    | ok ho =>
      cases ho with
      | some ho => exact .ok (.rule ho)
      | none => exact .ok .sum

/-- Contexts that differ in indices only have nodes that do. -/
theorem nodeOf_renamed (s : RuleSet) (letters : List Char) (hρ : Relator.BiUnique ρ) {t t' : Text} (h : Renamed ρ t t') :
    Alike (RenamedNode ρ) (nodeOf s letters t) (nodeOf s letters t') :=
  (kindOf_renamed s letters h).map fun _ _ hkind => ⟨hkind, h, h.references hρ⟩

end Dag

namespace Evaluation

variable {e e' : Evaluation}

/-- Nodes of the same kind, apart from indices, have the same branches if they have them as sums. -/
theorem nodeValue_alike (hrules : e.rules = e'.rules) (hprecision : e.precision = e'.precision) (values : List Float)
    {found found' : Nat → Branches} (hfound : ∀ i j, ρ i j → found i = found' j) {n n' : Node} (hkind : RenamedKind ρ n.kind n'.kind)
    {i j : Nat} (hsum : Alike Eq (sumValue found i n.context) (sumValue found' j n'.context)) :
    Alike Eq (e.nodeValue values found i n) (e'.nodeValue values found' j n') := by
  rw [nodeValue, nodeValue, hprecision]
  refine Alike.map (R := Eq) ?_ fun _ _ hbranches => congrArg (Branches.normalForm e'.precision) hbranches
  generalize n.kind = kind at hkind
  generalize n'.kind = kind' at hkind
  cases hkind with
  | «variable» position =>
    simp only
    cases values[position]? with
    | none => exact .error _ _
    | some x => exact .ok rfl
  | rule ho => exact hrules ▸ ruleValue_renamed e.rules hfound ho i j
  | sum => exact hsum

/-- Nodes that differ in indices only have the same branches, given those of the nodes they depend on. -/
theorem nodeValue_renamed (hrules : e.rules = e'.rules) (hprecision : e.precision = e'.precision) (values : List Float)
    (hρ : Relator.BiUnique ρ) {found found' : Nat → Branches} (hfound : ∀ i j, ρ i j → found i = found' j) {n n' : Node}
    (h : RenamedNode ρ n n') (i j : Nat) : Alike Eq (e.nodeValue values found i n) (e'.nodeValue values found' j n') :=
  nodeValue_alike hrules hprecision values hfound h.kind (sumValue_renamed hρ hfound h.context i j)

/-- Dependencies that succeed along one dag succeed along the other, with the branches written down there. -/
theorem computes_of_forall₂ {values : List Float} {found found' : Nat → Branches} (hfound : ∀ i j, ρ i j → found i = found' j)
    {l l' : List Nat} (h : List.Forall₂ ρ l l')
    (hl : ∀ k ∈ l, ∀ {k' : Nat}, ρ k k' →
      ∃ r', e'.Computes values k' r' ∧ Alike Eq (.ok (found k) : Except EvaluationFault Branches) r') :
    ∀ k' ∈ l', e'.Computes values k' (.ok (found' k')) := by
  induction h with
  | nil => simp
  | @cons k k' _ _ hk _ ih =>
    refine List.forall_mem_cons.2 ⟨?_, ih fun k hk => hl k (List.mem_cons_of_mem _ hk)⟩
    obtain ⟨r', hr', halike⟩ := hl k (by simp) hk
    cases halike with
    | ok heq => exact hfound k k' hk ▸ heq ▸ hr'

/-- What recursion computes along one dag it computes along the other. -/
theorem Computes.renamed (hrules : e.rules = e'.rules) (hprecision : e.precision = e'.precision) (hdag : RenamedDag ρ e.dag e'.dag)
    {values : List Float} {i : Nat} {r : Except EvaluationFault Branches} (h : e.Computes values i r) {j : Nat} (hij : ρ i j) :
    ∃ r', e'.Computes values j r' ∧ Alike Eq r r' := by
  induction h generalizing j with
  | @missing i hn =>
    rcases rel_cases (hdag.nodes i j hij) with ⟨-, hn'⟩ | ⟨n, n', hsome, -, -⟩
    · exact ⟨_, .missing hn', .error _ _⟩
    · cases hn.symm.trans hsome
  | @failing i k n before after found fault hn hsplit _ _ ihbefore ihk =>
    rcases rel_cases (hdag.nodes i j hij) with ⟨hnone, -⟩ | ⟨_, n', hsome, hn', hnode⟩
    · cases hn.symm.trans hnone
    · obtain rfl := Option.some.inj (hn.symm.trans hsome)
      obtain ⟨found', hfound⟩ := exists_along hdag.unique.1 found
      have hdependencies := hnode.dependencies.flip
      rw [hsplit] at hdependencies
      have hbefore := (List.forall₂_take_append _ _ _ hdependencies).flip
      obtain ⟨k', after', hk, -, hafter⟩ := List.forall₂_cons_right_iff.1 (List.forall₂_drop_append _ _ _ hdependencies)
      have hsplit' : n'.dependencies = n'.dependencies.take before.length ++ k' :: after' := by
        rw [← hafter, List.take_append_drop]
      obtain ⟨r', hr', halike⟩ := ihk hk
      cases halike with
      | error fault fault' =>
        exact ⟨_, .failing hn' hsplit' (computes_of_forall₂ hfound hbefore ihbefore) hr', .error _ _⟩
  | @value i n found hn _ ih =>
    rcases rel_cases (hdag.nodes i j hij) with ⟨hnone, -⟩ | ⟨_, n', hsome, hn', hnode⟩
    · cases hn.symm.trans hnone
    · obtain rfl := Option.some.inj (hn.symm.trans hsome)
      obtain ⟨found', hfound⟩ := exists_along hdag.unique.1 found
      exact ⟨_, .value hn' (computes_of_forall₂ hfound hnode.dependencies ih),
        nodeValue_renamed hrules hprecision values hdag.unique hfound hnode i j⟩

end Evaluation

end

end FormulaDag
