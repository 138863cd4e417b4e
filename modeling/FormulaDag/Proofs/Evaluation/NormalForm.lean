import FormulaDag.Proofs.Decimal.Nonzero
import FormulaDag.Proofs.Evaluation.Overflow
import FormulaDag.Proofs.Evaluation.Recursion

/-!
# The normal form of results

Values are sorted in the total order of doubles, and neighbours are merged when they are equal as numbers. Two values that differ in one
order and not in the other are the two zeros, and normalizing leaves but one of them. So a normal form has every normalized value once
and in ascending order, and whatever a memo holds is of this form, and not empty, after any number of evaluations.
-/

namespace FormulaDag

open Doubles

namespace Branches

/-! ## Sorting and merging -/

/-- Merging equal neighbours loses no value. -/
theorem mem_eraseReps {l : Branches} (hl : ∀ x ∈ l, Ordinary x) {x : Float} : x ∈ l.eraseReps ↔ x ∈ l := by
  cases l with
  | nil => rfl
  | cons y l =>
    induction l generalizing y with
    | nil => rfl
    | cons z l ih =>
      rw [eraseReps_cons_cons]
      split
      · rename_i heq
        obtain rfl := (beq_iff_eq (hl y (by simp)) (hl z (by simp))).1 heq
        rw [ih y fun x hx => hl x (List.mem_cons_of_mem _ hx)]
        simp
      · rw [List.mem_cons, ih z fun x hx => hl x (List.mem_cons_of_mem _ hx), List.mem_cons (a := x) (b := y)]

/-- Ascending values with equal neighbours merged are strictly ascending. -/
theorem pairwise_eraseReps {l : Branches} (hl : ∀ x ∈ l, Ordinary x) (hsorted : l.Pairwise fun x y => rank x ≤ rank y) :
    l.eraseReps.Pairwise fun x y => rank x < rank y := by
  cases l with
  | nil => exact .nil
  | cons y l =>
    induction l generalizing y with
    | nil => exact List.pairwise_singleton _ _
    | cons z l ih =>
      have htail := List.pairwise_cons.1 hsorted
      rw [eraseReps_cons_cons]
      split
      · exact ih y (fun x hx => hl x (by simp at hx ⊢; tauto)) (hsorted.sublist (by simp))
      · rename_i hne
        have hlt : rank y < rank z := by
          refine lt_of_le_of_ne (htail.1 z (by simp)) fun heq => hne ?_
          exact (beq_iff_eq (hl y (by simp)) (hl z (by simp))).2 (eq_of_rank heq)
        have hordinary : ∀ x ∈ z :: l, Ordinary x := fun x hx => hl x (List.mem_cons_of_mem _ hx)
        refine List.pairwise_cons.2 ⟨fun x hx => ?_, ih z hordinary htail.2⟩
        rcases List.mem_cons.1 ((mem_eraseReps hordinary).1 hx) with rfl | hx
        · exact hlt
        · exact hlt.trans_le ((List.pairwise_cons.1 htail.2).1 x hx)

/-! ## Normalized values -/

/-- Normalizing gives a number or an infinity for one. -/
theorem not_isNaN_normalize_of_not_isNaN {x : Float} (hx : x.isNaN = false) (precision : Nat) : (normalize precision x).isNaN = false := by
  cases hfinite : x.isFinite with
  | true => exact not_isNaN_normalize hfinite precision
  | false =>
    rw [normalize, beq_zero_of_not_finite hfinite, hfinite]
    exact hx

/-- Whatever is normalized, the result is not the negative zero. -/
theorem normalize_ne (precision : Nat) (x : Float) : normalize precision x ≠ -0.0 := by
  have hunpack : (-0.0 : Float).toModel.unpack = .zero .negative := rfl
  rw [normalize]
  split_ifs with hzero hfinite
  · decide
  · intro heq
    have hnonzero := (Binary.perceptible_toSignificant hfinite (Bool.eq_false_iff.2 hzero) precision).nonzero_toFloat
    rw [heq] at hnonzero
    exact hnonzero .negative hunpack
  · rintro rfl
    exact hzero rfl

/-- Normalizing gives no negative zero. -/
theorem ordinary_normalize {x : Float} (hx : x.isNaN = false) (precision : Nat) : Ordinary (normalize precision x) :=
  ⟨not_isNaN_normalize_of_not_isNaN hx precision, normalize_ne precision x⟩

section
variable {precision : Nat} {values : Branches} (hvalues : ∀ v ∈ values, v.isNaN = false)
include hvalues

/-- Sorted normalized values are ordinary. -/
theorem ordinary_of_mem_mergeSort : ∀ x ∈ (values.map (normalize precision)).mergeSort ranksBelow, Ordinary x := by
  intro x hx
  obtain ⟨v, hv, rfl⟩ := List.mem_map.1 (List.mem_mergeSort.1 hx)
  exact ordinary_normalize (hvalues v hv) precision

/-- A normal form has the normalized values and no others. -/
theorem mem_normalForm {x : Float} : x ∈ normalForm precision values ↔ ∃ v ∈ values, normalize precision v = x := by
  rw [normalForm, mem_eraseReps (ordinary_of_mem_mergeSort hvalues), List.mem_mergeSort, List.mem_map]

/-- A normal form ascends strictly. -/
theorem pairwise_rank_normalForm : (normalForm precision values).Pairwise fun x y => rank x < rank y := by
  refine pairwise_eraseReps (ordinary_of_mem_mergeSort hvalues) ?_
  refine (List.pairwise_mergeSort ?_ ?_ _).imp fun h => of_decide_eq_true h
  · intro x y z hxy hyz
    exact decide_eq_true ((of_decide_eq_true hxy).trans (of_decide_eq_true hyz))
  · intro x y
    simp only [Bool.or_eq_true, decide_eq_true_eq]
    exact le_total _ _

/-- The values of a normal form are ordinary. -/
theorem ordinary_of_mem_normalForm {x : Float} (hx : x ∈ normalForm precision values) : Ordinary x := by
  obtain ⟨v, hv, rfl⟩ := (mem_normalForm hvalues).1 hx
  exact ordinary_normalize (hvalues v hv) precision

/-- A normal form ascends. -/
theorem pairwise_normalForm : (normalForm precision values).Pairwise (· < ·) :=
  (pairwise_rank_normalForm hvalues).imp_of_mem fun hx hy h =>
    (lt_iff_rank (ordinary_of_mem_normalForm hvalues hx) (ordinary_of_mem_normalForm hvalues hy)).2 h

/-- A normal form has no value twice. -/
theorem nodup_normalForm : (normalForm precision values).Nodup :=
  (pairwise_rank_normalForm hvalues).imp fun hlt heq => hlt.ne (congrArg rank heq)

/-- A normal form depends on which values there are, not on their order or how often they occur. -/
theorem normalForm_congr {others : Branches} (h : ∀ v, v ∈ others ↔ v ∈ values) :
    normalForm precision others = normalForm precision values := by
  have hothers : ∀ v ∈ others, v.isNaN = false := fun v hv => hvalues v ((h v).1 hv)
  have : Std.Irrefl fun x y : Float => rank x < rank y := ⟨fun x => lt_irrefl _⟩
  have : Std.Antisymm fun x y : Float => rank x < rank y := ⟨fun x y hxy hyx => absurd hxy hyx.asymm⟩
  refine (pairwise_rank_normalForm hothers).eq_of_mem_iff (pairwise_rank_normalForm hvalues) fun x => ?_
  rw [mem_normalForm hothers, mem_normalForm hvalues]
  simp only [h]

end

/-- A result as it is kept: at least one value, ascending, no two the same, and no negative zero. -/
structure IsNormal (result : Branches) : Prop where
  nonempty : result ≠ []
  ascending : result.Pairwise (· < ·)
  distinct : result.Nodup
  positive : -0.0 ∉ result

/-- The normal form of some values is normal. -/
theorem isNormal_normalForm {precision : Nat} {values : Branches} (hvalues : ∀ v ∈ values, v.isNaN = false) (h : values ≠ []) :
    (normalForm precision values).IsNormal where
  nonempty := by
    obtain ⟨v, hv⟩ := List.exists_mem_of_ne_nil values h
    exact List.ne_nil_of_mem ((mem_normalForm hvalues).2 ⟨v, hv, rfl⟩)
  ascending := pairwise_normalForm hvalues
  distinct := nodup_normalForm hvalues
  positive := fun hmem => (ordinary_of_mem_normalForm hvalues hmem).2 rfl

end Branches

/-! ## No result is empty -/

namespace Combination

/-- Lists that are not empty have a combination. -/
theorem product_ne_nil {α : Type} {lists : List (List α)} (h : ∀ list ∈ lists, list ≠ []) : product lists ≠ [] := by
  induction lists with
  | nil => exact List.cons_ne_nil _ _
  | cons list lists ih =>
    obtain ⟨x, hx⟩ := List.exists_mem_of_ne_nil list (h list List.mem_cons_self)
    obtain ⟨rest, hrest⟩ := List.exists_mem_of_ne_nil _ (ih fun l hl => h l (List.mem_cons_of_mem _ hl))
    exact List.ne_nil_of_mem (List.mem_flatMap.2 ⟨x, hx, List.mem_map_of_mem hrest⟩)

/-- A map over choices has a value when each list has an element to choose. -/
theorem mapChoices_ne_nil {ε α β : Type} {choices : List (List α)} {f : List α → Except ε β} {values : List β}
    (h : ∀ list ∈ choices, list ≠ []) (hvalues : mapChoices choices f = .ok values) : values ≠ [] := by
  rw [mapChoices_eq_mapM, mapM_eq_ok_iff] at hvalues
  rintro rfl
  exact product_ne_nil h (List.map_eq_nil_iff.1 hvalues)

end Combination

namespace Lexeme

/-- Whatever holds of the first lexeme of any text holds of all lexemes. -/
theorem forall_mem_of_scanAll {P : Lexeme → Prop} (hfirst : ∀ c rest lexeme after, first c rest = .ok (lexeme, after) → P lexeme)
    {t : Text} {lexemes : List Lexeme} (h : scanAll t = .ok lexemes) : ∀ lexeme ∈ lexemes, P lexeme := by
  induction hn : t.length using Nat.strong_induction_on generalizing t lexemes with
  | _ n ih =>
    subst hn
    cases t with
    | nil =>
      rw [scanAll] at h
      obtain rfl := Except.ok.inj h
      simp
    | cons c rest =>
      rw [scanAll_cons] at h
      obtain ⟨⟨lexeme, after⟩, hlexeme, h⟩ := bind_eq_ok.1 h
      obtain ⟨more, hmore, rfl⟩ := map_eq_ok.1 h
      exact List.forall_mem_cons.2 ⟨hfirst c rest lexeme after hlexeme,
        ih _ (Nat.lt_succ_of_le (length_of_first hlexeme)) hmore rfl⟩

/-- Every symbol has a meaning. -/
theorem choices_ne_nil_of_ofCommand? {command : Text} {choices : List Choice} (h : ofCommand? command = some (symbol choices)) :
    choices ≠ [] := by
  have htable : ∀ entry ∈ Symbol.table, entry.2 ≠ [] := by decide
  rw [ofCommand?] at h
  split_ifs at h
  · cases h
  · obtain ⟨found, hfound, heq⟩ := Option.map_eq_some_iff.1 h
    obtain ⟨entry, hentry, rfl⟩ := Option.map_eq_some_iff.1 hfound
    obtain rfl := symbol.inj heq
    exact htable entry (List.mem_of_find?_eq_some hentry)

/-- No single character is read as a symbol. -/
theorem ofChar?_ne_symbol (c : Char) (choices : List Choice) : ofChar? c ≠ some (symbol choices) := by
  rw [ofChar?]
  split_ifs
  · simp
  · simp
  · intro h
    obtain ⟨operator, -, heq⟩ := Option.map_eq_some_iff.1 h
    cases heq

/-- A symbol has at least one choice. -/
theorem choices_ne_nil_of_first {c : Char} {rest after : Text} {choices : List Choice} (h : first c rest = .ok (symbol choices, after)) :
    choices ≠ [] := by
  simp only [first, number?, token?, command?] at h
  repeat' split at h
  all_goals simp only [Except.ok.injEq, Prod.mk.injEq, reduceCtorEq, false_and] at h
  · rename_i hlexeme
    exact choices_ne_nil_of_ofCommand? (h.1 ▸ hlexeme)
  · rename_i hlexeme
    exact absurd (h.1 ▸ hlexeme) (ofChar?_ne_symbol c choices)

/-- The symbols of a text have at least one choice each. -/
theorem ne_nil_of_mem_symbolChoices {t : Text} {lexemes : List Lexeme} (h : scanAll t = .ok lexemes) :
    ∀ choices ∈ symbolChoices lexemes, choices ≠ [] := by
  intro choices hchoices
  obtain ⟨lexeme, hmem, heq⟩ := List.mem_filterMap.1 hchoices
  have hlexeme : lexeme = symbol choices := by
    cases lexeme <;> simp_all
  exact forall_mem_of_scanAll (P := fun lexeme => ∀ choices, lexeme = symbol choices → choices ≠ [])
    (fun _ _ _ _ hfirst _ heq => choices_ne_nil_of_first (heq ▸ hfirst)) h lexeme hmem choices hlexeme

end Lexeme

/-- What is gathered was found for some index. -/
theorem Leaf.exists_of_mem_gather {lookup : Nat → Option Branches} {l : List Nat} {found : List Branches} (h : gather lookup l = .ok found) :
    ∀ list ∈ found, ∃ j, lookup j = some list := by
  induction l generalizing found with
  | nil =>
    obtain rfl := Except.ok.inj h
    simp
  | cons j l ih =>
    rw [gather] at h
    split at h
    · cases h
    · rename_i values hvalues
      obtain ⟨rest, hrest, rfl⟩ := map_eq_ok.1 h
      exact List.forall_mem_cons.2 ⟨⟨j, hvalues⟩, ih hrest⟩

namespace Evaluation

section
variable {s : RuleSet} {i : Nat} {lookup : Nat → Option Branches} (hlookup : ∀ j found, lookup j = some found → found ≠ [])
include hlookup

/-- An operand that is read has at least one choice. -/
theorem operandChoices_ne_nil {rule : String} {slot : Slot} {operand : Option Operand} {choices : List (Option Float)}
    (h : operandChoices i rule lookup slot operand = .ok choices) : choices ≠ [] := by
  rw [operandChoices.eq_def] at h
  split at h
  · exact Except.ok.inj h ▸ List.cons_ne_nil _ _
  · exact Except.ok.inj h ▸ List.cons_ne_nil _ _
  · split at h
    · rename_i found hfound
      exact Except.ok.inj h ▸ mt List.map_eq_nil_iff.1 (hlookup _ found hfound)
    · cases h
  · cases h

/-- A rule node that is computed has at least one value. -/
theorem ruleBranches_ne_nil {o : Occurrence} {values : Branches} (h : ruleBranches s i o lookup = .ok values) : values ≠ [] := by
  rw [ruleBranches] at h
  split at h
  · cases h
  · split at h
    · cases h
    · rename_i choices hchoices
      refine Combination.mapChoices_ne_nil (fun list hlist => ?_) h
      obtain ⟨⟨slot, operand⟩, -, hoperand⟩ := exists_of_mem_mapM hchoices hlist
      exact operandChoices_ne_nil hlookup hoperand

/-- A leaf that is computed has at least one value. -/
theorem leafBranches_ne_nil {context : Text} {values : Branches} (h : Leaf.branches i context lookup = .ok values) : values ≠ [] := by
  rw [Leaf.branches] at h
  split at h
  · cases h
  · rename_i lexemes hscan
    split at h
    · cases h
    · rename_i found hfound
      refine Combination.mapChoices_ne_nil (fun list hlist => ?_) h
      rcases List.mem_append.1 hlist with hlist | hlist
      · refine Lexeme.ne_nil_of_mem_symbolChoices (t := context) ?_ list hlist
        rw [Lexeme.scan] at hscan
        split at hscan
        · cases hscan
        · exact hscan
      · obtain ⟨branches, hbranches, rfl⟩ := List.mem_map.1 hlist
        obtain ⟨j, hj⟩ := Leaf.exists_of_mem_gather hfound branches hbranches
        exact mt List.map_eq_nil_iff.1 (hlookup j branches hj)

/-- A node has a value when the nodes that it reads have. -/
theorem rawBranches_ne_nil {values : List Float} {n : Node} {result : Branches} (h : rawBranches s values i n lookup = .ok result) :
    result ≠ [] := by
  rw [rawBranches] at h
  split at h
  · split at h
    · exact Except.ok.inj h ▸ List.cons_ne_nil _ _
    · cases h
  · exact ruleBranches_ne_nil hlookup h
  · exact leafBranches_ne_nil hlookup h

end

/-- The result of a node is in normal form when those that it reads are. -/
theorem isNormal_nodeBranches {s : RuleSet} {precision : Nat} {values : List Float} (hvalues : ∀ x ∈ values, x.isFinite = true) {i : Nat}
    {n : Node} {lookup : Nat → Option Branches} (hlookup : ∀ j found, lookup j = some found → found.IsNormal) {result : Branches}
    (h : nodeBranches s precision values i n lookup = .ok result) : result.IsNormal := by
  obtain ⟨raw, hraw, rfl⟩ := map_eq_ok.1 h
  exact Branches.isNormal_normalForm (fun v hv => not_isNaN_of_isFinite (isFinite_rawBranches hvalues hraw v hv))
    (rawBranches_ne_nil (fun j found hfound => (hlookup j found hfound).nonempty) hraw)

end Evaluation

namespace Evaluation

/-- The memos of a dag after any number of evaluations for finite values, each with or without success. -/
inductive Arises (d : Dag) (rules : RuleSet) : Memo → Prop where
  | empty : Arises d rules (.empty d.size)
  | evaluated {m : Memo} (hm : Arises d rules m) (precision : Nat) {values : List Float} (hvalues : ∀ x ∈ values, x.isFinite = true)
      (target : Nat) : Arises d rules (evaluate ⟨d, rules, precision⟩ (.ofValues values) target m).2

/-- Evaluating keeps normal forms only, also when it fails, and answers with one. -/
theorem holds_isNormal_evaluate {e : Evaluation} {a : Valuation} (hvalues : ∀ x ∈ a.values, x.isFinite = true) (target : Nat) {m : Memo}
    (hm : m.Holds Branches.IsNormal) : (e.evaluate a target m).2.Holds Branches.IsNormal ∧
      ∀ result, (e.evaluate a target m).1 = .ok result → Branches.IsNormal result :=
  holds_evaluate (fun _ _ _ _ hlookup hresult => isNormal_nodeBranches hvalues hlookup hresult) target hm

/-- Whatever arises by evaluation keeps normal results only. -/
theorem Arises.holds {d : Dag} {rules : RuleSet} {m : Memo} (h : Arises d rules m) : m.Holds Branches.IsNormal := by
  induction h with
  | empty => exact fun entry hentry => by cases hentry
  | evaluated _ precision hvalues target ih => exact (holds_isNormal_evaluate (a := .ofValues _) hvalues target ih).1

/-- Results are in normal form. For numbers and infinities this form is determined by which values there are: it has each normalized
value once, in ascending order. And every result that a memo keeps, or that an evaluation answers with, is in this form and not empty,
whatever was evaluated before with or without success. -/
theorem normal_results (d : Dag) (rules : RuleSet) :
    (∀ (precision : Nat) (values : Branches), (∀ v ∈ values, v.isNaN = false) →
      (Branches.normalForm precision values).Pairwise (· < ·) ∧ (Branches.normalForm precision values).Nodup ∧
        (∀ x, x ∈ Branches.normalForm precision values ↔ ∃ v ∈ values, Branches.normalize precision v = x) ∧
        ∀ others : Branches, (∀ v, v ∈ others ↔ v ∈ values) →
          Branches.normalForm precision others = Branches.normalForm precision values) ∧
      ∀ m, Arises d rules m → (∀ entry ∈ m.entries, Branches.IsNormal entry.2) ∧
        ∀ (precision : Nat) (values : List Float), (∀ x ∈ values, x.isFinite = true) → ∀ (target : Nat) (result : Branches),
          (evaluate ⟨d, rules, precision⟩ (.ofValues values) target m).1 = .ok result → result.IsNormal := by
  constructor
  · intro precision values hvalues
    exact ⟨Branches.pairwise_normalForm hvalues, Branches.nodup_normalForm hvalues, fun x => Branches.mem_normalForm hvalues,
      fun others => Branches.normalForm_congr hvalues⟩
  · intro m hm
    exact ⟨hm.holds, fun precision values hvalues target =>
      (holds_isNormal_evaluate (a := .ofValues values) hvalues target hm.holds).2⟩

/-- Values that differ in their last digit only are merged, and a division by zero leaves results for the next one. -/
theorem normal_results_ratio :
    0.3 ∈ Branches.normalForm 15 [5.0, 3.0, 0.1 + 0.2, 0.3, 3.0] ∧
      0.1 + 0.2 ∉ Branches.normalForm 15 [5.0, 3.0, 0.1 + 0.2, 0.3, 3.0] ∧
      (∀ entry ∈ (evaluate ⟨ratioDag, .standard, 15⟩ (.ofValues [0.0]) 0 (.empty 2)).2.entries, Branches.IsNormal entry.2) ∧
      (evaluate ⟨ratioDag, .standard, 15⟩ (.ofValues [1.5]) 0 (.empty 2)).1 = .ok [1.0] ∧ Branches.IsNormal [1.0] := by
  obtain ⟨hform, hkept⟩ := normal_results ratioDag .standard
  obtain ⟨-, -, hmem, -⟩ := hform 15 [5.0, 3.0, 0.1 + 0.2, 0.3, 3.0] (by decide +kernel)
  have hone : (evaluate ⟨ratioDag, .standard, 15⟩ (.ofValues [1.5]) 0 (.empty 2)).1 = .ok [1.0] :=
    computes_ratio_nonzero.2.evaluate_eq (by cbv) (by decide) build_ratio
  have hfailed : Arises ratioDag .standard (evaluate ⟨ratioDag, .standard, 15⟩ (.ofValues [0.0]) 0 (.empty 2)).2 :=
    .evaluated .empty 15 (by decide +kernel) 0
  refine ⟨(hmem _).2 (by decide +kernel), fun h => ?_, ?_, hone, ?_⟩
  · exact absurd ((hmem _).1 h) (by decide +kernel)
  · exact (hkept _ hfailed).1
  · exact (hkept _ .empty).2 15 [1.5] (by decide +kernel) 0 [1.0] hone

end Evaluation

end FormulaDag
