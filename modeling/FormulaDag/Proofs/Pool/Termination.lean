import FormulaDag.Proofs.Pool.Draining
import FormulaDag.Proofs.Pool.OfSource

/-!
# Reduction terminates

Reduction is described here once more as it runs when nothing bounds its loops, by relations between a state and the outcome that is
reached from it. On a pool of a source text without fault there is one outcome, and it is the one that reduction with its bounds
computes: no bound is ever reached.
-/

namespace FormulaDag

/-- A rule rests in a text when it is found nowhere in it, or in all of it. -/
theorem Rule.rests_iff_find {r : Rule} {id : Nat} {t : Text} : r.rests id t = true ↔
    r.find id t = .ok none ∨ ∃ o, r.find id t = .ok (some o) ∧ o.isWhole t = true := by
  rw [Rule.rests, Rule.find]
  cases r.locate id t with
  | error fault => simp [Except.map]
  | ok found => cases found <;> simp [Except.map]

/-- A rule that fails on a text does not rest in it. -/
theorem Rule.rests_of_error {r : Rule} {id : Nat} {t : Text} {fault : OperandFault} (h : r.locate id t = .error fault) :
    r.rests id t = false := by rw [Rule.rests, h]

/-- A rule that finds something rests in a text when that is the whole of it. -/
theorem Rule.rests_of_located {r : Rule} {id : Nat} {t : Text} {l : Located} (h : r.locate id t = .ok (some l)) :
    r.rests id t = l.occurrence.isWhole t := by rw [Rule.rests, h]

namespace Pool

/-- The loop over one rule at an index: the rule is applied until it fails or rests, or until the index holds no text any more. -/
inductive ExhaustsTo (i : Nat) (e : Nat × Rule) : Progress → Except OperandFault Progress → Prop
  | rest {s : Progress} (h : s.pool.holds i = true → e.2.rests e.1 (s.pool.text i) = true) : ExhaustsTo i e s (.ok s)
  | fault {s : Progress} {fault : OperandFault} (hi : s.pool.holds i = true)
      (hl : e.2.locate e.1 (s.pool.text i) = .error fault) : ExhaustsTo i e s (.error fault)
  | extract {s : Progress} {l : Located} {outcome : Except OperandFault Progress} (hi : s.pool.holds i = true)
      (hl : e.2.locate e.1 (s.pool.text i) = .ok (some l)) (hpart : l.occurrence.isWhole (s.pool.text i) = false)
      (h : ExhaustsTo i e (s.extract i l) outcome) : ExhaustsTo i e s outcome

/-- The loop over the rules at an index, up to the first fault. -/
inductive TriesTo (i : Nat) : List (Nat × Rule) → Progress → Except OperandFault Progress → Prop
  | nil {s : Progress} : TriesTo i [] s (.ok s)
  | fault {e : Nat × Rule} {rest : List (Nat × Rule)} {s : Progress} {fault : OperandFault} (h : ExhaustsTo i e s (.error fault)) :
      TriesTo i (e :: rest) s (.error fault)
  | cons {e : Nat × Rule} {rest : List (Nat × Rule)} {s s' : Progress} {outcome : Except OperandFault Progress}
      (h : ExhaustsTo i e s (.ok s')) (hrest : TriesTo i rest s' outcome) : TriesTo i (e :: rest) s outcome

/-- The loop over the queue, which ends when the queue is empty or a rule fails. -/
inductive DrainsTo (rules : List (Nat × Rule)) : Pool → List Nat → Except OperandFault Pool → Prop
  | nil {p : Pool} : DrainsTo rules p [] (.ok p)
  | fault {p : Pool} {i : Nat} {queue : List Nat} {fault : OperandFault} (h : TriesTo i rules ⟨p, [], false⟩ (.error fault)) :
      DrainsTo rules p (i :: queue) (.error fault)
  | cons {p : Pool} {i : Nat} {queue : List Nat} {s : Progress} {outcome : Except OperandFault Pool}
      (h : TriesTo i rules ⟨p, [], false⟩ (.ok s)) (hrest : DrainsTo rules s.pool (s.waiting i queue) outcome) :
      DrainsTo rules p (i :: queue) outcome

/-! ### At most one outcome -/

section
variable {rules : List (Nat × Rule)} {e : Nat × Rule} {p q : Pool} {i : Nat} {queue : List Nat} {s : Progress}
  {outcome outcome' : Except OperandFault Progress}

/-- The loop of a rule has one outcome. -/
theorem ExhaustsTo.unique (h : ExhaustsTo i e s outcome) (h' : ExhaustsTo i e s outcome') : outcome = outcome' := by
  induction h with
  | rest hrests =>
    cases h' with
    | rest => rfl
    | fault hi hl => cases (hrests hi).symm.trans (Rule.rests_of_error hl)
    | extract hi hl hpart => cases (hrests hi).symm.trans ((Rule.rests_of_located hl).trans hpart)
  | fault hi hl =>
    cases h' with
    | rest hrests => cases (hrests hi).symm.trans (Rule.rests_of_error hl)
    | fault _ hl' => rw [Except.error.inj (hl.symm.trans hl')]
    | extract _ hl' => cases hl.symm.trans hl'
  | extract hi hl hpart _ ih =>
    cases h' with
    | rest hrests => cases (hrests hi).symm.trans ((Rule.rests_of_located hl).trans hpart)
    | fault _ hl' => cases hl.symm.trans hl'
    | extract _ hl' _ h' =>
      obtain rfl := Option.some.inj (Except.ok.inj (hl.symm.trans hl'))
      exact ih h'

/-- The loops of all rules have one outcome. -/
theorem TriesTo.unique (h : TriesTo i rules s outcome) (h' : TriesTo i rules s outcome') : outcome = outcome' := by
  induction h with
  | nil =>
    cases h'
    rfl
  | fault he =>
    cases h' with
    | fault he' => exact congrArg _ (Except.error.inj (he.unique he'))
    | cons he' => cases he.unique he'
  | cons he _ ih =>
    cases h' with
    | fault he' => cases he.unique he'
    | cons he' hrest' =>
      obtain rfl := Except.ok.inj (he.unique he')
      exact ih hrest'

/-- The queue has one outcome. -/
theorem DrainsTo.unique {outcome outcome' : Except OperandFault Pool} (h : DrainsTo rules p queue outcome)
    (h' : DrainsTo rules p queue outcome') : outcome = outcome' := by
  induction h with
  | nil =>
    cases h'
    rfl
  | fault hi =>
    cases h' with
    | fault hi' => exact congrArg _ (Except.error.inj (hi.unique hi'))
    | cons hi' => cases hi.unique hi'
  | cons hi _ ih =>
    cases h' with
    | fault hi' => cases hi.unique hi'
    | cons hi' hrest' =>
      obtain rfl := Except.ok.inj (hi.unique hi')
      exact ih hrest'

end

/-! ### The outcome that reduction computes -/

section
variable {r : RuleSet} {e : Nat × Rule} {p q : Pool} {i : Nat} {queue : List Nat} {s : Progress}

/-- Every extraction takes a character out of the text of the index, so as many turns as it has characters suffice. -/
theorem Written.exhaustsTo {turns : Nat} (he : e.2 ∈ r.rules) (h : s.pool.Written) (hturns : Token.plainCount (s.pool.text i) < turns) :
    ExhaustsTo i e s (exhaust i e.1 e.2 turns s) := by
  induction turns generalizing s with
  | zero => exact absurd hturns (Nat.not_lt_zero _)
  | succ turns ih =>
    by_cases hfault : ∃ fault, s.pool.holds i = true ∧ e.2.locate e.1 (s.pool.text i) = .error fault
    · obtain ⟨fault, hi, hl⟩ := hfault
      rw [exhaust, if_pos hi, hl]
      exact .fault hi hl
    · have hfound : s.pool.holds i = true → ∃ found, e.2.locate e.1 (s.pool.text i) = .ok found := by
        intro hi
        cases hl : e.2.locate e.1 (s.pool.text i) with
        | error fault => exact absurd ⟨fault, hi, hl⟩ hfault
        | ok found => exact ⟨found, rfl⟩
      rcases h.rests_or_extracts he hfound with hrests | ⟨l, hi, hl, hpart, hextracts⟩
      · rw [exhaust_of_rests hrests]
        exact .rest hrests
      · rw [exhaust_of_part hi hl hpart]
        have hless := hextracts.plainCount_lt
        exact .extract hi hl hpart (ih hextracts.written (by omega))

/-- On a written pool the bounded loops have the outcome of the unbounded ones. -/
theorem Written.triesTo {rest : List (Nat × Rule)} (hrest : ∀ e ∈ rest, e.2 ∈ r.rules) (h : s.pool.Written) :
    TriesTo i rest s (rest.foldlM (fun s (id, r) => exhaust i id r ((s.pool.text i).length + 1) s) s) := by
  induction rest generalizing s with
  | nil => exact .nil
  | cons e rest ih =>
    have he := hrest e (by simp)
    have hturns := Nat.lt_succ_of_le (Token.plainCount_le_length (s.pool.text i))
    have hexhausts := h.exhaustsTo he hturns
    rw [List.foldlM_cons]
    change TriesTo i (e :: rest) s (exhaust i e.1 e.2 ((s.pool.text i).length + 1) s >>= _)
    cases hs : exhaust i e.1 e.2 ((s.pool.text i).length + 1) s with
    | error fault => exact .fault (hs ▸ hexhausts)
    | ok s' => exact .cons (hs ▸ hexhausts) (ih (fun d hd => hrest d (List.mem_cons_of_mem _ hd)) ((h.exhausts he hturns hs).written h))

/-- Every index that is taken from the queue uses up work or makes the queue shorter. -/
theorem Written.drainsTo {turns : Nat} (h : p.Written) (hturns : queue.length + 2 * p.work < turns) :
    DrainsTo r.numbered p queue (reduceQueue r.numbered turns p queue) := by
  induction turns generalizing p queue with
  | zero => exact absurd hturns (Nat.not_lt_zero _)
  | succ turns ih =>
    cases queue with
    | nil =>
      rw [reduceQueue]
      · exact .nil
      · exact Nat.succ_ne_zero turns
    | cons i queue =>
      have htries : TriesTo i r.numbered ⟨p, [], false⟩ (reduceIndex r.numbered p i) :=
        Written.triesTo (s := ⟨p, [], false⟩) (fun _ he => RuleSet.mem_of_numbered he) h
      rw [reduceQueue_cons]
      cases hs : reduceIndex r.numbered p i with
      | error fault => exact .fault (hs ▸ htries)
      | ok s =>
        have htraced := h.traced hs
        have hlength : (s.waiting i queue).length + 2 * s.pool.work < (i :: queue).length + 2 * p.work := htraced.length_waiting
        exact .cons (hs ▸ htries) (ih htraced.written (by omega))

/-- A plain pool is written. -/
theorem Plain.written {letters : List Char} {write : Char → Text} {goal : Text} (h : Plain letters write goal p) : p.Written where
  sound := h.stands.sound
  written x hx := by
    obtain ⟨line, htext, hdraft⟩ := h.stands.draft hx
    have hplain := h.plain x hx
    rw [htext] at hplain
    exact ⟨line, hx, hdraft.within, (isPlain_text_iff.1 hplain).1, htext⟩

end

/-- On a source text without fault, once its groups are taken apart, reduction terminates with one outcome. When this is no fault, every
rule rests in every text that is left. -/
theorem reduce_terminates_at_rest {r : RuleSet} {letters : List Char} {text : Text} (hfault : Source.fault? r letters text = none) :
    (∀ outcome, DrainsTo r.numbered (ofGroups text) (ofGroups text).holders outcome ↔ outcome = reduce r (ofGroups text)) ∧
    ∀ q, reduce r (ofGroups text) = .ok q → ∀ x, q.holds x = true → ∀ e ∈ r.numbered,
      e.2.find e.1 (q.text x) = .ok none ∨ ∃ o, e.2.find e.1 (q.text x) = .ok (some o) ∧ o.isWhole (q.text x) = true := by
  obtain ⟨hne, hat, hnested⟩ := Source.facts_of_fault? hfault
  have hwrite : ∀ c ∈ ['(', ')', '{', '}'], (fun _ => [] : Char → Text) c = [] := fun _ _ => rfl
  have hwritten : (ofGroups text).Written := (plain_ofGroups hnested hne hat hwrite).1.written
  have hbound := (ofGroups text).work_le_reductionBound
  have hdrains : DrainsTo r.numbered (ofGroups text) (ofGroups text).holders (reduce r (ofGroups text)) :=
    hwritten.drainsTo (by omega)
  refine ⟨fun outcome => ⟨fun h => h.unique hdrains, fun h => h ▸ hdrains⟩, fun q hq x hx e he => ?_⟩
  exact Rule.rests_iff_find.1 ((hwritten.reduce hq).rests x hx (by simp) e he)

/-- The texts of `\sqrt{x}^{2}+\sin(x)` before reduction. -/
def sineGroups : Pool :=
  ⟨[.holding "\\sqrt@/1/@^@/2/@+\\sin@/1/@".toList, .holding "x".toList, .holding "2".toList],
    [("\\sqrt@/1/@^@/2/@+\\sin@/1/@".toList, 0), ("2".toList, 2), ("x".toList, 1)]⟩

/-- Its texts after reduction: a root, a sine and a power are taken out. -/
def sineReduced : Pool :=
  ⟨[.holding "@/5/@+@/4/@".toList, .holding "x".toList, .holding "2".toList, .holding "\\sqrt@/1/@".toList,
      .holding "\\sin@/1/@".toList, .holding "@/3/@^@/2/@".toList],
    [("@/5/@+@/4/@".toList, 0), ("@/3/@^@/2/@".toList, 5), ("\\sin@/1/@".toList, 4), ("\\sqrt@/1/@".toList, 3), ("2".toList, 2),
      ("x".toList, 1)]⟩

/-- The groups of a root with an exponent and of a sine are taken out. -/
theorem groups_sine : ofGroups "\\sqrt\x7bx\x7d^\x7b2\x7d+\\sin(x)".toList = sineGroups := by decide +kernel

/-- Of the groups that were taken out, the rules take out the root and the sine. -/
theorem reduce_sine : reduce .standard sineGroups = .ok sineReduced := by decide +kernel

theorem reduce_terminates_at_rest_sine :
    Source.fault? .standard ['x'] "\\sqrt\x7bx\x7d^\x7b2\x7d+\\sin(x)".toList = none ∧
      DrainsTo RuleSet.standard.numbered (ofGroups "\\sqrt\x7bx\x7d^\x7b2\x7d+\\sin(x)".toList)
        (ofGroups "\\sqrt\x7bx\x7d^\x7b2\x7d+\\sin(x)".toList).holders (.ok sineReduced) ∧
      ∀ x, sineReduced.holds x = true → ∀ e ∈ RuleSet.standard.numbered,
        e.2.find e.1 (sineReduced.text x) = .ok none ∨
          ∃ o, e.2.find e.1 (sineReduced.text x) = .ok (some o) ∧ o.isWhole (sineReduced.text x) = true := by
  have hfault : Source.fault? .standard ['x'] "\\sqrt\x7bx\x7d^\x7b2\x7d+\\sin(x)".toList = none := by decide +kernel
  have hreduce : reduce .standard (ofGroups "\\sqrt\x7bx\x7d^\x7b2\x7d+\\sin(x)".toList) = .ok sineReduced := by
    rw [groups_sine, reduce_sine]
  obtain ⟨hdrains, hrests⟩ := reduce_terminates_at_rest hfault
  exact ⟨hfault, (hdrains _).2 hreduce.symm, hrests sineReduced hreduce⟩

end Pool

end FormulaDag
