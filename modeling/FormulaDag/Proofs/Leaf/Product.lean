import FormulaDag.Proofs.Combination
import FormulaDag.Proofs.Evaluation.Locality

/-!
# The product of a leaf

A leaf has an axis for each occurrence of a symbol, in order, and after these an axis for each index that it reads, in order of first
appearance. Every combination of choices along the axes decides what term each lexeme stands for: a symbol occurrence takes its own
choice, and all occurrences of an index take the same one. The branches of the leaf are the values of these terms, combination by
combination, the last axis changing fastest, or the fault of the first combination that has no value.
-/

namespace FormulaDag.Leaf

/-- The number of symbol occurrences among lexemes. -/
def symbolCount (lexemes : List Lexeme) : Nat := (Lexeme.symbolChoices lexemes).length

/-- The axes of a leaf, given the branches of the indices that it reads. -/
def axes (values : Nat → Branches) (lexemes : List Lexeme) : List (List Choice) :=
  Lexeme.symbolChoices lexemes ++ (Lexeme.indices lexemes).map fun j => (values j).map Choice.number

/-- The axis that decides what the lexeme at a place stands for, if it does not stand for itself. -/
def axis? (lexemes : List Lexeme) (k : Nat) : Option Nat :=
  match lexemes[k]? with
  | some (.symbol _) => some (symbolCount (lexemes.take k))
  | some (.index j) => some (symbolCount lexemes + (Lexeme.indices lexemes).idxOf j)
  | _ => none

/-- The term that a lexeme is when nothing has to be chosen. -/
def plain? : Lexeme → Option Term
  | .number value => some (.number value)
  | .op operator => some (.op operator)
  | .opening => some .opening
  | .closing => some .closing
  | .index _ => none
  | .symbol _ => none

/-- The term that the lexeme at a place stands for in a combination. -/
def term? (lexemes : List Lexeme) (combination : List Choice) (k : Nat) : Option Term :=
  match axis? lexemes k with
  | some axis => combination[axis]?.map Term.ofChoice
  | none => lexemes[k]?.bind plain?

/-- The terms that the lexemes of a leaf stand for in a combination. -/
def terms (lexemes : List Lexeme) (combination : List Choice) : List Term :=
  (List.range lexemes.length).filterMap (term? lexemes combination)

/-- The value of a leaf for the terms of one combination. -/
def worth (i : Nat) (context : Text) (terms : List Term) : Except EvaluationFault Float :=
  match Sum.value terms with
  | .error (.grammatical fault) => .error (.node i context (.grammatical fault))
  | .error (.divisionByZero numerator) => .error (.divisionByZero numerator)
  | .ok value =>
    if value.isFinite then .ok value else .error (.notFinite "Arithmetic" (terms.filterMap Term.number?))

/-- What a leaf gives in one combination: the value or the fault of the terms that its lexemes stand for, place by place. -/
def Gives (i : Nat) (context : Text) (lexemes : List Lexeme) (combination : List Choice) (outcome : Except EvaluationFault Float) : Prop :=
  ∃ terms : List Term, terms.length = lexemes.length ∧ (∀ k, terms[k]? = term? lexemes combination k) ∧ worth i context terms = outcome

/-- The choices of a combination for the symbols. -/
def symbolPart (lexemes : List Lexeme) (combination : List Choice) : List Choice := combination.take (symbolCount lexemes)

/-- The choices of a combination for the indices, as a table. -/
def indexPart (lexemes : List Lexeme) (combination : List Choice) : List (Nat × Choice) :=
  (Lexeme.indices lexemes).zip (combination.drop (symbolCount lexemes))

section
variable {lexemes rest : List Lexeme} {combination chosen : List Choice} {table : List (Nat × Choice)} {values : Nat → Branches} {i k : Nat}
  {context : Text}

theorem lookup_zip_eq {l : List Nat} {r : List Choice} {j : Nat} (hj : j ∈ l) : (l.zip r).lookup j = r[l.idxOf j]? := by
  induction l generalizing r with
  | nil => simp at hj
  | cons a l ih =>
    cases r with
    | nil => simp
    | cons c r =>
      rw [List.zip_cons_cons, List.lookup_cons, List.idxOf_cons]
      by_cases hja : j = a
      · simp [hja]
      · have hne : (j == a) = false := beq_false_of_ne hja
        have hne' : (a == j) = false := beq_false_of_ne (Ne.symm hja)
        simp only [hne, hne', cond_false]
        rw [ih ((List.mem_cons.1 hj).resolve_left hja), List.getElem?_cons_succ]

theorem symbolCount_cons (l : Lexeme) (rest : List Lexeme) :
    symbolCount (l :: rest) = symbolCount [l] + symbolCount rest := by
  cases l <;> simp [symbolCount, Lexeme.symbolChoices, Nat.add_comm]

theorem symbolCount_append (done rest : List Lexeme) : symbolCount (done ++ rest) = symbolCount done + symbolCount rest := by
  rw [symbolCount, Lexeme.symbolChoices, List.filterMap_append, List.length_append]
  rfl

/-- Fewer symbols stand before a symbol than there are. -/
theorem symbolCount_take_lt {choices : List Choice} (h : lexemes[k]? = some (.symbol choices)) :
    symbolCount (lexemes.take k) < symbolCount lexemes := by
  obtain ⟨hk, hget⟩ := List.getElem?_eq_some_iff.1 h
  have hsplit : lexemes = lexemes.take k ++ lexemes.drop k := (List.take_append_drop k lexemes).symm
  have hone : symbolCount [Lexeme.symbol choices] = 1 := rfl
  rw [List.drop_eq_getElem_cons hk, hget] at hsplit
  have hcount := congrArg symbolCount hsplit
  rw [symbolCount_append, symbolCount_cons, hone] at hcount
  omega

/-- The term that the lexeme at a place stands for, when the symbols take their choices from one list and the indices from a table. -/
def settled? (chosen : List Choice) (table : List (Nat × Choice)) (lexemes : List Lexeme) (k : Nat) : Option Term :=
  match lexemes[k]? with
  | some (.symbol _) => chosen[symbolCount (lexemes.take k)]?.map Term.ofChoice
  | some (.index j) => (table.lookup j).map Term.ofChoice
  | some lexeme => plain? lexeme
  | none => none

theorem settled?_cons_succ (l : Lexeme) :
    settled? chosen table (l :: rest) (k + 1) = settled? (chosen.drop (symbolCount [l])) table rest k := by
  rw [settled?, settled?, List.getElem?_cons_succ, List.take_succ_cons, symbolCount_cons, List.getElem?_drop]

/-- With a choice for every symbol and every index, each lexeme becomes the one term that it stands for. -/
theorem getElem?_resolve (chosen : List Choice) (table : List (Nat × Choice)) (rest : List Lexeme)
    (hchosen : symbolCount rest ≤ chosen.length)
    (htable : ∀ j, .index j ∈ rest → ∃ c, table.lookup j = some c) :
    (resolve chosen table rest).length = rest.length ∧ ∀ k, (resolve chosen table rest)[k]? = settled? chosen table rest k := by
  induction rest generalizing chosen with
  | nil => exact ⟨rfl, fun k => rfl⟩
  | cons l rest ih =>
    rw [symbolCount_cons] at hchosen
    have hrest := ih (chosen.drop (symbolCount [l])) (by rw [List.length_drop]; omega)
      fun j hj => htable j (List.mem_cons_of_mem _ hj)
    have hone : ∃ term, settled? chosen table (l :: rest) 0 = some term ∧
        resolve chosen table (l :: rest) = term :: resolve (chosen.drop (symbolCount [l])) table rest := by
      cases l with
      | index j =>
        obtain ⟨c, hc⟩ := htable j (by simp)
        exact ⟨Term.ofChoice c, by simp [settled?, hc], by simp [resolve, hc, symbolCount, Lexeme.symbolChoices]⟩
      | symbol choices =>
        obtain _ | ⟨c, chosen⟩ := chosen
        · simp [symbolCount, Lexeme.symbolChoices] at hchosen
        · exact ⟨Term.ofChoice c, by simp [settled?, symbolCount, Lexeme.symbolChoices],
            by simp [resolve, symbolCount, Lexeme.symbolChoices]⟩
      | _ => exact ⟨_, rfl, rfl⟩
    obtain ⟨term, hterm, hresolve⟩ := hone
    rw [hresolve]
    refine ⟨by simp [hrest.1], fun k => ?_⟩
    cases k with
    | zero => rw [hterm, List.getElem?_cons_zero]
    | succ k => rw [List.getElem?_cons_succ, hrest.2, settled?_cons_succ]

/-- The choices for the symbols come before those for the indices. -/
theorem settled?_eq_term? :
    settled? (symbolPart lexemes combination) (indexPart lexemes combination) lexemes k = term? lexemes combination k := by
  unfold settled? term? axis? symbolPart indexPart
  cases hl : lexemes[k]? with
  | none => rfl
  | some l =>
    cases l with
    | symbol choices => simp only [List.getElem?_take_of_lt (symbolCount_take_lt hl)]
    | index j => simp only [lookup_zip_eq (mem_indices.2 (List.mem_of_getElem? hl)), List.getElem?_drop]
    | _ => rfl

theorem length_axes : (axes values lexemes).length = symbolCount lexemes + (Lexeme.indices lexemes).length := by
  rw [axes, List.length_append, List.length_map, symbolCount]

/-- A combination of the axes resolves every lexeme to the term that it stands for. -/
theorem resolve_parts (hlength : combination.length = (axes values lexemes).length) :
    (resolve (symbolPart lexemes combination) (indexPart lexemes combination) lexemes).length = lexemes.length ∧
      ∀ k, (resolve (symbolPart lexemes combination) (indexPart lexemes combination) lexemes)[k]? = term? lexemes combination k := by
  rw [length_axes] at hlength
  have hchosen : symbolCount lexemes ≤ (symbolPart lexemes combination).length := by
    rw [symbolPart, List.length_take]
    omega
  have hassigned : ∀ j, .index j ∈ lexemes → ∃ c, (indexPart lexemes combination).lookup j = some c := by
    intro j hj
    have hmem := mem_indices.2 hj
    have hlt := List.idxOf_lt_length_of_mem hmem
    have hdrop : (Lexeme.indices lexemes).idxOf j < (combination.drop (symbolCount lexemes)).length := by
      rw [List.length_drop]
      omega
    exact ⟨_, (lookup_zip_eq hmem).trans (List.getElem?_eq_getElem hdrop)⟩
  obtain ⟨hsame, hplaces⟩ := getElem?_resolve _ _ lexemes hchosen hassigned
  exact ⟨hsame, fun k => (hplaces k).trans settled?_eq_term?⟩

/-- The value of a combination of the axes is that of the terms that its lexemes stand for. -/
theorem combine_eq_worth (hlength : combination.length = (axes values lexemes).length) :
    combine i context lexemes combination = worth i context (terms lexemes combination) := by
  obtain ⟨hsame, hplaces⟩ := resolve_parts hlength
  have hterms : terms lexemes combination = resolve (symbolPart lexemes combination) (indexPart lexemes combination) lexemes := by
    rw [terms, ← funext hplaces, ← hsame, List.filterMap_eq_flatMap_toList, Combination.flatMap_getElem?_range]
  rw [hterms]
  rfl

/-- A combination of the axes gives what its lexemes resolve to. -/
theorem gives_iff {outcome : Except EvaluationFault Float} (hlength : combination.length = (axes values lexemes).length) :
    Gives i context lexemes combination outcome ↔ combine i context lexemes combination = outcome := by
  have hcombine : combine i context lexemes combination =
      worth i context (resolve (symbolPart lexemes combination) (indexPart lexemes combination) lexemes) := rfl
  obtain ⟨hsame, hplaces⟩ := resolve_parts hlength
  rw [hcombine]
  constructor
  · rintro ⟨terms, -, hterms, hworth⟩
    rw [← hworth]
    congr 1
    exact List.ext_getElem? fun k => by rw [hplaces, hterms]
  · exact fun h => ⟨_, hsame, hplaces, h⟩

/-- The branches of a leaf whose indices all have branches are a map over the product of its axes. -/
theorem branches_eq_mapM {lookup : Nat → Option Branches} (hscan : Lexeme.scan context = .ok lexemes)
    (hlookup : ∀ j ∈ Lexeme.indices lexemes, lookup j = some (values j)) :
    branches i context lookup = (Combination.product (axes values lexemes)).mapM (combine i context lexemes) := by
  simp only [branches, hscan, gather_eq_map hlookup, Combination.mapChoices_eq_mapM, List.map_map]
  rfl

/-- A leaf whose indices all have branches yields what the combinations of its axes give, one after the other in lexicographic order,
when all of them give a value. Otherwise it fails as the first combination that gives none does. -/
theorem branches_iff_gives {lookup : Nat → Option Branches} (hscan : Lexeme.scan context = .ok lexemes)
    (hlookup : ∀ j ∈ Lexeme.indices lexemes, lookup j = some (values j)) :
    (∀ found, branches i context lookup = .ok found ↔
      List.Forall₂ (fun combination x => Gives i context lexemes combination (.ok x)) (Combination.product (axes values lexemes)) found) ∧
    ∀ fault, branches i context lookup = .error fault ↔
      ∃ before combination after, Combination.product (axes values lexemes) = before ++ combination :: after ∧
        (∀ earlier ∈ before, ∃ x, Gives i context lexemes earlier (.ok x)) ∧ Gives i context lexemes combination (.error fault) := by
  have hgives : ∀ combination ∈ Combination.product (axes values lexemes), ∀ outcome,
      Gives i context lexemes combination outcome ↔ combine i context lexemes combination = outcome :=
    fun combination hmem outcome => gives_iff (Combination.length_of_mem_product hmem)
  rw [branches_eq_mapM hscan hlookup]
  constructor
  · exact fun found => mapM_eq_ok_iff_forall₂ fun combination hmem x => hgives combination hmem _
  · intro fault
    rw [mapM_eq_error_iff]
    refine exists_congr fun before => exists_congr fun combination => exists_congr fun after => and_congr_right fun hsplit => ?_
    rw [hsplit] at hgives
    refine and_congr (forall₂_congr fun earlier hmem => exists_congr fun x => ?_) (hgives combination (by simp) _).symm
    exact (hgives earlier (by simp [hmem]) _).symm

/-- In `\pm@/1/@-@/1/@` the sign is the slow axis, and the index takes one branch in both of its places. -/
theorem branches_iff_gives_shared :
    Lexeme.scan "\\pm@/1/@-@/1/@".toList = .ok [.symbol [.sign .plus, .sign .minus], .index 1, .op .minus, .index 1] ∧
      List.Forall₂ (fun combination x => Gives 0 "\\pm@/1/@-@/1/@".toList
          [.symbol [.sign .plus, .sign .minus], .index 1, .op .minus, .index 1] combination (.ok x))
        [[.sign .plus, .number 2], [.sign .plus, .number 3], [.sign .minus, .number 2], [.sign .minus, .number 3]] [0, 0, -4, -6] := by
  have hscan : Lexeme.scan "\\pm@/1/@-@/1/@".toList = .ok [.symbol [.sign .plus, .sign .minus], .index 1, .op .minus, .index 1] := by
    decide +kernel
  have hbranches : branches 0 "\\pm@/1/@-@/1/@".toList (fun _ => some [2, 3]) = .ok [0, 0, -4, -6] := by
    rw [branches_eq_mapM hscan fun _ _ => rfl, mapM_eq_ok_iff]
    decide +kernel
  exact ⟨hscan, ((branches_iff_gives hscan fun _ _ => rfl).1 _).1 hbranches⟩

end

end FormulaDag.Leaf
