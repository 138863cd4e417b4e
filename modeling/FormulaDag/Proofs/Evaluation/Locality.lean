import FormulaDag.Proofs.Rule.Occurrence
import FormulaDag.Evaluation.Node

/-!
# What a node reads

The branches of a node depend on the branches of its dependencies and of no other node: the operands of a rule and the indices in a
sum are references of the context. So two evaluations that agree on the dependencies of a node agree on the node.
-/

namespace FormulaDag

namespace Lexeme

/-- No command is read as an index. -/
theorem ofCommand?_ne_index (command : Text) (i : Nat) : ofCommand? command ≠ some (index i) := by
  intro h
  unfold ofCommand? at h
  split at h
  · simp at h
  · obtain ⟨choices, -, hc⟩ := Option.map_eq_some_iff.1 h
    simp at hc

/-- No single character is read as an index. -/
theorem ofChar?_ne_index (c : Char) (i : Nat) : ofChar? c ≠ some (index i) := by
  intro h
  unfold ofChar? at h
  repeat' split at h
  · simp at h
  · simp at h
  · obtain ⟨op, -, hop⟩ := Option.map_eq_some_iff.1 h
    simp at hop

section
variable {c : Char} {rest after : Text} {lexeme : Lexeme}

/-- A character that begins no token is taken off together with characters of one kind that begin none. -/
theorem pieces_dropWhile {p : Char → Bool} (hc : c ≠ '@') (hp : p '@' = false) (rest : Text) :
    Token.pieces (c :: rest) = (c :: rest.takeWhile p).map Piece.plain ++ Token.pieces (rest.dropWhile p) := by
  have hmem : '@' ∉ rest.takeWhile p := by
    intro hmem
    have := List.all_eq_true.1 List.all_takeWhile _ hmem
    rw [hp] at this
    cases this
  rw [Token.pieces_cons hc, List.map_cons, List.cons_append, ← Token.pieces_append hmem, List.takeWhile_append_dropWhile]

/-- A number is no index, and it takes the numeric characters from the front. -/
theorem number?_eq_ok (h : number? c rest = .ok (lexeme, after)) : (∀ i, lexeme ≠ index i) ∧ after = rest.dropWhile inNumber := by
  unfold number? at h
  split at h
  · simp only [Except.ok.injEq, Prod.mk.injEq] at h
    obtain ⟨rfl, rfl⟩ := h
    exact ⟨by simp, rfl⟩
  · cases h

/-- A command is no index, and it takes the letters from the front. -/
theorem command?_eq_ok (h : command? c rest = .ok (lexeme, after)) : (∀ i, lexeme ≠ index i) ∧ after = rest.dropWhile Char.isAlpha := by
  unfold command? at h
  split at h
  · rename_i lexeme' hl
    simp only [Except.ok.injEq, Prod.mk.injEq] at h
    obtain ⟨rfl, rfl⟩ := h
    exact ⟨fun i hi => ofCommand?_ne_index _ i (hi ▸ hl), rfl⟩
  · cases h

/-- A token is the index of its digits. -/
theorem token?_eq_ok (h : token? c rest = .ok (lexeme, after)) :
    ∃ digits i, lexeme = index i ∧ Index.read? digits = some i ∧ Token.split? (c :: rest) = some (digits, after) := by
  unfold token? at h
  split at h
  · cases h
  · rename_i digits after' hs
    split at h
    · rename_i i hi
      simp only [Except.ok.injEq, Prod.mk.injEq] at h
      obtain ⟨rfl, rfl⟩ := h
      exact ⟨digits, i, rfl, hi, hs⟩
    · cases h

/-- The first lexeme takes whole pieces off a text: the token of its index if it is one, and characters outside of tokens otherwise. -/
theorem pieces_of_first (h : first c rest = .ok (lexeme, after)) :
    (∃ digits i, lexeme = index i ∧ Index.read? digits = some i ∧
      Token.pieces (c :: rest) = .token digits :: Token.pieces after) ∨
    ((∀ i, lexeme ≠ index i) ∧ ∃ taken : Text, Token.pieces (c :: rest) = taken.map Piece.plain ++ Token.pieces after) := by
  unfold first at h
  split at h
  · rename_i hnumber
    obtain ⟨hne, rfl⟩ := number?_eq_ok h
    have hat : c ≠ '@' := by
      rintro rfl
      exact absurd hnumber (by decide)
    exact .inr ⟨hne, _, pieces_dropWhile hat (by decide) rest⟩
  · split at h
    · obtain ⟨digits, i, rfl, hread, hsplit⟩ := token?_eq_ok h
      exact .inl ⟨digits, i, rfl, hread, Token.pieces_of_split? hsplit⟩
    · rename_i hat
      split at h
      · obtain ⟨hne, rfl⟩ := command?_eq_ok h
        exact .inr ⟨hne, _, pieces_dropWhile hat (by decide) rest⟩
      · split at h
        · rename_i lexeme' hl
          simp only [Except.ok.injEq, Prod.mk.injEq] at h
          obtain ⟨rfl, rfl⟩ := h
          exact .inr ⟨fun i hi => ofChar?_ne_index _ i (hi ▸ hl), [c], Token.pieces_cons hat _⟩
        · cases h

end

/-- Scanning takes the first lexeme and goes on behind it. -/
theorem scanAll_cons (c : Char) (rest : Text) :
    scanAll (c :: rest) = first c rest >>= fun taken => (scanAll taken.2).map (taken.1 :: ·) := by
  rw [scanAll]
  split
  · rename_i fault hfirst
    rw [hfirst]
    rfl
  · rename_i lexeme after hfirst
    rw [hfirst]
    simp only [bind, Except.bind]
    cases scanAll after <;> rfl

/-- The index that a lexeme is, if it is one. -/
def index? : Lexeme → Option Nat
  | index i => some i
  | _ => none

/-- A scan that succeeds reads the numeral of every token, one after the other. -/
theorem filterMap_index?_of_scanAll {t : Text} {lexemes : List Lexeme} (h : scanAll t = .ok lexemes) :
    lexemes.filterMap index? = (Token.numerals t).filterMap Index.read? := by
  induction hn : t.length using Nat.strong_induction_on generalizing t lexemes with
  | _ n ih =>
    subst hn
    cases t with
    | nil =>
      rw [scanAll] at h
      simp [← Except.ok.inj h, Token.numerals]
    | cons c rest =>
      rw [scanAll_cons] at h
      obtain ⟨⟨lexeme, after⟩, hfirst, h⟩ := bind_eq_ok.1 h
      obtain ⟨more, hmore, rfl⟩ := map_eq_ok.1 h
      have hlater := ih _ (Nat.lt_succ_of_le (length_of_first hfirst)) hmore rfl
      rcases pieces_of_first hfirst with ⟨digits, i, rfl, hi, hpieces⟩ | ⟨hne, taken, hpieces⟩
      · have hnumerals : Token.numerals (c :: rest) = digits :: Token.numerals after := by
          simp [Token.numerals, hpieces]
        rw [hnumerals, List.filterMap_cons_some hi, List.filterMap_cons_some (show index? (index i) = some i from rfl), hlater]
      · have hnumerals : Token.numerals (c :: rest) = Token.numerals after := by
          simp [Token.numerals, hpieces, List.filterMap_append, List.filterMap_map]
        have hnone : index? lexeme = none := by
          cases lexeme with
          | index i => exact absurd rfl (hne i)
          | _ => rfl
        rw [hnumerals, List.filterMap_cons_none hnone, hlater]

/-- The indices that a leaf reads are the references of its context, in the same order. -/
theorem indices_of_scan {t : Text} {lexemes : List Lexeme} (h : scan t = .ok lexemes) : indices lexemes = Token.references t := by
  have hall : scanAll t = .ok lexemes := by
    unfold scan at h
    split at h
    · simp at h
    · exact h
  exact congrArg List.eraseDups (filterMap_index?_of_scanAll hall)

end Lexeme

/-- The indices of lexemes are what their index lexemes name. -/
theorem Leaf.mem_indices {lexemes : List Lexeme} {j : Nat} : j ∈ Lexeme.indices lexemes ↔ .index j ∈ lexemes := by
  simp only [Lexeme.indices, List.mem_eraseDups, List.mem_filterMap]
  constructor
  · rintro ⟨l, hl, heq⟩
    cases l <;> simp_all
  · exact fun h => ⟨_, h, rfl⟩

/-- Gathering depends on the values of the gathered indices only. -/
theorem Leaf.gather_congr {f g : Nat → Option Branches} {l : List Nat} (h : ∀ i ∈ l, f i = g i) :
    gather f l = gather g l := by
  induction l with
  | nil => rfl
  | cons i l ih =>
    unfold gather
    rw [h i (by simp), ih fun j hj => h j (List.mem_cons_of_mem _ hj)]

/-- Gathering succeeds when all indices have values. -/
theorem Leaf.gather_eq_map {f : Nat → Option Branches} {values : Nat → Branches} {l : List Nat} (h : ∀ i ∈ l, f i = some (values i)) :
    gather f l = .ok (l.map values) := by
  induction l with
  | nil => rfl
  | cons i l ih =>
    rw [gather, h i (by simp), ih fun j hj => h j (List.mem_cons_of_mem _ hj)]
    rfl

/-- The branches of a leaf depend on the values of its references only. -/
theorem Leaf.branches_congr {i : Nat} {context : Text} {f g : Nat → Option Branches}
    (h : ∀ j ∈ Token.references context, f j = g j) : branches i context f = branches i context g := by
  unfold branches
  cases hs : Lexeme.scan context with
  | error fault => rfl
  | ok lexemes => simp only [Lexeme.indices_of_scan hs, gather_congr h]

namespace Evaluation

/-- The branches of a rule node depend on the values of its operands only. -/
theorem ruleBranches_congr {s : RuleSet} {i : Nat} {o : Occurrence} {f g : Nat → Option Branches}
    (h : ∀ j, some (Operand.index j) ∈ o.operands → f j = g j) : ruleBranches s i o f = ruleBranches s i o g := by
  unfold ruleBranches
  cases s.get? o.rule with
  | none => rfl
  | some r =>
    simp only
    congr 1
    refine mapM_congr ?_
    rintro ⟨slot, operand⟩ hmem
    rcases operand with _ | x | j | t
    · rfl
    · rfl
    · simp only [operandChoices, h j (List.of_mem_zip hmem).2]
    · rfl

/-- The branches of a node depend on its dependencies alone, under every precision and all values of the variables. -/
def IsLocal (s : RuleSet) (n : Node) : Prop :=
  ∀ (precision : Nat) (values : List Float) (i : Nat) (f g : Nat → Option Branches),
    (∀ j ∈ n.dependencies, f j = g j) → nodeBranches s precision values i n f = nodeBranches s precision values i n g

end Evaluation

namespace Dag

/-- The node of a text has the text, its references and the kind of it. -/
theorem nodeOf_eq_ok {s : RuleSet} {letters : List Char} {t : Text} {n : Node} (h : nodeOf s letters t = .ok n) :
    n.context = t ∧ n.dependencies = Token.references t ∧ kindOf s letters t = .ok n.kind := by
  unfold nodeOf at h
  cases hk : kindOf s letters t with
  | error fault => simp [hk, Except.map] at h
  | ok kind =>
    simp only [hk, Except.map, Except.ok.injEq] at h
    subst h
    exact ⟨rfl, rfl, rfl⟩

/-- A rule node stands for the rule that describes its context. -/
theorem resolve_of_nodeOf {s : RuleSet} {letters : List Char} {t : Text} {n : Node} (h : nodeOf s letters t = .ok n)
    {o : Occurrence} (hk : n.kind = .rule o) : s.resolve t = .ok (some o) := by
  obtain ⟨-, -, hkind⟩ := nodeOf_eq_ok h
  rw [hk, kindOf] at hkind
  split at hkind
  · simp at hkind
  · split at hkind
    · simp at hkind
    · rename_i o' ho
      simp only [Except.ok.injEq, NodeKind.rule.injEq] at hkind
      exact hkind ▸ ho
    · simp at hkind

/-- A node made from a context reads nothing but the references of the context. -/
theorem isLocal_nodeOf {s : RuleSet} {letters : List Char} {t : Text} {n : Node} (h : nodeOf s letters t = .ok n) :
    Evaluation.IsLocal s n := by
  obtain ⟨hcontext, hdeps, hkind⟩ := nodeOf_eq_ok h
  intro precision values i f g hfg
  unfold Evaluation.nodeBranches Evaluation.rawBranches
  cases hk : n.kind with
  | «variable» position => rfl
  | sum =>
    simp only [hcontext]
    rw [Leaf.branches_congr fun j hj => hfg j (hdeps ▸ hj)]
  | rule o =>
    have ho := resolve_of_nodeOf h hk
    simp only
    rw [Evaluation.ruleBranches_congr fun j hj => hfg j (hdeps ▸ RuleSet.index_mem_references ho hj)]

/-- Every node of a dag made from contexts is local. -/
theorem isLocal_of_build {s : RuleSet} {letters : List Char} {c : Contexts} {d : Dag} (h : build s letters c = .ok d) :
    ∀ n ∈ d.nodes, Evaluation.IsLocal s n := by
  unfold build at h
  cases hm : c.texts.mapM (nodeOf s letters) with
  | error fault => simp [hm, Except.map] at h
  | ok nodes =>
    simp only [hm, Except.map, Except.ok.injEq] at h
    subst h
    intro n hn
    obtain ⟨t, -, ht⟩ := exists_of_mem_mapM hm hn
    exact isLocal_nodeOf ht

end Dag

end FormulaDag
