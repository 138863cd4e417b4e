import FormulaDag.Leaf.Sum
import FormulaDag.Proofs.Results

/-!
# The grammar of sums

A sum is a sequence of products joined by signs, a product a sequence of signed operands joined by `*`, by `/` or by nothing, and an
operand a number or a sum in a group. The derivation of a list of terms also says how it is evaluated, from left to right. Reading the
terms one by one gives a value exactly when they are derived with that value, and a division by zero when the evaluation meets one.
-/

namespace FormulaDag.Sum

/-- The kinds of phrases of the grammar. -/
inductive Category where
  | sum
  | product
  | signed
  | operand

/-- Whether terms begin with a number or an opening delimiter. Without an operator in between, only such a factor may follow another. -/
def beginsOperand : List Term → Bool
  | .number _ :: _ => true
  | .opening :: _ => true
  | _ => false

/-- The grammar, each phrase with the outcome of its evaluation: its value, or the numerator of the first division by zero. -/
inductive Derives : Category → List Term → Except Float Float → Prop where
  | product {p : List Term} {x : Except Float Float} (hp : Derives .product p x) : Derives .sum p x
  | plus {s p : List Term} {x y : Except Float Float} (hs : Derives .sum s x) (hp : Derives .product p y) :
    Derives .sum (s ++ .op .plus :: p) (do return (← x) + (← y))
  | minus {s p : List Term} {x y : Except Float Float} (hs : Derives .sum s x) (hp : Derives .product p y) :
    Derives .sum (s ++ .op .minus :: p) (do return (← x) - (← y))
  | signed {u : List Term} {x : Except Float Float} (hu : Derives .signed u x) : Derives .product u x
  | times {p u : List Term} {x y : Except Float Float} (hp : Derives .product p x) (hu : Derives .signed u y) :
    Derives .product (p ++ .op .times :: u) (do return (← x) * (← y))
  | divide {p u : List Term} {x y : Except Float Float} (hp : Derives .product p x) (hu : Derives .signed u y) :
    Derives .product (p ++ .op .divide :: u) (do
      let numerator ← x
      let divisor ← y
      if divisor == 0.0 then .error numerator else .ok (numerator / divisor))
  | juxtaposed {p u : List Term} {x y : Except Float Float} (hp : Derives .product p x) (hu : Derives .signed u y)
    (hfirst : beginsOperand u = true) : Derives .product (p ++ u) (do return (← x) * (← y))
  | positive {u : List Term} {x : Except Float Float} (hu : Derives .signed u x) : Derives .signed (.op .plus :: u) x
  | negative {u : List Term} {x : Except Float Float} (hu : Derives .signed u x) :
    Derives .signed (.op .minus :: u) (do return -(← x))
  | operand {o : List Term} {x : Except Float Float} (ho : Derives .operand o x) : Derives .signed o x
  | number (x : Float) : Derives .operand [.number x] (.ok x)
  | group {s : List Term} {x : Except Float Float} (hs : Derives .sum s x) : Derives .operand (.opening :: s ++ [.closing]) x

/-! ## What is derived is read -/

/-- Reading all terms and asking for the value at the end. -/
theorem run_eq (state : State) (terms : List Term) : run state terms = terms.foldlM step state >>= finish := by
  induction terms generalizing state with
  | nil => rfl
  | cons term terms ih =>
    rw [run, List.foldlM_cons]
    cases step state term with
    | error fault => rfl
    | ok next => exact ih next

theorem negate_neg (n : Nat) (x : Float) : negate n (-x) = negate (n + 1) x := by
  induction n with
  | zero => rfl
  | succ n ih => rw [negate, ih, ← negate]

/-- An outcome of the evaluation as an answer of the reader. -/
abbrev answer {α : Type} (x : Except Float α) : Except Fault α := x.mapError Fault.divisionByZero

/-- What reading a phrase does to the state in which it begins: an operand is supplied with the signs that wait before it, a product is
reached, and a sum is reached as its last product together with what comes before that. -/
def Category.Reads (terms : List Term) (x : Except Float Float) : Category → Prop
  | .sum => ∃ parts : Except Float (Option (Float × Bool) × Float), x = parts.map (fun part => addTo part.1 part.2) ∧
      ∀ around, terms.foldlM step (.expecting .fresh around) = answer parts >>= fun part => .ok (.reached part.1 part.2 around)
  | .product => ∀ total around, terms.foldlM step (.expecting ⟨total, none, 0⟩ around) =
      answer x >>= fun value => .ok (.reached total value around)
  | .signed | .operand => ∀ here around, terms.foldlM step (.expecting here around) = answer x >>= supply here around

section
variable {terms s p u : List Term} {x y : Except Float Float} {total : Option (Float × Bool)} {product : Float} {around : List Pending}

/-- A number or an opening delimiter right after a factor is read as if a product sign stood before it. -/
theorem foldlM_of_beginsOperand (h : beginsOperand terms = true) :
    terms.foldlM step (.reached total product around) = terms.foldlM step (.expecting ⟨total, some (product, false), 0⟩ around) := by
  match terms, h with
  | .number _ :: _, _ => rfl
  | .opening :: _, _ => rfl

/-- A sign between a sum and a product. -/
theorem reads_sum_of_sign (op : Operator) (subtract : Bool)
    (hop : ∀ total product around, step (.reached total product around) (.op op) =
      .ok (.expecting ⟨some (addTo total product, subtract), none, 0⟩ around))
    (hs : Category.sum.Reads s x) (hp : Category.product.Reads p y) :
    Category.sum.Reads (s ++ .op op :: p) (do return addTo (some (← x, subtract)) (← y)) := by
  obtain ⟨parts, rfl, hs⟩ := hs
  refine ⟨(do let part ← parts; let value ← y; return (some (addTo part.1 part.2, subtract), value)), ?_, fun around => ?_⟩
  · cases parts with
    | error numerator => rfl
    | ok part => cases y <;> rfl
  · rw [List.foldlM_append, hs]
    cases parts with
    | error numerator => rfl
    | ok part =>
      refine Eq.trans (b := (step (.reached part.1 part.2 around) (.op op) >>= fun next => p.foldlM step next)) rfl ?_
      rw [hop]
      refine (hp _ around).trans ?_
      cases y <;> rfl

/-- An operator between a product and a further factor, which is carried out as soon as the factor is known. -/
theorem reads_product_of_factor {terms : List Term} (divides : Bool) {z : Except Float Float}
    (hstep : ∀ total product around, terms.foldlM step (.reached total product around) =
      u.foldlM step (.expecting ⟨total, some (product, divides), 0⟩ around))
    (hz : ∀ total around, (answer x >>= fun product => answer y >>= supply ⟨total, some (product, divides), 0⟩ around) =
      answer z >>= fun value => .ok (.reached total value around))
    (hp : Category.product.Reads p x) (hu : Category.signed.Reads u y) : Category.product.Reads (p ++ terms) z := by
  intro total around
  rw [List.foldlM_append, hp, ← hz]
  cases x with
  | error numerator => rfl
  | ok product => exact (hstep _ _ _).trans (hu _ _)

theorem Derives.reads {c : Category} (h : Derives c terms x) : c.Reads terms x := by
  induction h with
  | @product p x _ ih =>
    refine ⟨x.map (none, ·), by cases x <;> rfl, fun around => (ih none around).trans ?_⟩
    cases x <;> rfl
  | plus _ _ ihs ihp => exact reads_sum_of_sign .plus false (fun _ _ _ => rfl) ihs ihp
  | minus _ _ ihs ihp => exact reads_sum_of_sign .minus true (fun _ _ _ => rfl) ihs ihp
  | @signed u x _ ih =>
    intro total around
    refine (ih _ _).trans ?_
    cases x <;> rfl
  | @times p u x y _ _ ihp ihu =>
    refine reads_product_of_factor false (fun _ _ _ => rfl) (fun total around => ?_) ihp ihu
    cases x <;> cases y <;> rfl
  | @divide p u x y _ _ ihp ihu =>
    refine reads_product_of_factor true (fun _ _ _ => rfl) (fun total around => ?_) ihp ihu
    cases x with
    | error numerator => rfl
    | ok product =>
      cases y with
      | error numerator => rfl
      | ok factor =>
        change (if factor == 0.0 then _ else _) = answer (if factor == 0.0 then _ else _) >>= _
        split <;> rfl
  | @juxtaposed p u x y _ _ hfirst ihp ihu =>
    refine reads_product_of_factor false (fun _ _ _ => foldlM_of_beginsOperand hfirst) (fun total around => ?_) ihp ihu
    cases x <;> cases y <;> rfl
  | positive _ ih => exact fun here around => ih here around
  | @negative u x _ ih =>
    intro here around
    refine (ih { here with negations := here.negations + 1 } around).trans ?_
    cases x with
    | error numerator => rfl
    | ok value =>
      change supply _ _ value = supply here around (-value)
      rw [supply, supply, negate_neg]
  | operand _ ih => exact ih
  | number x => exact fun here around => bind_pure (supply here around x)
  | @group s x _ ih =>
    obtain ⟨parts, rfl, hs⟩ := ih
    intro here around
    rw [List.foldlM_append, List.foldlM_cons]
    refine Eq.trans (b := (s.foldlM step (.expecting .fresh (here :: around)) >>= fun next => [Term.closing].foldlM step next)) rfl ?_
    rw [hs]
    cases parts with
    | error numerator => rfl
    | ok part =>
      exact bind_pure (supply here around (addTo part.1 part.2))

/-- A sum has the value of its evaluation, or the first division by zero in it is reported. -/
theorem value_of_derives (h : Derives .sum terms x) : value terms = answer x := by
  obtain ⟨parts, rfl, hparts⟩ := h.reads
  rw [value, run_eq, start, hparts]
  cases parts <;> rfl

end

/-! ## What is read is derived -/

/-- Terms that a category derives. -/
def Derivable (c : Category) (terms : List Term) : Prop := ∃ x, Derives c terms x

/-- The terms of a group up to its last product: what comes before that product is empty or a sum with a sign behind it. -/
def Reached (terms : List Term) : Prop :=
  ∃ before p, terms = before ++ p ∧ Derivable .product p ∧
    (before = [] ∨ ∃ s op, before = s ++ [.op op] ∧ (op = .plus ∨ op = .minus) ∧ Derivable .sum s)

/-- The terms of a group up to a place where a signed operand has to come. -/
def Awaits (terms : List Term) : Prop := ∀ u, Derivable .signed u → Reached (terms ++ u)

/-- The terms before a group with open groups around it, the innermost first: up to each of them an operand may come. -/
inductive Opened : List Pending → List Term → Prop where
  | nil : Opened [] []
  | cons {around : List Pending} {outer terms : List Term} (here : Pending) (houter : Opened around outer)
    (hterms : ∀ o, Derivable .operand o → Reached (terms ++ o)) : Opened (here :: around) (outer ++ terms ++ [.opening])

/-- The terms that have been read in a state. -/
inductive Parsed : State → List Term → Prop where
  | expecting {around : List Pending} {outer terms : List Term} (here : Pending) (houter : Opened around outer) (hterms : Awaits terms) :
    Parsed (.expecting here around) (outer ++ terms)
  | reached {around : List Pending} {outer terms : List Term} (total : Option (Float × Bool)) (product : Float)
    (houter : Opened around outer) (hterms : Reached terms) : Parsed (.reached total product around) (outer ++ terms)

section
variable {terms u : List Term} {op : Operator} {around : List Pending}

theorem Reached.sum (h : Reached terms) : Derivable .sum terms := by
  obtain ⟨before, p, rfl, ⟨y, hp⟩, rfl | ⟨s, op, rfl, rfl | rfl, x, hs⟩⟩ := h
  · exact ⟨y, .product hp⟩
  · exact ⟨_, by simpa using hs.plus hp⟩
  · exact ⟨_, by simpa using hs.minus hp⟩

theorem reached_of_product (h : Derivable .product terms) : Reached terms := ⟨[], terms, rfl, h, .inl rfl⟩

theorem awaits_nil : Awaits [] := fun _ ⟨_, hu⟩ => reached_of_product ⟨_, .signed hu⟩

theorem Awaits.operand (h : Awaits terms) (hu : Derivable .operand u) : Reached (terms ++ u) := by
  obtain ⟨x, hu⟩ := hu
  exact h u ⟨x, .operand hu⟩

/-- A sign may stand before a signed operand. -/
theorem Awaits.sign (h : Awaits terms) (hop : op = .plus ∨ op = .minus) : Awaits (terms ++ [.op op]) := by
  rintro u ⟨x, hu⟩
  rw [List.append_assoc, List.singleton_append]
  rcases hop with rfl | rfl
  · exact h _ ⟨_, hu.positive⟩
  · exact h _ ⟨_, hu.negative⟩

/-- A further product may follow a sum behind a sign. -/
theorem Reached.sign (h : Reached terms) (hop : op = .plus ∨ op = .minus) : Awaits (terms ++ [.op op]) :=
  fun u ⟨_, hu⟩ => ⟨_, u, rfl, ⟨_, .signed hu⟩, .inr ⟨terms, op, rfl, hop, h.sum⟩⟩

/-- The last product may be continued. -/
theorem Reached.extend (h : Reached terms) (hu : ∀ p, Derivable .product p → Derivable .product (p ++ u)) : Reached (terms ++ u) := by
  obtain ⟨before, p, rfl, hp, hbefore⟩ := h
  exact ⟨before, p ++ u, List.append_assoc _ _ _, hu p hp, hbefore⟩

/-- A factor may follow a product behind an operator. -/
theorem Reached.factor (h : Reached terms) (hop : op = .times ∨ op = .divide) : Awaits (terms ++ [.op op]) := by
  rintro u ⟨y, hu⟩
  rw [List.append_assoc, List.singleton_append]
  refine h.extend fun p hp => ?_
  obtain ⟨x, hp⟩ := hp
  rcases hop with rfl | rfl
  · exact ⟨_, hp.times hu⟩
  · exact ⟨_, hp.divide hu⟩

theorem beginsOperand_of_derives {o : List Term} {x : Except Float Float} (h : Derives .operand o x) : beginsOperand o = true := by
  cases h <;> rfl

/-- An operand may follow a product with nothing in between. -/
theorem Reached.operand (h : Reached terms) (hu : Derivable .operand u) : Reached (terms ++ u) := by
  obtain ⟨y, hu⟩ := hu
  exact h.extend fun p ⟨_, hp⟩ => ⟨_, hp.juxtaposed (.operand hu) (beginsOperand_of_derives hu)⟩

theorem derivable_number (x : Float) : Derivable .operand [.number x] := ⟨_, .number x⟩

theorem Reached.group (h : Reached terms) : Derivable .operand (.opening :: terms ++ [.closing]) := by
  obtain ⟨x, hs⟩ := h.sum
  exact ⟨x, hs.group⟩

end

section
variable {state next : State} {terms more : List Term} {term : Term}

/-- An operand that is supplied makes the terms of its group a sum so far. -/
theorem parsed_of_supply {here : Pending} {around : List Pending} {outer : List Term} {x : Float}
    (houter : Opened around outer) (hterms : Reached terms) (h : supply here around x = .ok next) : Parsed next (outer ++ terms) := by
  unfold supply at h
  split at h
  · exact Except.ok.inj h ▸ .reached _ _ houter hterms
  · exact Except.ok.inj h ▸ .reached _ _ houter hterms
  · simp only at h
    split at h
    · cases h
    · exact Except.ok.inj h ▸ .reached _ _ houter hterms

/-- Reading one more term. -/
theorem Parsed.step (h : Parsed state terms) (hstep : step state term = .ok next) : Parsed next (terms ++ [term]) := by
  cases h with
  | @expecting around outer terms here houter hterms =>
    rw [List.append_assoc]
    cases term with
    | number x => exact parsed_of_supply houter (hterms.operand (derivable_number x)) hstep
    | opening =>
      rw [← List.append_assoc, ← List.append_nil (outer ++ terms ++ [_])]
      exact Except.ok.inj hstep ▸ .expecting _ (.cons here houter fun o ho => hterms.operand ho) awaits_nil
    | closing => cases hstep
    | op operator =>
      cases operator with
      | plus => exact Except.ok.inj hstep ▸ .expecting _ houter (hterms.sign (.inl rfl))
      | minus => exact Except.ok.inj hstep ▸ .expecting _ houter (hterms.sign (.inr rfl))
      | times => cases hstep
      | divide => cases hstep
  | @reached around outer terms total product houter hterms =>
    cases term with
    | number x =>
      have hsupply : supply ⟨total, some (product, false), 0⟩ around x = .ok next := hstep
      rw [List.append_assoc]
      exact parsed_of_supply houter (hterms.operand (derivable_number x)) hsupply
    | opening =>
      rw [← List.append_nil (outer ++ terms ++ [_])]
      exact Except.ok.inj hstep ▸ .expecting _ (.cons _ houter fun o ho => hterms.operand ho) awaits_nil
    | closing =>
      cases houter with
      | nil => cases hstep
      | @cons around outer terms' here houter hbefore =>
        have hregroup : outer ++ terms' ++ [.opening] ++ terms ++ [.closing] =
            outer ++ (terms' ++ (.opening :: terms ++ [.closing])) := by simp
        rw [hregroup]
        exact parsed_of_supply houter (hbefore _ hterms.group) hstep
    | op operator =>
      rw [List.append_assoc]
      cases operator with
      | plus => exact Except.ok.inj hstep ▸ .expecting _ houter (hterms.sign (.inl rfl))
      | minus => exact Except.ok.inj hstep ▸ .expecting _ houter (hterms.sign (.inr rfl))
      | times => exact Except.ok.inj hstep ▸ .expecting _ houter (hterms.factor (.inl rfl))
      | divide => exact Except.ok.inj hstep ▸ .expecting _ houter (hterms.factor (.inr rfl))

/-- Terms that are read to the end without a fault are a sum. -/
theorem Parsed.derivable (h : Parsed state terms) {x : Float} (hrun : run state more = .ok x) : Derivable .sum (terms ++ more) := by
  induction more generalizing state terms with
  | nil =>
    rw [List.append_nil]
    cases h with
    | expecting => cases hrun
    | reached total product houter hterms =>
      cases houter with
      | nil => exact hterms.sum
      | cons => cases hrun
  | cons term more ih =>
    rw [run] at hrun
    split at hrun
    · cases hrun
    · rename_i next hstep
      rw [List.append_cons]
      exact ih (h.step hstep) hrun

/-- Terms have a value exactly when the grammar derives them with that value; when their evaluation meets a divisor that is zero, the
first such division is reported with its numerator. -/
theorem value_iff_derives (terms : List Term) : (∀ x, value terms = .ok x ↔ Derives .sum terms (.ok x)) ∧
    ∀ numerator, Derives .sum terms (.error numerator) → value terms = .error (.divisionByZero numerator) := by
  refine ⟨fun x => ⟨fun h => ?_, value_of_derives⟩, fun numerator => value_of_derives⟩
  have hstart : Parsed start ([] ++ []) := .expecting .fresh .nil awaits_nil
  have hderivable : Derivable .sum terms := hstart.derivable h
  obtain ⟨y, hy⟩ := hderivable
  have hvalue := value_of_derives hy
  rw [h] at hvalue
  exact mapError_eq_ok.1 hvalue.symm ▸ hy

/-- In `3/(1-1)` the divisor is a group that is zero. -/
theorem value_iff_derives_quotient :
    Derives .sum [.number 3, .op .divide, .opening, .number 1, .op .minus, .number 1, .closing] (.error 3) ∧
      value [.number 3, .op .divide, .opening, .number 1, .op .minus, .number 1, .closing] = .error (.divisionByZero 3) := by
  have hone : Derives .product [.number 1] (.ok 1) := .signed (.operand (.number 1))
  have hgroup := Derives.group ((Derives.product hone).minus hone)
  have hthree : Derives .product [.number 3] (.ok 3) := .signed (.operand (.number 3))
  have hzero : ((1 : Float) - 1 == 0.0) = true := by decide
  have hderives : Derives .sum [.number 3, .op .divide, .opening, .number 1, .op .minus, .number 1, .closing] (.error 3) := by
    have hquotient : (if (1 : Float) - 1 == 0.0 then .error 3 else .ok (3 / (1 - 1)) : Except Float Float) = .error 3 := if_pos hzero
    rw [← hquotient]
    exact .product (hthree.divide (.operand hgroup))
  exact ⟨hderives, (value_iff_derives _).2 _ hderives⟩

end

end FormulaDag.Sum
