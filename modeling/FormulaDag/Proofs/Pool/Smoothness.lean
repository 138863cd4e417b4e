import FormulaDag.Proofs.Pool.Draining
import FormulaDag.Proofs.Rule.Reducts

/-!
# Smooth reductions

What becomes of a text does not depend on when its turn comes, with one exception. While the rules are tried on an index its text may
become that of another index. Then it is left to that other one, on which all rules are tried again from the first on, whereas the index
itself would have gone on with the next rule. A reduction is smooth when this makes no difference: the rules that were tried before rest
in the text that is left. Then every text is reduced to what the rules make of its parts.
-/

namespace FormulaDag

namespace Pool

/-- Whether nothing is lost when an index is left in the middle of the rules: it still holds a text, or the rules that were tried on it
rest in the text that it was left with. -/
def isSmoothAt (tried : List (Nat × Rule)) (p : Pool) (i : Nat) : Bool :=
  p.holds i || tried.all fun e => e.2.rests e.1 (p.text i)

/-- Whether the extractions of one rule are smooth. -/
def exhaustsSmoothly (tried : List (Nat × Rule)) (i id : Nat) (r : Rule) : Nat → Progress → Bool
  | 0, _ => true
  | turns + 1, s =>
    match r.locate id (s.pool.text i) with
    | .ok (some l) =>
      if s.pool.holds i && !l.occurrence.isWhole (s.pool.text i) then
        isSmoothAt tried (s.extract i l).pool i && exhaustsSmoothly tried i id r turns (s.extract i l)
      else true
    | _ => true

/-- Whether the rules are tried smoothly on one index. -/
def triesSmoothly (i : Nat) (tried : List (Nat × Rule)) : List (Nat × Rule) → Progress → Bool
  | [], _ => true
  | e :: rest, s =>
    exhaustsSmoothly tried i e.1 e.2 ((s.pool.text i).length + 1) s &&
      match exhaust i e.1 e.2 ((s.pool.text i).length + 1) s with
      | .ok s' => triesSmoothly i (tried ++ [e]) rest s'
      | .error _ => true

/-- Whether the indices of a queue are reduced smoothly. -/
def drainsSmoothly (rules : List (Nat × Rule)) : Nat → Pool → List Nat → Bool
  | 0, _, _ => true
  | _, _, [] => true
  | turns + 1, p, i :: queue =>
    triesSmoothly i [] rules ⟨p, [], false⟩ &&
      match reduceIndex rules p i with
      | .ok s => drainsSmoothly rules turns s.pool (s.waiting i queue)
      | .error _ => true

/-- Whether a pool is reduced smoothly. -/
def reducesSmoothly (s : RuleSet) (p : Pool) : Bool := drainsSmoothly s.numbered p.reductionBound p p.holders

/-- The cells that a pool has together with those that its reduction may still need. -/
def reach (p : Pool) : Nat := p.cells.length + p.work

/-- Every index stands for what the rules make of its text. -/
structure Promised (all : List (Nat × Rule)) (val : Nat → Tree) (p : Pool) : Prop where
  written : p.Written
  small : p.cells.length ≤ Index.bound
  pointed : ∀ k, k < p.cells.length → val (p.resolve k) = val k
  reduces : ∀ x u, p.Writes x u → Reduces all all (u.map (Mark.part val)) (val x)

/-- The same while the rules are tried on one index, of which some are left to be tried. -/
structure Promises (all rest : List (Nat × Rule)) (val : Nat → Tree) (i : Nat) (p : Pool) : Prop where
  written : p.Written
  small : p.cells.length ≤ Index.bound
  pointed : ∀ k, k < p.cells.length → val (p.resolve k) = val k
  others : ∀ x u, x ≠ i → p.Writes x u → Reduces all all (u.map (Mark.part val)) (val x)
  own : ∀ u, p.Writes i u → Reduces all rest (u.map (Mark.part val)) (val i)

section
variable {all tried rest : List (Nat × Rule)} {e : Nat × Rule} {val val' : Nat → Tree} {p q : Pool} {i k : Nat} {created : Bool}
  {a m b : Line} {s s' : Progress}

theorem Writes.spells {x : Nat} {u : Line} (h : p.Writes x u) (hsmall : p.cells.length ≤ Index.bound) (val : Nat → Tree) :
    u.Spells val (u.map (Mark.part val)) := ⟨h.within.mono hsmall, rfl⟩

theorem Writes.rests {x : Nat} {u : Line} (h : p.Writes x u) (hsmall : p.cells.length ≤ Index.bound) (val : Nat → Tree)
    (hrests : e.2.rests e.1 (p.text x) = true) : Rule.Rests e (u.map (Mark.part val)) :=
  ⟨val, u, h.spells hsmall val, h.text ▸ hrests⟩

theorem Promised.promises (h : Promised all val p) (i : Nat) : Promises all all val i p :=
  ⟨h.written, h.small, h.pointed, fun x u _ hu => h.reduces x u hu, h.reduces i⟩

theorem Promised.again (h : Promised all val p) (i : Nat) : Promises all [] val i p :=
  ⟨h.written, h.small, h.pointed, fun x u _ hu => h.reduces x u hu, fun u hu => .again (h.reduces i u hu)⟩

theorem Promises.promised (h : Promises all all val i p) : Promised all val p :=
  ⟨h.written, h.small, h.pointed, fun x u hu => if hxi : x = i then hxi ▸ h.own u (hxi ▸ hu) else h.others x u hxi hu⟩

section
variable (hall : ∀ e ∈ all, e.2.IsUniform ∧ e.2.Separate)
include hall

/-- When all rules have been tried they start again. -/
theorem Promises.start (h : Promises all [] val i p) : Promised all val p := by
  refine Promises.promised ⟨h.written, h.small, h.pointed, h.others, fun u hu => ?_⟩
  rcases (h.own u hu).cases_nil with ⟨hrests, hnode⟩ | hagain
  · have hreduces := (Reduces.append_iff hall (List.Subset.refl _) hrests).2 (.done hrests)
    rwa [List.append_nil, ← hnode] at hreduces
  · exact hagain

/-- When an index is left smoothly it does not matter where the rules go on. -/
theorem reduces_iff_of_isSmoothAt (heq : all = tried ++ rest) (hsmooth : isSmoothAt tried p i = true) (hheld : ¬p.holds i = true)
    (hsmall : p.cells.length ≤ Index.bound) {u : Line} (hu : p.Writes (p.resolve i) u) {w : Tree} :
    Reduces all all (u.map (Mark.part val)) w ↔ Reduces all rest (u.map (Mark.part val)) w := by
  rw [isSmoothAt, eq_false_of_ne_true hheld, Bool.false_or, List.all_eq_true] at hsmooth
  have hrests : ∀ d ∈ tried, Rule.Rests d (u.map (Mark.part val)) := fun d hd =>
    hu.rests hsmall val (by rw [hu.text, ← text_of_writes_resolve hu]; exact hsmooth d hd)
  have hiff : Reduces all (tried ++ rest) (u.map (Mark.part val)) w ↔ Reduces all rest (u.map (Mark.part val)) w :=
    Reduces.append_iff hall (fun d hd => heq ▸ List.mem_append_left _ hd) hrests
  rwa [← heq] at hiff

/-- What the text of an index is reduced to from here on, whether it is still its own or not. -/
theorem Promises.reduces_text (h : Promises all rest val i p) (heq : all = tried ++ rest) (hsmooth : isSmoothAt tried p i = true)
    {u : Line} (hu : p.Writes (p.resolve i) u) (hi : i < p.cells.length) : Reduces all rest (u.map (Mark.part val)) (val i) := by
  by_cases hheld : p.holds i = true
  · rw [resolve_of_holds hheld] at hu
    exact h.own u hu
  · rw [← reduces_iff_of_isSmoothAt hall heq hsmooth hheld h.small hu, ← h.pointed i hi]
    exact h.others _ u (fun heq => hheld (heq ▸ hu.held)) hu

/-- What is promised after an extraction was promised before it. -/
theorem Promises.before (h : Promises all (e :: rest) val i s'.pool) (heq : all = tried ++ e :: rest)
    (hsmooth : isSmoothAt tried s'.pool i = true) (hs : s.pool.Written) (hextracts : Extracts i e s s') :
    Promises all (e :: rest) val i s.pool := by
  obtain ⟨hu, hdivides, hpart, hchar, hextracted, -, -⟩ := hextracts
  rename_i k created a m b l
  have hlength := hextracted.length
  have hlt : ∀ {x : Nat}, x < s.pool.cells.length → x < s'.pool.cells.length := fun hx => by omega
  have hsmall : s.pool.cells.length ≤ Index.bound := by
    have := h.small
    omega
  refine ⟨hs, hsmall, fun x hx => ?_, fun x u hxi hx => h.others x u hxi (hextracted.kept x u hxi hx), fun u hx => ?_⟩
  · have hpointed := h.pointed x (hlt hx)
    rw [hextracted.resolve x hx] at hpointed
    split at hpointed
    · rename_i hxi
      rw [hxi, ← hpointed, h.pointed i (hlt (lt_of_holds hu.held))]
    · exact hpointed
  · rw [hx.unique hu, List.map_append, List.map_append]
    refine .cut (.mk (hu.within.mono hsmall) hdivides hpart) (h.others k m hextracted.other hextracted.child) ?_
    have hrest := h.reduces_text hall heq hsmooth hextracted.target (hlt (lt_of_holds hu.held))
    rwa [List.map_append, List.map_cons] at hrest

/-- What is promised of a text says what the parts of it that the next rule divides are reduced to. -/
theorem Promises.exists_part (h : Promises all (e :: rest) val i p) (hmem : e ∈ all) (hu : p.Writes i (a ++ (m ++ b)))
    (hcut : Rule.Cuts e (a.map (Mark.part val)) (m.map (Mark.part val)) (b.map (Mark.part val))) :
    ∃ v, Reduces all all (m.map (Mark.part val)) v ∧
      Reduces all (e :: rest) (a.map (Mark.part val) ++ .inr v :: b.map (Mark.part val)) (val i) := by
  obtain ⟨hr, hsep⟩ := hall e hmem
  have hown := h.own _ hu
  rw [List.map_append, List.map_append] at hown
  rcases hown.cases_cons with ⟨hrests, -⟩ | ⟨a', m', b', v, hparts, hcut', hm, hrest⟩
  · exact absurd hrests (hcut.not_rests hr hsep)
  · obtain ⟨rfl, rfl, rfl⟩ := hcut.unique hr hsep hcut' hparts
    exact ⟨v, hm, hrest⟩

omit hall in
/-- The index of the part may be given any tree when it is new. -/
theorem Extracted.exists_val (h : Extracted p q i k created a m b) {v : Tree} (hold : created = false → val k = v) :
    ∃ val' : Nat → Tree, (∀ x, x < p.cells.length → val' x = val x) ∧ val' k = v := by
  cases created with
  | true =>
    refine ⟨fun x => if x = k then v else val x, fun x hx => if_neg ?_, if_pos rfl⟩
    rw [h.fresh rfl]
    exact Nat.ne_of_lt hx
  | false => exact ⟨val, fun _ _ => rfl, hold rfl⟩

omit hall in
/-- No index but that of the part is new. -/
theorem Extracted.eq_of_le (h : Extracted p q i k created a m b) {x : Nat} (hx : x < q.cells.length) (hnew : p.cells.length ≤ x) :
    x = k := by
  have hlength := h.length
  cases created with
  | true =>
    have := h.fresh rfl
    simp only [Bool.toNat_true] at hlength
    omega
  | false =>
    simp only [Bool.toNat_false] at hlength
    omega

/-- What is promised before an extraction is kept, and the new index stands for what the rules make of the part. -/
theorem Promises.after (h : Promises all (e :: rest) val i s.pool) (heq : all = tried ++ e :: rest)
    (hsmooth : isSmoothAt tried s'.pool i = true) (hsmall : s'.pool.cells.length ≤ Index.bound) (hextracts : Extracts i e s s') :
    ∃ val', (∀ x, x < s.pool.cells.length → val' x = val x) ∧ Promises all (e :: rest) val' i s'.pool := by
  obtain ⟨hu, hdivides, hpart, hchar, hextracted, -, -⟩ := hextracts
  rename_i k created a m b l
  obtain ⟨v, hm, hrest⟩ := h.exists_part hall (by simp [heq]) hu (.mk (hu.within.mono h.small) hdivides hpart)
  obtain ⟨val', hagree, hval'⟩ := hextracted.exists_val fun hcreated =>
    (h.others k m hextracted.other (hextracted.found hcreated)).unique hall hm (List.Subset.refl _)
  have hwithin : ∀ {u : Line}, u ⊆ a ++ (m ++ b) → u.Within s.pool.cells.length := fun hsub => hu.within.subset hsub
  have hparts : ∀ {u : Line}, u.Within s.pool.cells.length → u.map (Mark.part val') = u.map (Mark.part val) := fun hu =>
    hu.map_part hagree
  have hnew : Reduces all (e :: rest) (List.map (Mark.part val') (a ++ .ref k :: b)) (val' i) := by
    rw [List.map_append, List.map_cons, hparts (hwithin (by simp)), hparts (hwithin (by simp)), Mark.part, hval',
      hagree i (lt_of_holds hu.held)]
    exact hrest
  have hothers : ∀ x u, x ≠ i → s'.pool.Writes x u → Reduces all all (u.map (Mark.part val')) (val' x) := by
    intro x u hxi hx
    rcases hextracted.before x u hx hxi with hx | ⟨rfl, rfl, -⟩
    · rw [hparts hx.within, hagree x (lt_of_holds hx.held)]
      exact h.others x u hxi hx
    · rw [hparts (hwithin (by simp)), hval']
      exact hm
  have htarget := hextracted.target
  have hi : val' (s'.pool.resolve i) = val' i := by
    by_cases hheld : s'.pool.holds i = true
    · rw [resolve_of_holds hheld]
    · have hne : s'.pool.resolve i ≠ i := fun heq => hheld (heq ▸ htarget.held)
      have hreduces := (reduces_iff_of_isSmoothAt hall heq hsmooth hheld hsmall htarget).1 (hothers _ _ hne htarget)
      exact hreduces.unique hall hnew (by simp [heq])
  refine ⟨val', hagree, hextracted.written, hsmall, fun x hx => ?_, hothers, fun u hx => ?_⟩
  · by_cases hxp : x < s.pool.cells.length
    · have hheld := h.written.sound.holds_resolve hxp
      rw [hextracted.resolve x hxp, hagree x hxp, ← h.pointed x hxp]
      split
      · rename_i hxi
        rw [hi, hxi, hagree i (lt_of_holds hu.held)]
      · exact hagree _ (lt_of_holds hheld)
    · rw [hextracted.eq_of_le hx (Nat.le_of_not_lt hxp), resolve_of_holds hextracted.child.held]
  · have hui := resolve_of_holds hx.held
    rw [hui] at htarget
    rw [hx.unique htarget]
    exact hnew

/-- A rule that rests leaves what is promised as it is. -/
theorem promises_cons_iff (hmem : e ∈ all) (hrests : p.holds i = true → e.2.rests e.1 (p.text i) = true) :
    Promises all (e :: rest) val i p ↔ Promises all rest val i p := by
  constructor
  · intro h
    refine ⟨h.written, h.small, h.pointed, h.others, fun u hu => ?_⟩
    rcases (h.own u hu).cases_cons with ⟨-, hreduces⟩ | ⟨a, m, b, v, heq, hcut, -⟩
    · exact hreduces
    · have hrest := hu.rests h.small val (hrests hu.held)
      exact absurd (heq ▸ hrest) (hcut.not_rests (hall e hmem).1 (hall e hmem).2)
  · intro h
    exact ⟨h.written, h.small, h.pointed, h.others, fun u hu => .pass (hu.rests h.small val (hrests hu.held)) (h.own u hu)⟩

/-- A rule that is about to be tried on an index does not fail. -/
theorem Promises.exists_located (h : Promises all (e :: rest) val i p) (hmem : e ∈ all) (hi : p.holds i = true) :
    ∃ found, e.2.locate e.1 (p.text i) = .ok found := by
  obtain ⟨hr, hsep⟩ := hall e hmem
  obtain ⟨u, hu⟩ := h.written.written i hi
  have hspells := hu.spells h.small val
  rw [hu.text]
  rcases (h.own u hu).cases_cons with ⟨hrests, -⟩ | ⟨a, m, b, v, heq, hcut, -⟩
  · have hrests := hrests.rests hr hsep hspells
    rw [Rule.rests] at hrests
    split at hrests
    · exact ⟨none, by assumption⟩
    · exact ⟨some _, by assumption⟩
    · cases hrests
  · obtain ⟨a', m', b', l, rfl, hdivides, -⟩ := hcut.divides hr hsep (heq ▸ hspells)
    exact ⟨some l, hdivides.found⟩

end

/-- A pool that reduction has led to from another, with what the indices stand for in both. -/
structure Onward (p q : Pool) (val val' : Nat → Tree) : Prop where
  larger : p.cells.length ≤ q.cells.length
  agree : ∀ x, x < p.cells.length → val' x = val x
  reach : q.reach ≤ p.reach

theorem Onward.refl (p : Pool) (val : Nat → Tree) : Onward p p val val := ⟨Nat.le_refl _, fun _ _ => rfl, Nat.le_refl _⟩

theorem Onward.trans {r : Pool} {val'' : Nat → Tree} (h : Onward p q val val') (h' : Onward q r val' val'') : Onward p r val val'' where
  larger := h.larger.trans h'.larger
  agree x hx := (h'.agree x (Nat.lt_of_lt_of_le hx h.larger)).trans (h.agree x hx)
  reach := h'.reach.trans h.reach

theorem Extracts.onward (h : Extracts i e s s') (hagree : ∀ x, x < s.pool.cells.length → val' x = val x) : Onward s.pool s'.pool val val' := by
  obtain ⟨-, -, -, -, hextracted, -, -⟩ := h
  have hlength := hextracted.length
  have hwork := hextracted.work
  refine ⟨by omega, hagree, ?_⟩
  rw [reach, reach]
  have := Bool.toNat_le ‹Bool›
  omega

end

/-! ## Backwards and forwards through a reduction -/

section
variable {r : RuleSet} {tried rest : List (Nat × Rule)} {e : Nat × Rule} {val : Nat → Tree} {p q : Pool} {i turns : Nat} {s s' : Progress}

theorem exhaustsSmoothly_of_part {l : Located} (hi : s.pool.holds i = true) (hl : e.2.locate e.1 (s.pool.text i) = .ok (some l))
    (hpart : l.occurrence.isWhole (s.pool.text i) = false) : exhaustsSmoothly tried i e.1 e.2 (turns + 1) s =
      (isSmoothAt tried (s.extract i l).pool i && exhaustsSmoothly tried i e.1 e.2 turns (s.extract i l)) := by
  rw [exhaustsSmoothly, hl]
  simp only [hi, hpart]
  rfl

section
variable (heq : r.numbered = tried ++ e :: rest) (hturns : Token.plainCount (s.pool.text i) < turns)
  (hsmooth : exhaustsSmoothly tried i e.1 e.2 turns s = true)
include heq hturns hsmooth

/-- What is promised when a rule has been tried was promised before. -/
theorem Promises.before_exhaust (hs : s.pool.Written) (hok : exhaust i e.1 e.2 turns s = .ok s')
    (h : Promises r.numbered rest val i s'.pool) : Promises r.numbered (e :: rest) val i s.pool := by
  have hmem : e ∈ r.numbered := by simp [heq]
  induction turns generalizing s with
  | zero => exact absurd hturns (Nat.not_lt_zero _)
  | succ turns ih =>
    rcases hs.rests_or_extracts (RuleSet.mem_of_numbered hmem) (exists_located_of_exhaust hok) with hrests | ⟨l, hi, hl, hpart, hextracts⟩
    · rw [exhaust_of_rests hrests] at hok
      obtain rfl := Except.ok.inj hok
      exact (promises_cons_iff r.uniform_and_separate hmem hrests).2 h
    · rw [exhaust_of_part hi hl hpart] at hok
      rw [exhaustsSmoothly_of_part hi hl hpart, Bool.and_eq_true] at hsmooth
      have hlt := hextracts.plainCount_lt
      exact (ih (by omega) hsmooth.2 hextracts.written hok).before r.uniform_and_separate heq hsmooth.1 hs hextracts

/-- A rule is tried with success, and what is promised is kept. -/
theorem Promises.exhaust (h : Promises r.numbered (e :: rest) val i s.pool) (hreach : s.pool.reach ≤ Index.bound) :
    ∃ s' val', Pool.exhaust i e.1 e.2 turns s = .ok s' ∧ Onward s.pool s'.pool val val' ∧ Promises r.numbered rest val' i s'.pool := by
  have hmem : e ∈ r.numbered := by simp [heq]
  induction turns generalizing s val with
  | zero => exact absurd hturns (Nat.not_lt_zero _)
  | succ turns ih =>
    rcases h.written.rests_or_extracts (RuleSet.mem_of_numbered hmem) (h.exists_located r.uniform_and_separate hmem) with
      hrests | ⟨l, hi, hl, hpart, hextracts⟩
    · exact ⟨s, val, exhaust_of_rests hrests, .refl _ _, (promises_cons_iff r.uniform_and_separate hmem hrests).1 h⟩
    · rw [exhaustsSmoothly_of_part hi hl hpart, Bool.and_eq_true] at hsmooth
      have hlt := hextracts.plainCount_lt
      have honward : Onward s.pool (s.extract i l).pool val val := hextracts.onward fun _ _ => rfl
      have hreach' := honward.reach.trans hreach
      obtain ⟨val₁, hagree, h₁⟩ := h.after r.uniform_and_separate heq hsmooth.1 ((Nat.le_add_right _ _).trans hreach') hextracts
      obtain ⟨s', val', hok, honward, h'⟩ := ih (by omega) hsmooth.2 h₁ hreach'
      exact ⟨s', val', (exhaust_of_part hi hl hpart).trans hok, (hextracts.onward hagree).trans honward, h'⟩

end

/-- What is promised when all rules have been tried was promised before. -/
theorem Promises.before_foldlM (heq : r.numbered = tried ++ rest) (hsmooth : triesSmoothly i tried rest s = true) (hs : s.pool.Written)
    (hok : rest.foldlM (fun s (id, r) => Pool.exhaust i id r ((s.pool.text i).length + 1) s) s = .ok s')
    (h : Promises r.numbered [] val i s'.pool) : Promises r.numbered rest val i s.pool := by
  induction rest generalizing tried s with
  | nil =>
    rw [List.foldlM_nil] at hok
    exact Except.ok.inj hok ▸ h
  | cons e rest ih =>
    rw [List.foldlM_cons] at hok
    obtain ⟨s₁, hs₁, hok⟩ := bind_eq_ok.1 hok
    have hs₁ : Pool.exhaust i e.1 e.2 ((s.pool.text i).length + 1) s = .ok s₁ := hs₁
    rw [triesSmoothly, Bool.and_eq_true, hs₁] at hsmooth
    have hturns := Nat.lt_succ_of_le (Token.plainCount_le_length (s.pool.text i))
    have hmem : e ∈ r.numbered := by simp [heq]
    have hwritten := (hs.exhausts (RuleSet.mem_of_numbered hmem) hturns hs₁).written hs
    have heq' : r.numbered = (tried ++ [e]) ++ rest := by rw [heq, List.append_assoc, List.singleton_append]
    exact .before_exhaust heq hturns hsmooth.1 hs hs₁ (ih heq' hsmooth.2 hwritten hok)

/-- All rules are tried with success, and what is promised is kept. -/
theorem Promises.foldlM (heq : r.numbered = tried ++ rest) (hsmooth : triesSmoothly i tried rest s = true)
    (h : Promises r.numbered rest val i s.pool) (hreach : s.pool.reach ≤ Index.bound) : ∃ s' val',
    rest.foldlM (fun s (id, r) => Pool.exhaust i id r ((s.pool.text i).length + 1) s) s = .ok s' ∧
      Onward s.pool s'.pool val val' ∧ Promises r.numbered [] val' i s'.pool := by
  induction rest generalizing tried s val with
  | nil => exact ⟨s, val, rfl, .refl _ _, h⟩
  | cons e rest ih =>
    rw [triesSmoothly, Bool.and_eq_true] at hsmooth
    have hturns := Nat.lt_succ_of_le (Token.plainCount_le_length (s.pool.text i))
    obtain ⟨s₁, val₁, hs₁, honward, h₁⟩ := h.exhaust heq hturns hsmooth.1 hreach
    rw [hs₁] at hsmooth
    have heq' : r.numbered = (tried ++ [e]) ++ rest := by rw [heq, List.append_assoc, List.singleton_append]
    obtain ⟨s', val', hok, honward', h'⟩ := ih heq' hsmooth.2 h₁ (honward.reach.trans hreach)
    refine ⟨s', val', ?_, honward.trans honward', h'⟩
    rw [List.foldlM_cons]
    exact bind_eq_ok.2 ⟨s₁, hs₁, hok⟩

section
variable {queue : List Nat}

/-- What is promised at the end of a smooth reduction was promised from the beginning. -/
theorem Promised.before_reduceQueue (hsmooth : drainsSmoothly r.numbered turns p queue = true) (hp : p.Written)
    (hok : Pool.reduceQueue r.numbered turns p queue = .ok q) (h : Promised r.numbered val q) : Promised r.numbered val p := by
  induction turns generalizing p queue with
  | zero =>
    rw [Pool.reduceQueue] at hok
    exact Except.ok.inj hok ▸ h
  | succ turns ih =>
    cases queue with
    | nil =>
      rw [Pool.reduceQueue] at hok
      · exact Except.ok.inj hok ▸ h
      · exact Nat.succ_ne_zero turns
    | cons i queue =>
      rw [reduceQueue_cons] at hok
      obtain ⟨s, hs, hok⟩ := bind_eq_ok.1 hok
      rw [drainsSmoothly, Bool.and_eq_true, hs] at hsmooth
      have hlater := ih hsmooth.2 (hp.traced hs).written hok
      exact (Promises.before_foldlM (s := ⟨p, [], false⟩) (List.nil_append _).symm hsmooth.1 hp hs (hlater.again i)).promised

/-- A smooth reduction succeeds, and what is promised is kept. -/
theorem Promised.reduceQueue (hsmooth : drainsSmoothly r.numbered turns p queue = true) (h : Promised r.numbered val p)
    (hreach : p.reach ≤ Index.bound) :
    ∃ q val', Pool.reduceQueue r.numbered turns p queue = .ok q ∧ Onward p q val val' ∧ Promised r.numbered val' q := by
  induction turns generalizing p queue val with
  | zero => exact ⟨p, val, by rw [Pool.reduceQueue], .refl _ _, h⟩
  | succ turns ih =>
    cases queue with
    | nil =>
      refine ⟨p, val, ?_, .refl _ _, h⟩
      rw [Pool.reduceQueue]
      exact Nat.succ_ne_zero turns
    | cons i queue =>
      rw [drainsSmoothly, Bool.and_eq_true] at hsmooth
      obtain ⟨s, val₁, hs, honward, h₁⟩ := Promises.foldlM (s := ⟨p, [], false⟩) (List.nil_append _).symm hsmooth.1 (h.promises i) hreach
      have hs : reduceIndex r.numbered p i = .ok s := hs
      rw [hs] at hsmooth
      obtain ⟨q, val', hok, honward', h'⟩ := ih hsmooth.2 (h₁.start r.uniform_and_separate) (honward.reach.trans hreach)
      exact ⟨q, val', by rw [reduceQueue_cons, hs]; exact hok, honward.trans honward', h'⟩

end

/-- Once all rules rest, every index stands for its text as it is. -/
theorem Settled.promised_iff (h : Settled r.numbered [] p) (hsmall : p.cells.length ≤ Index.bound) :
    Promised r.numbered val p ↔ p.Denotes [] [] val := by
  have htree : ∀ u : Line, u.tree [] [] val = .node (u.map (Mark.part val)) := fun u => Line.tree_of_freed (by simp)
  have hrests : ∀ x u, p.Writes x u → ∀ e ∈ r.numbered, Rule.Rests e (u.map (Mark.part val)) := fun x u hu e he =>
    hu.rests hsmall val (h.rests x hu.held (by simp) e he)
  constructor
  · intro hpromised
    refine ⟨h.written.sound, fun x hx => ?_, hpromised.pointed⟩
    obtain ⟨u, hu⟩ := h.written.written x hx
    refine ⟨u, hu, ?_⟩
    rw [htree]
    exact (hpromised.reduces x u hu).eq_node r.uniform_and_separate (List.Subset.refl _) (hrests x u hu)
  · intro hdenotes
    refine ⟨h.written, hsmall, hdenotes.pointed, fun x u hu => ?_⟩
    have hdone := (Reduces.append_iff r.uniform_and_separate (List.Subset.refl _) (hrests x u hu)).2 (.done (hrests x u hu))
    rwa [List.append_nil, ← htree, ← hdenotes.eq_tree hu] at hdone

/-- A smooth reduction that succeeds leaves every index with what the rules make of the text that it had. -/
theorem Denotes.promised (h : q.Denotes [] [] val) (hp : p.Written) (hsmooth : reducesSmoothly r p = true) (hok : reduce r p = .ok q)
    (hsmall : q.cells.length ≤ Index.bound) : Promised r.numbered val p :=
  .before_reduceQueue hsmooth hp hok (((hp.reduce hok).promised_iff hsmall).2 h)

/-- A smooth reduction of texts of which the rules make something succeeds, and leaves every index with that. -/
theorem Promised.exists_reduce (h : Promised r.numbered val p) (hsmooth : reducesSmoothly r p = true) (hreach : p.reach ≤ Index.bound) :
    ∃ q val', reduce r p = .ok q ∧ Onward p q val val' ∧ q.Denotes [] [] val' := by
  obtain ⟨q, val', hok, honward, h'⟩ := h.reduceQueue hsmooth hreach
  exact ⟨q, val', hok, honward, ((h.written.reduce hok).promised_iff h'.small).1 h'⟩

end

end Pool

end FormulaDag
