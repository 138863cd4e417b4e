import FormulaDag.Proofs.Contexts.Fixpoint
import FormulaDag.Proofs.Pool.Resting
import FormulaDag.Proofs.Source.Stripping

/-!
# Calls of functions as whole texts

A text that is the call of a function has a root that is read as this call, unless the name of the function ends with that of another one:
then the call of the other function at its end is taken out, whatever the order in which the two were registered.
-/

namespace FormulaDag

namespace Text

/-- What stands before the first mark of tokens is told by the text. -/
theorem eq_of_append_at {u v x y : Text} (hu : '@' ∉ u) (hv : '@' ∉ v) (h : u ++ '@' :: x = v ++ '@' :: y) : u = v := by
  have hfront : ∀ {w z : Text}, '@' ∉ w → (w ++ '@' :: z).takeWhile (· ≠ '@') = w := by
    intro w z hw
    rw [List.takeWhile_append_of_pos fun c hc => by simpa using fun heq : c = '@' => hw (heq ▸ hc)]
    simp
  rw [← hfront (z := x) hu, h, hfront hv]

end Text

namespace UserFunction
variable {S : RuleSet} {f : UserFunction} {k : Nat} {r : Rule}

/-- The line of a call without a backslash. -/
def line (f : UserFunction) (k : Nat) : Line := Line.ofText f.name ++ [.ref k]

/-- The call of a function on an index is written as its name and the token. -/
theorem text_line (f : UserFunction) (k : Nat) : (f.line k).text = f.call [] (Text.ofNat k) := by
  simp [line, call, Mark.text, Piece.text, Index.token_eq]

/-- The call of a function on an index is a line within a bound of that. -/
theorem within_line (f : UserFunction) {n : Nat} (hk : k < n) : (f.line k).Within n :=
  .append (.ofText f.at_not_mem_name) (.ref hk)

/-- The name of a function has letters only. -/
theorem isAlpha_of_mem_name {c : Char} (hc : c ∈ f.name) : c.isAlpha = true := List.all_eq_true.1 f.letters c hc

/-- What ends with a token in a call begins with the end of the name. -/
theorem suffix_of_text_line {u w digits rest : Text} (hw : '@' ∉ w) (h : (f.line k).text = u ++ (w ++ (Piece.token digits).text ++ rest)) :
    w <:+ f.name := by
  have htext : (f.line k).text = f.name ++ '@' :: '/' :: (Text.ofNat k ++ ['/', '@']) := by simp [line, Mark.text, Index.token_eq]
  have hu : '@' ∉ u := by
    have hcount := congrArg (List.count '@') (htext.symm.trans h)
    have hname : f.name.count '@' = 0 := List.count_eq_zero.2 f.at_not_mem_name
    have hdigits : (Text.ofNat k).count '@' = 0 := List.count_eq_zero.2 fun hmem => by
      have := Index.isDigit_of_mem_ofNat hmem
      simp at this
    simp [Piece.text, List.count_append, hname, hdigits] at hcount
    exact List.count_eq_zero.1 (by omega)
  have hsame : f.name ++ '@' :: '/' :: (Text.ofNat k ++ ['/', '@']) = (u ++ w) ++ '@' :: ('/' :: (digits ++ ['/', '@']) ++ rest) := by
    rw [← htext, h]
    simp [Piece.text]
  rw [Text.eq_of_append_at f.at_not_mem_name (by simp [hu, hw]) hsame]
  exact List.suffix_append u w

/-- A rule finds nothing in a call but for the rule of the function, when the name does not end with that of another function. -/
theorem search_line (hr : r ∈ S.rules) (hsuffix : ∀ g ∈ S.functions, g.name <:+ f.name → g = f) (hk : k < Index.bound)
    (hne : r ≠ f.rule) : r.search [] (f.line k).text = none := by
  cases hsearch : r.search [] (f.line k).text with
  | none => rfl
  | some found =>
    exfalso
    obtain ⟨behind, h⟩ := found
    obtain ⟨u, v, htext, -, hhit⟩ := Rule.hitAt_of_search hsearch
    have hmem := List.mem_of_mem_head? (Option.filter_eq_some_iff.1 hhit).1
    obtain ⟨a, m, b, hline, -, hm, -, hmne⟩ := Rule.search_line (S.isAligned r hr) (S.separate r hr) (f.within_line hk) hsearch
    rcases List.mem_append.1 hr with hr | hr
    · obtain ⟨g, hg, rfl⟩ := List.mem_map.1 hr
      obtain ⟨sign, digits, hsign, -, hv, -, -⟩ := g.call_of_mem_hits hmem
      have hw : '@' ∉ sign ++ g.name := by
        rcases hsign with rfl | rfl <;> simp [g.at_not_mem_name]
      have hends := f.suffix_of_text_line hw (htext.trans (congrArg (u ++ ·) hv))
      rcases hsign with rfl | rfl
      · exact hne (hsuffix g hg hends ▸ rfl)
      · have hslash := f.isAlpha_of_mem_name (hends.subset (by simp : '\\' ∈ ['\\'] ++ g.name))
        simp at hslash
    · have hsub : ∀ x ∈ m, x = .ref k ∨ ∃ c, x = .char c ∧ c.isAlpha = true := fun x hx => by
        have hx : x ∈ f.line k := hline ▸ List.mem_append_left b (List.mem_append_right a hx)
        rcases List.mem_append.1 hx with hx | hx
        · obtain ⟨c, hc, rfl⟩ := List.mem_map.1 hx
          exact .inr ⟨c, rfl, f.isAlpha_of_mem_name hc⟩
        · exact .inl (List.mem_singleton.1 hx)
      rcases Rule.exists_sign hr hmem with rfl | ⟨c, hc, htaken⟩
      · -- a number does not begin with a letter, nor with a token
        obtain ⟨x, m, rfl⟩ := List.exists_cons_of_ne_nil hmne
        obtain ⟨-, hnumeric, -⟩ := Rule.numeral_of_number (Option.filter_eq_some_iff.1 hhit).1
        rcases hsub x List.mem_cons_self with rfl | ⟨c, rfl, hc⟩
        · have hat := hnumeric '@' (hm ▸ by simp [Mark.text, Index.token_eq])
          simp [Text.isNumeric] at hat
        · have hletter := Text.not_isAlpha_of_isNumeric (hnumeric c (hm ▸ by simp [Mark.text]))
          rw [hc] at hletter
          cases hletter
      · rw [← hm] at htaken
        have hsign : c.isDigit = false ∧ c ≠ '@' ∧ c ≠ '/' ∧ c.isAlpha = false := by
          simp only [List.mem_cons, List.not_mem_nil, or_false] at hc
          rcases hc with rfl | rfl <;> decide
        refine Line.not_mem_text hsign.1 hsign.2.1 hsign.2.2.1 (fun hcm => ?_) htaken
        rcases hsub _ hcm with heq | ⟨d, heq, hd⟩
        · cases heq
        · cases heq
          rw [hsign.2.2.2] at hd
          cases hd

/-- What the rule of a function reads in its call. -/
def reading (f : UserFunction) (id k : Nat) : Occurrence :=
  ⟨id, 0, Text.byteSize (f.line k).text, (f.line k).text, none, [some (.index k)]⟩

/-- The rule of a function takes its call from the front. -/
theorem hitAt_line (f : UserFunction) (k : Nat) : f.rule.hitAt [] (f.line k).text =
    some ⟨(f.line k).text, [], [("parameter", (Piece.token (Text.ofNat k)).text)]⟩ := by
  have hdigits : ∀ c ∈ Text.ofNat k, Text.isDecimalDigit c = true := fun c hc =>
    Text.isDecimalDigit_of_isDigit c (Index.isDigit_of_mem_ofNat hc)
  have hfirst := f.first?_call (.inl rfl) (Index.ofNat_ne_nil k) hdigits []
  rw [List.append_nil, ← text_line] at hfirst
  rw [Rule.hitAt, hfirst]
  exact Option.filter_some_pos rfl

/-- What the rule of a function takes is read as a call of its index. -/
theorem occurrence_line (hk : k < Index.bound) (id : Nat) :
    f.rule.occurrence id [] ⟨(f.line k).text, [], [("parameter", (Piece.token (Text.ofNat k)).text)]⟩ = .ok (f.reading id k) := by
  have hsplit : Token.split? ((Piece.token (Text.ofNat k)).text ++ []) = some (Text.ofNat k, []) := by
    have hsplit := Token.split?_token k []
    rwa [Index.token_eq] at hsplit
  rw [f.occurrence_call (h := ⟨(f.line k).text, [], _⟩) rfl hsplit, Index.read?_ofNat hk]
  simp [reading]

/-- The rule of a function finds its call whole. -/
theorem findWhole_line (hk : k < Index.bound) (id : Nat) : f.rule.findWhole id (f.line k).text = .ok (some (f.reading id k)) := by
  have hwhole : (f.reading id k).isWhole (f.line k).text = true := by simp [reading, Occurrence.isWhole]
  rw [Rule.findWhole, Rule.find, Rule.locate, Rule.search_of_hitAt (f.hitAt_line k)]
  simp only [occurrence_line hk]
  simp [Except.map, hwhole]

/-- All rules rest in a call. -/
theorem rests_line (hsuffix : ∀ g ∈ S.functions, g.name <:+ f.name → g = f) (hk : k < Index.bound) {e : Nat × Rule}
    (he : e ∈ S.numbered) : e.2.rests e.1 (f.line k).text = true := by
  by_cases hrule : e.2 = f.rule
  · rw [hrule]
    exact Rule.rests_of_hitAt f.isAligned_rule (f.hitAt_line k) rfl (occurrence_line hk e.1)
  · rw [Rule.rests, Rule.locate, search_line (RuleSet.mem_of_numbered he) hsuffix hk hrule]

end UserFunction

namespace RuleSet
variable {S : RuleSet} {f : UserFunction} {k : Nat}

/-- Where one rule reads a text whole and no other does, the text is resolved by that rule. -/
theorem exists_resolveWith {t : Text} {r : Rule} {reading : Nat → Occurrence} {l : List (Nat × Rule)}
    (hr : ∀ id, r.findWhole id t = .ok (some (reading id))) (hother : ∀ e ∈ l, e.2 ≠ r → e.2.findWhole e.1 t = .ok none)
    (hmem : ∃ id, (id, r) ∈ l) : ∃ id, (id, r) ∈ l ∧ resolveWith t l = .ok (some (reading id)) := by
  induction l with
  | nil => simp at hmem
  | cons e l ih =>
    obtain ⟨id, r'⟩ := e
    by_cases hrule : r' = r
    · subst hrule
      exact ⟨id, List.mem_cons_self, by rw [resolveWith, hr id]⟩
    · have hlater : ∃ id, (id, r) ∈ l := hmem.imp fun id hid => (List.mem_cons.1 hid).resolve_left fun heq => hrule (by cases heq; rfl)
      obtain ⟨id', hid', hresolve⟩ := ih (fun e he => hother e (List.mem_cons_of_mem _ he)) hlater
      refine ⟨id', List.mem_cons_of_mem _ hid', ?_⟩
      rw [resolveWith, hother (id, r') List.mem_cons_self hrule]
      exact hresolve

/-- A call is read as what it is. -/
theorem resolve_line (hf : f ∈ S.functions) (hsuffix : ∀ g ∈ S.functions, g.name <:+ f.name → g = f) (hk : k < Index.bound) :
    ∃ id, S.get? id = some f.rule ∧ S.resolve (f.line k).text = .ok (some (f.reading id k)) := by
  have hother : ∀ e ∈ S.numbered, e.2 ≠ f.rule → e.2.findWhole e.1 (f.line k).text = .ok none := fun e he hne => by
    rw [Rule.findWhole, Rule.find, Rule.locate, UserFunction.search_line (mem_of_numbered he) hsuffix hk hne]
    rfl
  have hmem : ∃ id, (id, f.rule) ∈ S.numbered := by
    obtain ⟨id, hid, hget⟩ := List.getElem_of_mem (show f.rule ∈ S.rules from List.mem_append_left _ (List.mem_map_of_mem hf))
    exact ⟨id, mem_numbered.2 (List.getElem?_eq_some_iff.2 ⟨hid, hget⟩)⟩
  obtain ⟨id, hid, hresolve⟩ := exists_resolveWith (UserFunction.findWhole_line hk) hother hmem
  exact ⟨id, mem_numbered.1 hid, hresolve⟩

end RuleSet

namespace Line
variable {t : Text} {k : Nat} {s u : Line}

/-- Parts that end with one tree are those of a line that ends with one reference. -/
theorem exists_ref_of_parts {val : Nat → Tree} {w : Tree} (h : s.map (Mark.part val) = t.map .inl ++ [.inr w]) :
    ∃ k, s = ofText t ++ [.ref k] := by
  induction t generalizing s with
  | nil =>
    obtain ⟨x, rfl, hx⟩ := List.map_eq_singleton_iff.1 h
    cases x with
    | char c => cases hx
    | ref k => exact ⟨k, rfl⟩
  | cons c t ih =>
    obtain ⟨x, s, rfl, hx, hs⟩ := List.map_eq_cons_iff.1 h
    obtain ⟨k, rfl⟩ := ih hs
    cases x with
    | char d => exact ⟨k, by rw [Sum.inl.inj hx]; rfl⟩
    | ref i => cases hx

/-- A line that keeps its plain characters and ends with a reference still does so. -/
theorem exists_ref_of_kept (h : List.Forall₂ Mark.Kept (ofText t ++ [.ref k]) u) : ∃ k', u = ofText t ++ [.ref k'] := by
  induction t generalizing u with
  | nil =>
    obtain ⟨x, l, hx, hl, rfl⟩ := List.forall₂_cons_left_iff.1 h
    obtain rfl := List.forall₂_nil_left_iff.1 hl
    cases hx with
    | ref k k' => exact ⟨k', rfl⟩
  | cons c t ih =>
    obtain ⟨x, l, hx, hl, rfl⟩ := List.forall₂_cons_left_iff.1 h
    obtain ⟨k', rfl⟩ := ih hl
    cases hx with
    | char => exact ⟨k', rfl⟩

end Line

/-- The tree of a call: the name and the tree of the argument. -/
theorem Source.tree_call {name t : Text} (hname : ∀ c ∈ name, c.isAlpha = true) (hne : name ≠ []) (ht : (Line.ofText t).Nested) :
    ∃ w, tree (name ++ '(' :: t ++ [')']) = .node (name.map .inl ++ [.inr w]) := by
  have hfree : ∀ c : Char, c.isAlpha = false → ∀ w, .inl c ∉ (name.map .inl : Parts) ++ [.inr w] := by
    intro c hc w hmem
    simp only [List.mem_append, List.mem_map, Sum.inl.injEq, exists_eq_right, List.mem_singleton, reduceCtorEq, or_false] at hmem
    rw [hname c hmem] at hc
    cases hc
  have hunwrap : Text.unwrap (name ++ '(' :: t ++ [')']) = name ++ '(' :: t ++ [')'] := by
    refine Text.unwrap_of_inside?_eq_none ?_
    obtain ⟨c, rest, rfl⟩ := List.exists_cons_of_ne_nil hne
    have hc : c ≠ '(' := by
      rintro rfl
      have := hname '(' List.mem_cons_self
      simp at this
    simp [Text.inside?, hc]
  have hgroup := ht.groups_parentheses (fun _ => .node []) (name.map .inl).reverse [] []
  rw [Line.parts_ofText] at hgroup
  have hletters : ∀ d ∈ ['(', ')', '\x7b', '\x7d'], .inl d ∉ (name.map .inl : Parts) := by
    intro d hd hmem
    have hdelimiter : d.isAlpha = false := by
      simp only [List.mem_cons, List.not_mem_nil, or_false] at hd
      rcases hd with rfl | rfl | rfl | rfl <;> decide
    exact hfree d hdelimiter (.node []) (List.mem_append_left _ hmem)
  have htext : (name ++ '(' :: t ++ [')']).map Sum.inl = name.map .inl ++ (.inl '(' :: (t.map .inl ++ [.inl ')']) : Parts) := by simp
  refine ⟨Parts.stand (Parts.flat (t.map .inl)), ?_⟩
  rw [tree, hunwrap, Parts.flat, htext, Parts.groups_of_free hletters, List.append_nil, hgroup, Parts.groups, List.reverse_cons,
    List.reverse_reverse, Parts.brackets_of_free (hfree '[' (by decide) _)]

namespace Contexts
variable {s : RuleSet} {names : List Text} {letters : List Char} {f : UserFunction} {argument : Text} {c : Contexts}

/-- The root of a call is read as the call of the function that it names, unless the name ends with that of another function. -/
theorem resolve_call (hf : f ∈ s.functions) (hsuffix : ∀ g ∈ s.functions, g.name <:+ f.name → g = f)
    (hletters : Source.declare s names = .ok letters) (hbalanced : Text.balanced argument = true)
    (hsmall : created s letters (f.name ++ '(' :: argument ++ [')']) ≤ Index.bound)
    (h : ofSource s letters (f.name ++ '(' :: argument ++ [')']) = .ok c) :
    ∃ t o k, c.root? = some t ∧ s.resolve t = .ok (some o) ∧ s.get? o.rule = some f.rule ∧ o.operands = [some (.index k)] := by
  have hname : ∀ c ∈ f.name, c.isAlpha = true := fun _ => f.isAlpha_of_mem_name
  have hclosers : ∀ name ∈ s.functionNames, ')' ∉ name := by
    intro name hmem hparen
    obtain ⟨g, -, rfl⟩ := List.mem_map.1 hmem
    have := g.isAlpha_of_mem_name hparen
    simp at this
  have hfault := fault?_of_ofSource h
  obtain ⟨p, p', base, meaning, hp, hbound, rfl⟩ := exists_bound hletters hsmall h
  rw [Source.stripBlanks_call hclosers hname hbalanced] at hfault hp
  rw [← Source.balanced_stripBlanks s.functionNames] at hbalanced
  generalize Source.stripBlanks s.functionNames argument = stripped at hfault hp hbalanced
  have hnested := (Source.nested_of_balanced (t := []) (groupFault_of_fault? hfault) hbalanced).1
  obtain ⟨w, htree⟩ := Source.tree_call hname f.nonempty hnested
  -- the root before binding
  have hripe := hbound.complete.ripe
  have hrooted := hbound.complete.rooted
  have hpsmall := hbound.complete.grown.larger.trans hbound.complete.small
  obtain ⟨u, hu, -⟩ := hbound.denotes.meant _ (hbound.denotes.sound.holds_resolve hrooted)
  obtain ⟨val, v, hspells, hkept⟩ := Pool.exists_kept_ofSource hp hfault hpsmall htree (fun val v hv e he => by
    obtain ⟨k, rfl⟩ := Line.exists_ref_of_parts hv.parts
    exact UserFunction.rests_line hsuffix (hv.within.refs k (by simp)) he) hu
  obtain ⟨i, rfl⟩ := Line.exists_ref_of_parts hspells.parts
  obtain ⟨j, rfl⟩ := Line.exists_ref_of_kept hkept
  -- no letter of the name is bound
  obtain ⟨u', hu'⟩ := hripe.written _ (hripe.sound.holds_resolve hripe.rooted)
  have hline : ∃ k, u'.map (Mark.relabel p'.label) = f.line k := by
    rcases hbound.becomes hrooted hu hu' with ⟨d, -, heq, -⟩ | hbecomes
    · have hlength := congrArg List.length heq
      simp [Line.ofText, f.nonempty] at hlength
    · rcases hbecomes.kept_or_letter with hkept | ⟨a, d, b, a', k, b', heq, -, hd, hflag, -⟩
      · exact Line.exists_ref_of_kept hkept
      · rw [heq] at hflag
        have htext : (a ++ .char d :: b).text = f.name ++ Index.token j := by simp [← heq, Mark.text]
        have hquiet : ∀ c ∈ Index.token j, c.isAlpha = false := fun c hc => by
          by_contra hletter
          have halpha : c.isAlpha = true := by simpa using hletter
          refine Line.not_mem_token (Text.not_isDigit_of_isAlpha halpha) ?_ ?_ j hc <;> rintro rfl <;> simp at halpha
        exact absurd hflag (Line.flag_of_name (List.mem_map_of_mem hf) f.at_not_mem_name htext hquiet
          (Text.isAlpha_of_isLower ((Source.declare_facts hletters).2 d hd)))
  obtain ⟨k, hline⟩ := hline
  have hk : k < Index.bound := by
    have hwithin := hripe.within_map_label hu'
    rw [hline] at hwithin
    exact hwithin.refs k (by simp [UserFunction.line])
  obtain ⟨id, hget, hresolve⟩ := RuleSet.resolve_line hf hsuffix hk
  refine ⟨_, _, k, hripe.get?_toContexts.2 ⟨_, u', by simp [Pool.numbering, Index.root], hu', rfl⟩, hline ▸ hresolve, hget, rfl⟩

/-- A function with a short name. -/
def double : UserFunction where
  name := "f".toList
  document := ⟨"Double", "f(x)", "twice x"⟩
  apply := fun x => .ok (2 * x)
  nonempty := by decide
  letters := by decide
  notReserved := by decide

/-- A function whose name ends with that of the other one. -/
def increment : UserFunction where
  name := "gf".toList
  document := ⟨"Increment", "gf(x)", "x and one more"⟩
  apply := fun x => .ok (x + 1)
  nonempty := by decide
  letters := by decide
  notReserved := by decide

/-- The standard rules and the two functions. -/
def overlapping : RuleSet := ⟨[increment, double], by decide⟩

/-- The call of the short name, taken apart. -/
def callPool : Pool := ⟨[.holding "f@/1/@".toList, .holding "x".toList], [("f@/1/@".toList, 0), ("x".toList, 1)]⟩

theorem stripBlanks_double : Source.stripBlanks overlapping.functionNames "f(x)".toList = "f(x)".toList := by decide +kernel

theorem groups_double : Pool.ofGroups "f(x)".toList = callPool := by decide +kernel

theorem reduce_double : Pool.reduce overlapping callPool = .ok callPool := by decide +kernel

/-- The contexts of a call are the call with a token and its argument. -/
theorem ofSource_double : ofSource overlapping ['x'] "f(x)".toList = .ok (ofTexts ["f@/1/@".toList, "x".toList]) :=
  ofSource_of_steps stripBlanks_double (by decide +kernel) groups_double reduce_double (by decide +kernel)

theorem resolve_call_double : ∃ c, ofSource overlapping ['x'] "f(x)".toList = .ok c ∧ ∃ t o k, c.root? = some t ∧
    overlapping.resolve t = .ok (some o) ∧ overlapping.get? o.rule = some double.rule ∧ o.operands = [some (.index k)] := by
  have hsuffix : ∀ g ∈ overlapping.functions, g.name <:+ double.name → g = double := by
    intro g hg hends
    rcases List.mem_cons.1 hg with rfl | hg
    · exact absurd hends.length_le (by decide)
    · exact List.mem_singleton.1 hg
  have hletters : Source.declare overlapping ["x".toList] = .ok ['x'] := by decide +kernel
  have hsmall : created overlapping ['x'] "f(x)".toList ≤ Index.bound := by
    have hlength : (callPool.canonical.bindLetters overlapping.functionNames ['x']).cells.length = 2 := by decide +kernel
    rw [created, stripBlanks_double, Pool.ofSource, groups_double, reduce_double]
    simp only [Except.map, hlength]
    decide
  exact ⟨_, ofSource_double, resolve_call (f := double) (by simp [overlapping]) hsuffix hletters
    (show Text.balanced "x".toList = true by decide) hsmall ofSource_double⟩

/-- The name of one function is called, and the other one is read at its end. -/
theorem exists_call_unread : ∃ (S : RuleSet) (c : Contexts) (t : Text), RuleSet.standard.registerAll [increment, double] = .ok S ∧
    increment ∈ S.functions ∧ ofSource S ['x'] (increment.name ++ '(' :: "x".toList ++ [')']) = .ok c ∧ c.root? = some t ∧
      S.resolve t = .ok none := by
  have hgroups : Pool.ofGroups "gf(x)".toList =
      ⟨[.holding "gf@/1/@".toList, .holding "x".toList], [("gf@/1/@".toList, 0), ("x".toList, 1)]⟩ := by decide +kernel
  have hreduce : Pool.reduce overlapping
      ⟨[.holding "gf@/1/@".toList, .holding "x".toList], [("gf@/1/@".toList, 0), ("x".toList, 1)]⟩ =
      .ok ⟨[.holding "g@/2/@".toList, .holding "x".toList, .holding "f@/1/@".toList],
        [("g@/2/@".toList, 0), ("f@/1/@".toList, 2), ("x".toList, 1)]⟩ := by decide +kernel
  have hcontexts : ofSource overlapping ['x'] "gf(x)".toList = .ok (ofTexts ["g@/2/@".toList, "x".toList, "f@/1/@".toList]) :=
    ofSource_of_steps (by decide +kernel) (by decide +kernel) hgroups hreduce (by decide +kernel)
  exact ⟨overlapping, _, _, rfl, by simp [overlapping], hcontexts, get?_ofTexts _ 0, by decide +kernel⟩

end Contexts

end FormulaDag
