import FormulaDag.Proofs.Contexts.Doubling
import FormulaDag.Proofs.Rule.Letters

/-!
# What the rules find in contexts

The rules rest in every text before variables are bound. A token that takes the place of a letter may complete a match, for a token is
an operand where a letter is none. This is the only way in which a rule finds a part of a context: it found nothing before, and what it
finds takes in, behind its first mark, a token at the place of a letter.
-/

namespace FormulaDag

open Pool (letterText)

namespace Rule
variable {r : Rule} {id : Nat} {t behind : Text} {h : Hit}

/-- What a search finds is a match at the place. -/
theorem hitAt_of_search (hs : r.search [] t = some (behind, h)) : ∃ u v, t = u ++ v ∧ u = behind.reverse ∧
    r.hitAt u.reverse v = some h := by
  obtain ⟨u, v, htext, hbehind, hfirst, hadmits⟩ := search_eq_some hs
  rw [List.append_nil] at hbehind
  refine ⟨u, v, htext, by rw [hbehind, List.reverse_reverse], ?_⟩
  rw [hitAt, hfirst, ← hbehind]
  exact Option.filter_some_pos hadmits

/-- A rule that rests in a text and finds something takes it up as a whole. -/
theorem whole_of_rests (hr : r.pattern.IsAligned) (hrests : r.rests id t = true) (hs : r.search [] t = some (behind, h)) :
    r.hitAt [] t = some h ∧ h.taken = t := by
  have hlocate : ∃ l, r.locate id t = .ok (some l) ∧ l.occurrence.isWhole t = true := by
    rw [rests] at hrests
    split at hrests
    · rename_i hnone
      rw [locate, hs] at hnone
      simp only at hnone
      cases ho : r.occurrence id behind h with
      | error fault => rw [ho] at hnone; cases hnone
      | ok o => rw [ho] at hnone; cases hnone
    · exact ⟨_, by assumption, hrests⟩
    · cases hrests
  obtain ⟨l, hl, hwhole⟩ := hlocate
  obtain ⟨hbefore, hafter⟩ := (isWhole_iff hr hl).1 hwhole
  obtain ⟨behind', h', hs', -, hb, ha⟩ := locate_eq_ok hl
  obtain ⟨rfl, rfl⟩ := Prod.mk.inj (Option.some.inj (hs.symm.trans hs'))
  obtain ⟨u, v, rfl, hu, hhit⟩ := hitAt_of_search hs
  obtain rfl : u = [] := by rw [hu, ← hb, hbefore]
  have hparts := (hr.hit (List.mem_of_mem_head? (Option.filter_eq_some_iff.1 hhit).1)).1
  rw [← ha, hafter, List.append_nil] at hparts
  exact ⟨hhit, hparts.symm⟩

end Rule

namespace RuleSet
variable {S : RuleSet} {letters : List Char} {stands : Char → Nat → Prop} {e : Nat × Rule} {s s' : Line}

/-- What a rule finds by a token that binding put in: it found nothing in the text before, and its leftmost match takes in, behind the
first mark, a token at a place where the letter of a variable stood. -/
structure FoundByBinding (letters : List Char) (e : Nat × Rule) (s s' : Line) : Prop where
  before : e.2.find e.1 s.text = .ok none
  after : ∃ (behind : Text) (h : Hit) (a w₁ w₂ b : Line) (x : Mark) (d : Char) (k : Nat), e.2.search [] s'.text = some (behind, h) ∧
    s' = a ++ x :: (w₁ ++ .ref k :: w₂ ++ b) ∧ behind = a.text.reverse ∧ h.taken = Line.text (x :: (w₁ ++ .ref k :: w₂)) ∧
    d ∈ letters ∧ s[(a ++ x :: w₁).length]? = some (.char d)

/-- A rule that rests in a text rests in what binding makes of it, unless it finds something by a token that binding put in. -/
theorem rests_or_foundByBinding (he : e ∈ S.numbered) (hlower : ∀ l ∈ letters, l.isLower = true) (hs : s.Within Index.bound)
    (hs' : s'.Within Index.bound) (hbecomes : s.Becomes S.functionNames letters stands s') (hrests : e.2.rests e.1 s.text = true) :
    e.2.rests e.1 s'.text = true ∨ FoundByBinding letters e s s' := by
  have hr := mem_of_numbered he
  have haligned := S.isAligned _ hr
  cases hbefore : e.2.search [] s.text with
  | some found =>
    -- the rule takes up the whole text before, which binding leaves a whole occurrence
    obtain ⟨hwhole, htaken⟩ := Rule.whole_of_rests haligned hrests hbefore
    exact .inl (rests_of_whole hr hlower hs hs' hbecomes hwhole htaken hrests)
  | none =>
    cases hsearch : e.2.search [] s'.text with
    | none => exact .inl (by rw [Rule.rests, Rule.locate, hsearch])
    | some found =>
      right
      obtain ⟨behind, h'⟩ := found
      obtain ⟨a', m', b', rfl, ha', hm', -, hne⟩ := Rule.search_line haligned (S.separate _ hr) hs' hsearch
      obtain ⟨x', w', rfl⟩ := List.exists_cons_of_ne_nil hne
      rw [List.append_assoc, List.cons_append] at hs' hbecomes hsearch ⊢
      obtain ⟨a, x, t, -, rfl, -, -, ha, ht⟩ := hbecomes.divide
      obtain ⟨w, b, hw, -, rfl⟩ := exists_forall₂_append ht
      rcases forall₂_or_exists Mark.Kept hw with hkept | ⟨w₁, y, w₂, w₁', y', w₂', rfl, rfl, hw₁, -, hy, hnot⟩
      · -- what the rule finds now it would have found before
        obtain ⟨u, v, htext, hu, hhit⟩ := Rule.hitAt_of_search hsearch
        obtain rfl : u = a'.text := hu.trans ha'.symm
        rw [Line.text_append] at htext
        rw [← List.append_cancel_left htext] at hhit
        have hplace := hitAt_ne_none_of_kept hr hlower hs hs' hbecomes ha.length_eq hkept hhit hm'.symm
        obtain ⟨k, hk⟩ := Option.ne_none_iff_exists'.1 hplace
        rw [← List.append_nil (Line.text a).reverse] at hk
        obtain ⟨_, _, _, -, hl⟩ := Rule.exists_search_of_hitAt hk
        rw [← Line.text_append, hbefore] at hl
        cases hl
      · obtain ⟨isProtected, hy⟩ := hy
        cases hy with
        | char => exact absurd (.char _) hnot
        | ref k k' => exact absurd (.ref k k') hnot
        | @letter d k hd hk =>
          refine ⟨by rw [Rule.find, Rule.locate, hbefore]; rfl, behind, h', a', w₁', w₂', b', x', d, k, hsearch, rfl, ?_, hm'.symm, hd, ?_⟩
          · rw [ha', List.reverse_reverse]
          · have hlength : (a' ++ x' :: w₁').length = (a ++ x :: w₁).length := by simp [ha.length_eq, hw₁.length_eq]
            have hsplit : a ++ x :: (w₁ ++ .char d :: w₂ ++ b) = (a ++ x :: w₁) ++ .char d :: (w₂ ++ b) := by simp
            rw [hlength, hsplit, List.getElem?_append_right le_rfl, Nat.sub_self, List.getElem?_cons_zero]

/-- What a rule takes in contains a sign that no variable has, unless it is a number. -/
theorem exists_sign {r : Rule} (hr : r ∈ S.rules) {t : Text} {h : Hit} (hh : h ∈ r.pattern.hits t) :
    r = .number ∨ ∃ c ∈ ['@', '\\', '^'], c ∈ h.taken := by
  rcases List.mem_append.1 hr with hr | hr
  · obtain ⟨f, -, rfl⟩ := List.mem_map.1 hr
    obtain ⟨sign, digits, -, -, -, htaken, -⟩ := f.call_of_mem_hits hh
    exact .inr ⟨'@', by simp, by simp [htaken, UserFunction.call, Piece.text]⟩
  · obtain hnumber | ⟨c, hc, htaken⟩ := Rule.exists_sign hr hh
    · exact .inl hnumber
    · exact .inr ⟨c, List.mem_cons_of_mem _ hc, htaken⟩

/-- The number that stands for a letter is a single numeral. -/
theorem rests_number_eulerNumber (id : Nat) : Rule.number.rests id Symbol.eulerNumber = true := by
  have hhit : Rule.number.hitAt [] Symbol.eulerNumber =
      some ⟨Symbol.eulerNumber, [], [("value", Symbol.eulerNumber)]⟩ := by decide +kernel
  have hslots : Rule.number.slots.mapM (Slot.operand Rule.number.name [("value", Symbol.eulerNumber)]) =
      .ok [some (.literal 2.7182818284)] := by decide +kernel
  refine Rule.rests_of_hitAt (Rule.isAligned_standard _ (by simp [Rule.standard])) hhit rfl
    (o := ⟨id, 0, Text.byteSize Symbol.eulerNumber, Symbol.eulerNumber, none, [some (.literal 2.7182818284)]⟩) ?_
  have hselector : Rule.number.selector = none := rfl
  rw [Rule.occurrence_eq, Rule.selected, hselector, hslots]
  simp [Except.map]

/-- All rules rest in the texts of variables. -/
theorem rests_letterText (he : e ∈ S.numbered) {d : Char} (hd : d.isLower = true) : e.2.rests e.1 (letterText d) = true := by
  have hr := mem_of_numbered he
  cases hsearch : e.2.search [] (letterText d) with
  | none => rw [Rule.rests, Rule.locate, hsearch]
  | some found =>
    obtain ⟨behind, h⟩ := found
    obtain ⟨u, v, htext, -, hhit⟩ := Rule.hitAt_of_search hsearch
    have hfirst := (Option.filter_eq_some_iff.1 hhit).1
    have hsub : ∀ c ∈ h.taken, c ∈ letterText d := fun c hc => by
      rw [htext, ((S.isAligned _ hr).hit (List.mem_of_mem_head? hfirst)).1]
      simp [hc]
    by_cases heuler : d = 'e'
    · rw [letterText, if_pos heuler] at hsub ⊢
      rcases exists_sign hr (List.mem_of_mem_head? hfirst) with hnumber | ⟨c, hc, htaken⟩
      · rw [hnumber]
        exact rests_number_eulerNumber e.1
      · have hfree : ∀ c ∈ ['@', '\\', '^'], c ∉ Symbol.eulerNumber := by simp [Pool.eulerNumber_eq]
        exact absurd (hsub c htaken) (hfree c hc)
    · rw [letterText, if_neg heuler] at hsub
      have halpha := Text.isAlpha_of_isLower hd
      have hsigns : ∀ c ∈ h.taken, c = d := fun c hc => List.mem_singleton.1 (hsub c hc)
      rcases exists_sign hr (List.mem_of_mem_head? hfirst) with hnumber | ⟨c, hc, htaken⟩
      · rw [hnumber] at hfirst
        obtain ⟨hne, hnumeric, -⟩ := Rule.numeral_of_number hfirst
        obtain ⟨c, rest, hcons⟩ := List.exists_cons_of_ne_nil hne
        have hc : c ∈ h.taken := hcons ▸ List.mem_cons_self
        rw [← hsigns c hc, Text.not_isAlpha_of_isNumeric (hnumeric c hc)] at halpha
        cases halpha
      · have hno : ∀ c ∈ ['@', '\\', '^'], c.isAlpha = false := by simp
        rw [← hsigns c htaken, hno c hc] at halpha
        cases halpha

end RuleSet

namespace Contexts
variable {s : RuleSet} {names : List Text} {letters : List Char} {source : Text} {c : Contexts}

/-- In a context a rule finds nothing, or the whole context, unless it finds something by a token that binding put in: the context is what
became of a text that the other passes left, the rule found nothing in that text, and its leftmost match takes in, behind the first mark,
the token of a variable at a place where that text has the letter of the variable. -/
theorem find_ofSource (hletters : Source.declare s names = .ok letters) (hsmall : created s letters source ≤ Index.bound)
    (h : ofSource s letters source = .ok c) {i : Nat} {t : Text} (ht : c.get? i = some t) {e : Nat × Rule} (he : e ∈ s.numbered) :
    (∃ found, e.2.find e.1 t = .ok found ∧ ∀ o ∈ found, o.isWhole t = true) ∨
      ∃ (p : Pool) (x : Nat) (u u' : Line), Pool.ofSource s (Source.stripBlanks s.functionNames source) = .ok p ∧ p.Writes x u ∧
        t = u'.text ∧ u.Becomes s.functionNames letters (fun d k => c.get? k = some (letterText d)) u' ∧
        RuleSet.FoundByBinding letters e u u' := by
  have hlower := (Source.declare_facts hletters).2
  have hfind : e.2.rests e.1 t = true → ∃ found, e.2.find e.1 t = .ok found ∧ ∀ o ∈ found, o.isWhole t = true := by
    intro hrests
    rw [Rule.rests] at hrests
    rw [Rule.find]
    split at hrests
    · rename_i hnone
      exact ⟨none, by rw [hnone]; rfl, by simp⟩
    · rename_i l hl
      exact ⟨some l.occurrence, by rw [hl]; rfl, by simpa using hrests⟩
    · cases hrests
  obtain ⟨p, p', base, meaning, hp, hbound, rfl⟩ := exists_bound hletters hsmall h
  rcases hbound.exists_becomes ht with ⟨d, hd, rfl⟩ | ⟨x, u, u', hwrites, hu, hu', rfl, hrests, hbecomes⟩
  · exact .inl (hfind (RuleSet.rests_letterText he (hlower d hd)))
  · rcases RuleSet.rests_or_foundByBinding he hlower hu hu' hbecomes (hrests e he) with hrests' | hfound
    · exact .inl (hfind hrests')
    · exact .inr ⟨p, x, u, u', hp, hwrites, rfl, hbecomes, hfound⟩

/-- The text of a power of variables, before its variables are bound and when the number in it has an index. -/
def powerPool : Pool := ⟨[.holding "x^y+@/1/@".toList, .holding "1".toList], [("x^y+@/1/@".toList, 0), ("1".toList, 1)]⟩

theorem pool_power : Pool.ofSource .standard "x^y+1".toList = .ok powerPool := by
  have hgroups : Pool.ofGroups "x^y+1".toList = ⟨[.holding "x^y+1".toList], [("x^y+1".toList, 0)]⟩ := by decide +kernel
  have hreduce : Pool.reduce .standard ⟨[.holding "x^y+1".toList], [("x^y+1".toList, 0)]⟩ = .ok powerPool := by decide +kernel
  have hcanonical : powerPool.canonical = powerPool := by decide +kernel
  rw [Pool.ofSource, hgroups, hreduce, Except.map, hcanonical]

theorem stripBlanks_power : Source.stripBlanks RuleSet.standard.functionNames "x^y+1".toList = "x^y+1".toList := by decide +kernel

theorem ofSource_power : ofSource .standard ['x', 'y'] "x^y+1".toList =
    .ok (ofTexts ["@/2/@^@/3/@+@/1/@".toList, "1".toList, "x".toList, "y".toList]) := by
  have hfault : Source.fault? .standard ['x', 'y'] "x^y+1".toList = none := by decide +kernel
  have hfreeze : (powerPool.bindLetters RuleSet.standard.functionNames ['x', 'y']).freeze =
      ofTexts ["@/2/@^@/3/@+@/1/@".toList, "1".toList, "x".toList, "y".toList] := by cbv
  rw [ofSource, stripBlanks_power, hfault]
  simp only
  rw [ofWellFormed, pool_power, Except.map, hfreeze]
  rfl

/-- The power of the root is found by the tokens of its variables. -/
theorem find_ofSource_power : ∃ c t, ofSource .standard ['x', 'y'] "x^y+1".toList = .ok c ∧ c.get? 0 = some t ∧
    ((∃ found, Rule.power.find 5 t = .ok found ∧ ∀ o ∈ found, o.isWhole t = true) ∨
      ∃ (p : Pool) (x : Nat) (u u' : Line),
        Pool.ofSource .standard (Source.stripBlanks RuleSet.standard.functionNames "x^y+1".toList) = .ok p ∧ p.Writes x u ∧ t = u'.text ∧
        u.Becomes RuleSet.standard.functionNames ['x', 'y'] (fun d k => c.get? k = some (letterText d)) u' ∧
        RuleSet.FoundByBinding ['x', 'y'] (5, .power) u u') := by
  have hletters : Source.declare .standard ["x".toList, "y".toList] = .ok ['x', 'y'] := by decide +kernel
  have hsmall : created .standard ['x', 'y'] "x^y+1".toList ≤ Index.bound := by
    have hlength : (powerPool.bindLetters RuleSet.standard.functionNames ['x', 'y']).cells.length = 4 := by decide +kernel
    rw [created, stripBlanks_power, pool_power]
    simp only [hlength]
    decide
  have hnumbered : (5, Rule.power) ∈ RuleSet.standard.numbered := by
    simp [RuleSet.numbered, RuleSet.rules, RuleSet.standard, Rule.standard]
  exact ⟨_, _, ofSource_power, get?_ofTexts _ 0, find_ofSource hletters hsmall ofSource_power (get?_ofTexts _ 0) hnumbered⟩

/-- A power of variables becomes one of tokens after the rules have stopped, and it is a part of its context. -/
theorem exists_part_found : ∃ c i t e o, ofSource .standard ['x', 'y'] "x^y+1".toList = .ok c ∧ c.get? i = some t ∧
    e ∈ RuleSet.standard.numbered ∧ e.2.find e.1 t = .ok (some o) ∧ o.isWhole t = false := by
  refine ⟨_, 0, "@/2/@^@/3/@+@/1/@".toList, (5, .power), ⟨5, 0, 11, "@/2/@^@/3/@".toList, none, [some (.index 2), some (.index 3)]⟩,
    ofSource_power, get?_ofTexts _ 0, ?_, ?_, ?_⟩
  · simp [RuleSet.numbered, RuleSet.rules, RuleSet.standard, Rule.standard]
  · decide +kernel
  · decide +kernel

end Contexts

end FormulaDag
