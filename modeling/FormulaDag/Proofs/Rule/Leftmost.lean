import FormulaDag.Proofs.Rule.Calls

/-!
# The leftmost match

A rule finds the first place of a text at which its pattern matches and its guard agrees. The search may as well go from match to match: it
takes the leftmost match of the pattern from a byte position on, and when the guard refuses that, it goes on one character behind the
place of the match. No acceptable place is passed over in this way, and every byte position it stops at is one where a character begins,
however many bytes the characters take. A text as a whole is described by the first rule that finds all of it.
-/

namespace FormulaDag

namespace Text

/-- The two parts of a text at a byte position, unless this is inside of a character or behind the end. -/
def partsAt? : Nat → Text → Option (Text × Text)
  | 0, t => some ([], t)
  | _ + 1, [] => none
  | n + 1, c :: t =>
    if c.utf8Size ≤ n + 1 then (partsAt? (n + 1 - c.utf8Size) t).map fun (before, after) => (c :: before, after) else none

/-- A text can be parted where a character begins. -/
theorem partsAt?_append (u v : Text) : partsAt? (byteSize u) (u ++ v) = some (u, v) := by
  induction u with
  | nil =>
    rw [byteSize_nil, List.nil_append, partsAt?]
  | cons c u ih =>
    obtain ⟨n, hn⟩ : ∃ n, c.utf8Size + byteSize u = n + 1 := Nat.exists_eq_succ_of_ne_zero (by have := c.utf8Size_pos; omega)
    rw [byteSize_cons, hn, List.cons_append, partsAt?, if_pos (by omega), show n + 1 - c.utf8Size = byteSize u by omega, ih]
    rfl

/-- The number of bytes to the next place of a text: those of its first character, and one at its end. -/
def step (t : Text) : Nat := (t.head?.map Char.utf8Size).getD 1

/-- A search goes on by at least one byte. -/
theorem step_pos (t : Text) : 0 < step t := by
  cases t with
  | nil => exact Nat.one_pos
  | cons c t => exact c.utf8Size_pos

end Text

/-- The leftmost place in a text at which a pattern matches, given by the text before it, with the preferred match there. -/
def Pattern.leftmost? (p : Pattern) : Text → Option (Text × Hit)
  | [] => (p.first? []).map fun h => ([], h)
  | c :: t =>
    match p.first? (c :: t) with
    | some h => some ([], h)
    | none => (leftmost? p t).map fun (passed, h) => (c :: passed, h)

namespace Pattern
variable {p : Pattern} {t u : Text} {h : Hit}

/-- A pattern without a leftmost hit has no hit at any place. -/
theorem first?_of_leftmost?_eq_none (hp : p.leftmost? t = none) : ∀ x y, t = x ++ y → p.first? y = none := by
  induction t with
  | nil =>
    intro x y hxy
    obtain ⟨-, rfl⟩ := List.append_eq_nil_iff.1 hxy.symm
    exact Option.map_eq_none_iff.1 hp
  | cons c t ih =>
    rw [leftmost?] at hp
    split at hp
    · cases hp
    · rename_i hhere
      intro x y hxy
      cases x with
      | nil => exact (show c :: t = y from hxy) ▸ hhere
      | cons d x => exact ih (Option.map_eq_none_iff.1 hp) x y (List.cons.inj hxy).2

/-- The pattern matches at the place and at none before it. -/
theorem leftmost?_eq_some (hp : p.leftmost? t = some (u, h)) :
    ∃ v, t = u ++ v ∧ p.first? v = some h ∧ ∀ x y, u = x ++ y → y ≠ [] → p.first? (y ++ v) = none := by
  induction t generalizing u with
  | nil =>
    obtain ⟨h', hfirst, heq⟩ := Option.map_eq_some_iff.1 hp
    obtain ⟨rfl, rfl⟩ := Prod.mk.inj heq
    exact ⟨[], rfl, hfirst, fun x y hxy hy => absurd (List.append_eq_nil_iff.1 hxy.symm).2 hy⟩
  | cons c t ih =>
    rw [leftmost?] at hp
    split at hp
    · rename_i h' hhere
      obtain ⟨rfl, rfl⟩ := Prod.mk.inj (Option.some.inj hp)
      exact ⟨c :: t, rfl, hhere, fun x y hxy hy => absurd (List.append_eq_nil_iff.1 hxy.symm).2 hy⟩
    · rename_i hhere
      obtain ⟨⟨w, h'⟩, hlater, heq⟩ := Option.map_eq_some_iff.1 hp
      obtain ⟨rfl, rfl⟩ := Prod.mk.inj heq
      obtain ⟨v, rfl, hfirst, hbefore⟩ := ih hlater
      refine ⟨v, rfl, hfirst, fun x y hxy hy => ?_⟩
      cases x with
      | nil => rwa [← List.nil_append y, ← hxy]
      | cons d x => exact hbefore x y (List.cons.inj hxy).2 hy

end Pattern

/-- How a search by byte positions ends: without a match, with one at a byte position, or at a position where no character begins. -/
inductive Ending where
  | nothing
  | found (position : Nat) (h : Hit)
  | astray (position : Nat)

namespace Rule

/-- Goes from match to match, from a byte position on, until the guard agrees. -/
def seek (r : Rule) (t : Text) (position : Nat) : Ending :=
  if position ≤ t.byteSize then
    match t.partsAt? position with
    | none => .astray position
    | some (_, ahead) =>
      match r.pattern.leftmost? ahead with
      | none => .nothing
      | some (passed, h) =>
        match t.partsAt? (position + passed.byteSize) with
        | none => .astray (position + passed.byteSize)
        | some (before, after) =>
          if r.admits before.reverse after then .found (position + passed.byteSize) h
          -- the next match may overlap the refused one, so this is left by a single character
          else seek r t (position + passed.byteSize + after.step)
  else .nothing
termination_by t.byteSize + 1 - position
decreasing_by
  have := Text.step_pos after
  omega

/-- A place of a text, given by the text before it, at which the pattern matches and the guard agrees, with the preferred match there,
while they do so at no place that is further to the left. -/
structure IsLeftmost (r : Rule) (t before : Text) (h : Hit) : Prop where
  place : ∃ after, t = before ++ after ∧ r.hitAt before.reverse after = some h
  earlier : ∀ u v, t = u ++ v → Text.byteSize u < Text.byteSize before → r.hitAt u.reverse v = none

section
variable {r : Rule} {behind before t : Text} {h : Hit} {id : Nat} {o : Occurrence}

/-! ### The search character by character -/

/-- A search finds nothing exactly if no place does. -/
theorem search_eq_none_iff : r.search behind t = none ↔ ∀ u v, t = u ++ v → r.hitAt (u.reverse ++ behind) v = none := by
  constructor
  · rintro hs u v rfl
    refine Option.eq_none_iff_forall_ne_some.2 fun h hh => ?_
    obtain ⟨_, _, _, -, hsome⟩ := exists_search_of_hitAt hh
    rw [hs] at hsome
    cases hsome
  · intro hnone
    refine Option.eq_none_iff_forall_ne_some.2 fun ⟨place, h⟩ hs => ?_
    obtain ⟨u, v, rfl, rfl, hfirst, hadmits⟩ := search_eq_some hs
    have hhit := hnone u v rfl
    rw [hitAt, hfirst, Option.filter_eq_none_iff] at hhit
    exact hhit h rfl hadmits

/-- A search finds the leftmost place that does. -/
theorem search_eq_some_iff : r.search [] t = some (before.reverse, h) ↔ r.IsLeftmost t before h := by
  constructor
  · intro hs
    obtain ⟨u, v, htext, hu, hfirst, hadmits⟩ := search_eq_some hs
    obtain rfl : before = u := by simpa using hu
    refine ⟨⟨v, htext, Option.filter_eq_some_iff.2 ⟨hfirst, hadmits⟩⟩, fun x y hxy hlt => ?_⟩
    -- two front parts of a text are comparable, and the shorter one begins the longer one
    obtain ⟨w, rfl, rfl⟩ | ⟨w, rfl, rfl⟩ := List.append_eq_append_iff.1 (htext.symm.trans hxy)
    · rw [Text.byteSize_append] at hlt
      omega
    · have hw : w ≠ [] := by
        rintro rfl
        simp at hlt
      rw [hitAt, Option.filter_eq_none_iff]
      intro k hk
      rcases search_leftmost hs hxy hw (List.append_nil _).symm with hnone | hrefused
      · rw [hk] at hnone
        cases hnone
      · rwa [List.append_nil, ← Bool.not_eq_true] at hrefused
  · rintro ⟨⟨after, rfl, hhit⟩, hearlier⟩
    rw [search_passed, List.append_nil]
    · exact search_of_hitAt hhit
    · rintro x y rfl hy
      rw [List.append_nil]
      refine hearlier x (y ++ after) (List.append_assoc x y after) ?_
      have hpositive : Text.byteSize y ≠ 0 := fun h0 => hy (Text.eq_nil_of_byteSize h0)
      rw [Text.byteSize_append]
      omega

/-- A rule has one leftmost hit. -/
theorem IsLeftmost.unique {before' : Text} {h' : Hit} (hl : r.IsLeftmost t before h) (hl' : r.IsLeftmost t before' h') :
    before = before' ∧ h = h' := by
  have hs := (search_eq_some_iff.2 hl).symm.trans (search_eq_some_iff.2 hl')
  simpa using hs

/-- A search either finds nothing or the leftmost place. -/
theorem search_cases (r : Rule) (t : Text) :
    r.search [] t = none ∨ ∃ before h, r.search [] t = some (before.reverse, h) ∧ r.IsLeftmost t before h := by
  cases hs : r.search [] t with
  | none => exact .inl rfl
  | some found =>
    obtain ⟨behind, h⟩ := found
    have hs' : r.search [] t = some (behind.reverse.reverse, h) := by rw [hs, List.reverse_reverse]
    exact .inr ⟨behind.reverse, h, by rw [List.reverse_reverse], search_eq_some_iff.1 hs'⟩

/-! ### The search from match to match -/

/-- Going from match to match ends as the search character by character does, and at no position inside of a character. -/
theorem seek_append (r : Rule) (u v : Text) : r.seek (u ++ v) (Text.byteSize u) =
    match r.search u.reverse v with
    | none => .nothing
    | some (behind, h) => .found (Text.byteSize behind) h := by
  rw [seek, if_pos (by rw [Text.byteSize_append]; omega), Text.partsAt?_append]
  simp only
  cases hnext : r.pattern.leftmost? v with
  | none =>
    have hs : r.search u.reverse v = none := search_eq_none_iff.2 fun x y hxy =>
      hitAt_of_first? (Pattern.first?_of_leftmost?_eq_none hnext x y hxy) _
    rw [hs]
  | some next =>
    obtain ⟨w, h⟩ := next
    obtain ⟨x, rfl, hfirst, hbetween⟩ := Pattern.leftmost?_eq_some hnext
    have hs : r.search u.reverse (w ++ x) = r.search (u ++ w).reverse x := by
      rw [search_passed fun a b hab hb => hitAt_of_first? (hbetween a b hab hb) _, List.reverse_append]
    have hplace : Text.byteSize u + Text.byteSize w = Text.byteSize (u ++ w) := (Text.byteSize_append u w).symm
    simp only [hplace]
    rw [← List.append_assoc, Text.partsAt?_append, hs]
    simp only
    split
    · rename_i hadmits
      rw [search_of_hitAt (Option.filter_eq_some_iff.2 ⟨hfirst, hadmits⟩)]
      simp only [Text.byteSize_reverse]
    · rename_i hrefused
      have hhere : r.hitAt (u ++ w).reverse x = none := by
        rw [hitAt, hfirst, Option.filter_eq_none_iff]
        exact fun _ _ => hrefused
      cases x with
      | nil =>
        rw [search_nil_of_hitAt hhere, seek, if_neg (by rw [List.append_nil, Text.step]; simp)]
      | cons c x =>
        have hbehind : Text.byteSize (u ++ w) + Text.step (c :: x) = Text.byteSize (u ++ w ++ [c]) := by
          rw [Text.byteSize_append (u ++ w) [c], Text.byteSize_cons, Text.byteSize_nil]
          rfl
        have ih := seek_append r (u ++ w ++ [c]) x
        rw [List.append_assoc (u ++ w), List.singleton_append] at ih
        rw [search_cons_of_hitAt hhere, hbehind, ih, List.reverse_concat]
termination_by v.length

/-- Over a whole text, the search from match to match ends with the leftmost place if there is one, and with nothing else. -/
theorem seek_cases (r : Rule) (t : Text) :
    r.search [] t = none ∧ r.seek t 0 = .nothing ∨
      ∃ before h, r.IsLeftmost t before h ∧ r.seek t 0 = .found (Text.byteSize before) h := by
  have hseek := seek_append r [] t
  rw [List.reverse_nil] at hseek
  rcases search_cases r t with hs | ⟨before, h, hs, hl⟩
  · rw [hs] at hseek
    exact .inl ⟨hs, hseek⟩
  · rw [hs] at hseek
    refine .inr ⟨before, h, hl, hseek.trans ?_⟩
    simp only [Text.byteSize_reverse]

/-- The search by positions finds nothing when the search by characters does. -/
theorem seek_eq_nothing_iff : r.seek t 0 = .nothing ↔ r.search [] t = none := by
  rcases seek_cases r t with ⟨hs, hseek⟩ | ⟨before, h, hl, hseek⟩
  · simp [hs, hseek]
  · simp [hseek, search_eq_some_iff.2 hl]

/-- The search by positions finds the leftmost hit at its byte position. -/
theorem seek_eq_found_iff {position : Nat} :
    r.seek t 0 = .found position h ↔ ∃ before, r.IsLeftmost t before h ∧ Text.byteSize before = position := by
  rcases seek_cases r t with ⟨hs, hseek⟩ | ⟨before, h', hl, hseek⟩
  · rw [hseek]
    refine iff_of_false (by simp) ?_
    rintro ⟨before, hl, -⟩
    rw [search_eq_some_iff.2 hl] at hs
    cases hs
  · rw [hseek, Ending.found.injEq]
    constructor
    · rintro ⟨rfl, rfl⟩
      exact ⟨before, hl, rfl⟩
    · rintro ⟨before', hl', rfl⟩
      obtain ⟨rfl, rfl⟩ := hl.unique hl'
      exact ⟨rfl, rfl⟩

/-! ### What is found -/

/-- A rule finds nothing when its search does. -/
theorem find_eq_none_iff_search : r.find id t = .ok none ↔ r.search [] t = none := by
  rw [find, locate]
  cases r.search [] t with
  | none => simp [Except.map]
  | some found =>
    obtain ⟨behind, h⟩ := found
    cases ho : r.occurrence id behind h <;> simp [ho, Except.map]

/-- A rule finds nothing when it has no hit at any place. -/
theorem find_eq_none_iff : r.find id t = .ok none ↔ ∀ u v, t = u ++ v → r.hitAt u.reverse v = none := by
  rw [find_eq_none_iff_search, search_eq_none_iff]
  simp only [List.append_nil]

/-- A rule answers with its reading of the leftmost hit. -/
theorem IsLeftmost.find_eq (hl : r.IsLeftmost t before h) (id : Nat) : r.find id t = (r.occurrence id before.reverse h).map some := by
  rw [find, locate, search_eq_some_iff.2 hl]
  simp only
  cases r.occurrence id before.reverse h <;> rfl

/-- Whatever else is answered comes from the leftmost place. -/
theorem find_iff {answer : Except OperandFault (Option Occurrence)} (hne : answer ≠ .ok none) :
    r.find id t = answer ↔ ∃ before h, r.IsLeftmost t before h ∧ (r.occurrence id before.reverse h).map some = answer := by
  constructor
  · rintro rfl
    rcases search_cases r t with hs | ⟨before, h, -, hl⟩
    · exact absurd (find_eq_none_iff_search.2 hs) hne
    · exact ⟨before, h, hl, (hl.find_eq id).symm⟩
  · rintro ⟨before, h, hl, rfl⟩
    exact hl.find_eq id

/-- A rule finds what it reads from its leftmost hit. -/
theorem find_eq_some_iff : r.find id t = .ok (some o) ↔ ∃ before h, r.IsLeftmost t before h ∧
    r.occurrence id before.reverse h = .ok o ∧ o.start = Text.byteSize before ∧ o.text = h.taken := by
  rw [find_iff (by simp)]
  refine exists_congr fun before => exists_congr fun h => and_congr_right fun _ => ?_
  constructor
  · intro ho
    obtain ⟨o', ho', heq⟩ := map_eq_ok.1 ho
    obtain rfl := Option.some.inj heq
    obtain ⟨-, hstart, -, htext, -⟩ := occurrence_eq_ok ho'
    exact ⟨ho', hstart.trans (Text.byteSize_reverse before), htext⟩
  · rintro ⟨ho, -, -⟩
    rw [ho]
    rfl

/-- A rule fails when it cannot read its leftmost hit. -/
theorem find_eq_error_iff {fault : OperandFault} :
    r.find id t = .error fault ↔ ∃ before h, r.IsLeftmost t before h ∧ r.occurrence id before.reverse h = .error fault := by
  rw [find_iff (by simp)]
  refine exists_congr fun before => exists_congr fun h => and_congr_right fun _ => ?_
  cases r.occurrence id before.reverse h <;> simp [Except.map]

/-! ### Occurrences that take up the whole text -/

/-- An occurrence takes up the whole text exactly if its text is the whole text. -/
theorem isWhole_iff_text (hr : r.pattern.IsAligned) (hf : r.find id t = .ok (some o)) : o.isWhole t = true ↔ o.text = t := by
  obtain ⟨found, hl, hfound⟩ := map_eq_ok.1 hf
  obtain ⟨l, rfl, rfl⟩ := Option.map_eq_some_iff.1 hfound
  have hparts := locate_parts hr hl
  rw [isWhole_iff hr hl]
  constructor
  · rintro ⟨hbefore, hafter⟩
    rw [hbefore, hafter, List.nil_append, List.append_nil] at hparts
    exact hparts.symm
  · intro htext
    have hlength := congrArg List.length hparts
    rw [htext, List.length_append, List.length_append] at hlength
    exact ⟨List.eq_nil_of_length_eq_zero (by omega), List.eq_nil_of_length_eq_zero (by omega)⟩

/-- A rule finds a text whole when it finds the whole of it. -/
theorem findWhole_eq_some_iff (hr : r.pattern.IsAligned) :
    r.findWhole id t = .ok (some o) ↔ r.find id t = .ok (some o) ∧ o.text = t := by
  rw [findWhole, map_eq_ok]
  constructor
  · rintro ⟨found, hf, hfound⟩
    obtain ⟨rfl, hwhole⟩ := Option.filter_eq_some_iff.1 hfound
    exact ⟨hf, (isWhole_iff_text hr hf).1 hwhole⟩
  · rintro ⟨hf, htext⟩
    exact ⟨some o, hf, Option.filter_eq_some_iff.2 ⟨rfl, (isWhole_iff_text hr hf).2 htext⟩⟩

/-- A rule that looks for the whole text fails as it does on parts. -/
theorem findWhole_eq_error_iff {fault : OperandFault} : r.findWhole id t = .error fault ↔ r.find id t = .error fault := by
  rw [findWhole]
  cases r.find id t <;> simp [Except.map]

/-- A rule does not find a text whole when it finds nothing or a part. -/
theorem findWhole_eq_none_iff (hr : r.pattern.IsAligned) :
    r.findWhole id t = .ok none ↔ ∃ found, r.find id t = .ok found ∧ ∀ o ∈ found, o.text ≠ t := by
  rw [findWhole, map_eq_ok]
  refine exists_congr fun found => and_congr_right fun hf => ?_
  rw [Option.filter_eq_none_iff]
  refine forall_congr' fun o => forall_congr' fun ho => not_congr ?_
  obtain rfl : found = some o := ho
  exact isWhole_iff_text hr hf

end

end Rule

namespace RuleSet
variable {s : RuleSet} {t : Text} {l : List (Nat × Rule)} {answer : Except OperandFault (Option Occurrence)}

/-- The first rule that does not pass the text over decides. -/
theorem resolveWith_iff (hne : answer ≠ .ok none) : resolveWith t l = answer ↔ ∃ (n : Nat) (e : Nat × Rule), l[n]? = some e ∧
    e.2.findWhole e.1 t = answer ∧ ∀ m < n, ∀ d : Nat × Rule, l[m]? = some d → d.2.findWhole d.1 t = .ok none := by
  induction l with
  | nil => simpa [resolveWith] using hne.symm
  | cons e l ih =>
    by_cases hpassed : e.2.findWhole e.1 t = .ok none
    · have hskip : resolveWith t (e :: l) = resolveWith t l := resolveWith_skip hpassed [] l
      rw [hskip, ih]
      constructor
      · rintro ⟨n, e', he', hanswer, hbefore⟩
        refine ⟨n + 1, e', by simpa using he', hanswer, fun m hm d hd => ?_⟩
        cases m with
        | zero =>
          obtain rfl : e = d := by simpa using hd
          exact hpassed
        | succ m => exact hbefore m (by omega) d (by simpa using hd)
      · rintro ⟨n, e', he', hanswer, hbefore⟩
        cases n with
        | zero =>
          obtain rfl : e = e' := by simpa using he'
          exact absurd (hanswer.symm.trans hpassed) hne
        | succ n => exact ⟨n, e', by simpa using he', hanswer, fun m hm d hd => hbefore (m + 1) (by omega) d (by simpa using hd)⟩
    · have hhere : resolveWith t (e :: l) = e.2.findWhole e.1 t := by
        rw [resolveWith]
        split <;> simp_all
      rw [hhere]
      constructor
      · exact fun hanswer => ⟨0, e, rfl, hanswer, fun m hm => absurd hm (Nat.not_lt_zero m)⟩
      · rintro ⟨n, e', he', hanswer, hbefore⟩
        cases n with
        | zero =>
          obtain rfl : e = e' := by simpa using he'
          exact hanswer
        | succ n => exact absurd (hbefore 0 (Nat.succ_pos n) e rfl) hpassed

/-- A text is not resolved when no rule finds it whole. -/
theorem resolveWith_eq_none_iff : resolveWith t l = .ok none ↔ ∀ e ∈ l, e.2.findWhole e.1 t = .ok none := by
  induction l with
  | nil => simp [resolveWith]
  | cons e l ih =>
    rw [List.forall_mem_cons, ← ih, resolveWith]
    split <;> simp_all

/-- The rules are numbered by their positions. -/
theorem getElem?_numbered (s : RuleSet) (id : Nat) : s.numbered[id]? = (s.get? id).map fun r => (id, r) := by
  rw [numbered, get?, List.getElem?_map, List.getElem?_zipIdx, Option.map_map, Nat.zero_add]
  rfl

/-- The rules of a rule set do not end within a token. -/
theorem isAligned_of_get? {id : Nat} {r : Rule} (h : s.get? id = some r) : r.pattern.IsAligned :=
  s.isAligned r (List.mem_of_getElem? h)

/-- The rules before a number pass a text over: they refuse no operand, and what they find, if anything, is less than all of the text. -/
def PassedOver (s : RuleSet) (t : Text) (id : Nat) : Prop :=
  ∀ j < id, ∀ r, s.get? j = some r → ∃ found, r.find j t = .ok found ∧ ∀ o ∈ found, o.text ≠ t

/-- Rules before a number are passed over when none of them finds the text whole. -/
theorem passedOver_iff {id : Nat} : s.PassedOver t id ↔ ∀ j < id, ∀ r, s.get? j = some r → r.findWhole j t = .ok none :=
  forall_congr' fun _ => forall_congr' fun _ => forall_congr' fun _ => forall_congr' fun hr =>
    (Rule.findWhole_eq_none_iff (isAligned_of_get? hr)).symm

/-- The first rule that is not passed over decides about a text. -/
theorem resolve_iff (hne : answer ≠ .ok none) :
    s.resolve t = answer ↔ ∃ id r, s.get? id = some r ∧ r.findWhole id t = answer ∧ s.PassedOver t id := by
  simp only [resolve, resolveWith_iff hne, passedOver_iff, getElem?_numbered, Option.map_eq_some_iff]
  constructor
  · rintro ⟨id, _, ⟨r, hr, rfl⟩, hanswer, hbefore⟩
    exact ⟨id, r, hr, hanswer, fun j hj r' hr' => hbefore j hj (j, r') ⟨r', hr', rfl⟩⟩
  · rintro ⟨id, r, hr, hanswer, hbefore⟩
    refine ⟨id, (id, r), ⟨r, hr, rfl⟩, hanswer, ?_⟩
    rintro j hj _ ⟨r', hr', rfl⟩
    exact hbefore j hj r' hr'

/-- A text is not resolved when all rules are passed over. -/
theorem resolve_eq_none_iff : s.resolve t = .ok none ↔ s.PassedOver t s.rules.length := by
  rw [resolve, resolveWith_eq_none_iff, passedOver_iff]
  constructor
  · exact fun hnone j _ r hr => hnone (j, r) (mem_numbered.2 hr)
  · rintro hnone ⟨j, r⟩ hmem
    have hr := mem_numbered.1 hmem
    exact hnone j (List.getElem?_eq_some_iff.1 hr).1 r hr

/-- Every rule finds the leftmost place at which its pattern matches and its guard agrees: it answers nothing exactly if there is no
such place, and otherwise the occurrence, with the preferred match, or the fault of a part of this match. Going from match to match by
byte positions leads to this place and never to a position inside of a character. A text as a whole is described by the first rule whose
occurrence is all of it, unless this rule or one before it refuses a part of its leftmost match. -/
theorem find_and_resolve_leftmost (s : RuleSet) (t : Text) :
    (∀ (r : Rule) (id : Nat),
      (r.find id t = .ok none ↔ ∀ before after, t = before ++ after → r.hitAt before.reverse after = none) ∧
      (∀ o, r.find id t = .ok (some o) ↔ ∃ before h, r.IsLeftmost t before h ∧
        r.occurrence id before.reverse h = .ok o ∧ o.start = Text.byteSize before ∧ o.text = h.taken) ∧
      (∀ fault, r.find id t = .error fault ↔ ∃ before h, r.IsLeftmost t before h ∧ r.occurrence id before.reverse h = .error fault) ∧
      (r.seek t 0 = .nothing ↔ r.find id t = .ok none) ∧
      (∀ position h, r.seek t 0 = .found position h ↔ ∃ before, r.IsLeftmost t before h ∧ Text.byteSize before = position) ∧
      ∀ position, r.seek t 0 ≠ .astray position) ∧
    (∀ o, s.resolve t = .ok (some o) ↔
      ∃ id r, s.get? id = some r ∧ r.find id t = .ok (some o) ∧ o.text = t ∧ s.PassedOver t id) ∧
    (∀ fault, s.resolve t = .error fault ↔ ∃ id r, s.get? id = some r ∧ r.find id t = .error fault ∧ s.PassedOver t id) ∧
    (s.resolve t = .ok none ↔ s.PassedOver t s.rules.length) := by
  refine ⟨fun r id => ⟨Rule.find_eq_none_iff, fun o => Rule.find_eq_some_iff, fun fault => Rule.find_eq_error_iff,
    Rule.seek_eq_nothing_iff.trans Rule.find_eq_none_iff_search.symm, fun position h => Rule.seek_eq_found_iff, fun position => ?_⟩,
    fun o => ?_, fun fault => ?_, resolve_eq_none_iff⟩
  · rcases Rule.seek_cases r t with ⟨-, hseek⟩ | ⟨before, h, -, hseek⟩ <;> rw [hseek] <;> simp
  · rw [resolve_iff (by simp)]
    refine exists_congr fun id => exists_congr fun r => and_congr_right fun hr => ?_
    rw [Rule.findWhole_eq_some_iff (isAligned_of_get? hr), and_assoc]
  · rw [resolve_iff (by simp)]
    simp only [Rule.findWhole_eq_error_iff]

end RuleSet

end FormulaDag
