import FormulaDag.Proofs.Source.Nesting

/-!
# Matching delimiters

The delimiters of a text match when they pair up into groups, and reading the text from the left with a stack of open delimiters decides
this. Where groups must not be empty either, the first fault that is found is at the first place to which the text cannot be continued in
any way, or it is the innermost group that the text leaves open.
-/

namespace FormulaDag.Source

/-- A text whose delimiters pair up into groups, of which some may be empty. -/
inductive Matched : Text → Prop where
  | nil : Matched []
  | plain {c : Char} {t : Text} (hc : isDelimiter c = false) (ht : Matched t) : Matched (c :: t)
  | group {opener closer : Char} {inner t : Text} (h : openerOf? closer = some opener) (hinner : Matched inner) (ht : Matched t) :
      Matched (opener :: inner ++ closer :: t)

/-- No delimiter closes a group right after it is opened. -/
def Filled (t : Text) : Prop := t.IsChain fun c d => openerOf? d ≠ some c

/-- The open delimiters after one more character, innermost first, unless the character closes another one than the innermost. -/
def turn (opened : List Char) (c : Char) : Option (List Char) :=
  match openerOf? c with
  | none => some (if isOpener c then c :: opened else opened)
  | some opener => if opened.head? = some opener then some opened.tail else none

/-- The open delimiters after a text. -/
def openAfter (opened : List Char) (t : Text) : Option (List Char) := t.foldlM turn opened

section
variable {opened opened' outer : List Char} {c opener closer : Char} {t u v : Text}

@[simp] theorem openAfter_nil : openAfter opened [] = some opened := rfl

/-- Of two texts in a row the second begins with what the first leaves open. -/
theorem openAfter_append (t u : Text) : openAfter opened (t ++ u) = (openAfter opened t).bind fun more => openAfter more u :=
  List.foldlM_append

/-- The first character turns the open delimiters for the rest. -/
theorem openAfter_cons (c : Char) (t : Text) : openAfter opened (c :: t) = (turn opened c).bind fun more => openAfter more t :=
  List.foldlM_cons

/-- The last character turns what is open before it. -/
theorem openAfter_concat (t : Text) (c : Char) : openAfter opened (t ++ [c]) = (openAfter opened t).bind fun more => turn more c := by
  simp [openAfter_append, openAfter_cons]

/-- A character that is no delimiter opens and closes nothing. -/
theorem turn_plain (hc : isDelimiter c = false) : turn opened c = some opened := by
  obtain ⟨hopener, hcloser⟩ := Bool.or_eq_false_iff.1 hc
  simp [turn, hopener, Option.isSome_eq_false_iff, Option.isNone_iff_eq_none] at hcloser ⊢
  simp [hcloser]

/-- An opening delimiter is open behind it. -/
theorem turn_opener (h : isOpener opener = true) : turn opened opener = some (opener :: opened) := by
  simp only [isOpener, Bool.or_eq_true, beq_iff_eq] at h
  rcases h with (rfl | rfl) | rfl <;> rfl

/-- A closing delimiter closes the one that belongs to it. -/
theorem turn_closer (h : openerOf? closer = some opener) : turn (opener :: opened) closer = some opened := by
  simp [turn, h]

/-- An opening delimiter is one that some other closes. -/
theorem isOpener_iff : isOpener c = true ↔ ∃ closer, openerOf? closer = some c := by
  constructor
  · intro h
    simp only [isOpener, Bool.or_eq_true, beq_iff_eq] at h
    rcases h with (rfl | rfl) | rfl
    · exact ⟨')', rfl⟩
    · exact ⟨'\x7d', rfl⟩
    · exact ⟨']', rfl⟩
  · rintro ⟨closer, h⟩
    rcases openerOf?_eq_some h with ⟨rfl, -⟩ | ⟨rfl, -⟩ | ⟨rfl, -⟩ <;> rfl

/-- What a character does to the open delimiters. -/
theorem turn_eq_some (h : turn opened c = some opened') : isDelimiter c = false ∧ opened' = opened ∨
    isOpener c = true ∧ opened' = c :: opened ∨ ∃ opener, openerOf? c = some opener ∧ opened = opener :: opened' := by
  unfold turn at h
  split at h
  · rename_i hnone
    by_cases hc : isOpener c = true
    · rw [if_pos hc, Option.some.injEq] at h
      exact .inr (.inl ⟨hc, h.symm⟩)
    · rw [if_neg hc, Option.some.injEq] at h
      exact .inl ⟨isDelimiter_of_openerOf?_eq_none hnone (Bool.eq_false_iff.2 hc), h.symm⟩
  · rename_i opener hsome
    rw [Option.ite_none_right_eq_some, Option.some.injEq] at h
    obtain ⟨hhead, rfl⟩ := h
    exact .inr (.inr ⟨opener, hsome, (List.cons_head?_tail hhead).symm⟩)

/-- Matching delimiters leave what was open. -/
theorem Matched.openAfter (h : Matched t) (opened : List Char) : openAfter opened t = some opened := by
  induction h generalizing opened with
  | nil => rfl
  | plain hc _ ih => rw [openAfter_cons, turn_plain hc, Option.bind_some, ih]
  | group h _ _ ihinner ih =>
    rw [List.cons_append, openAfter_cons, turn_opener (isOpener_iff.2 ⟨_, h⟩), Option.bind_some, openAfter_append, ihinner, Option.bind_some, openAfter_cons,
      turn_closer h, Option.bind_some, ih]

/-- Two matched texts in a row are matched. -/
theorem Matched.append (h : Matched t) (hu : Matched u) : Matched (t ++ u) := by
  induction h with
  | nil => exact hu
  | plain hc _ ih => exact .plain hc ih
  | group h hinner _ _ ih =>
    rw [List.append_assoc, List.cons_append]
    exact .group h hinner ih

/-- A text that leaves nothing open matches, and any other is cut at the innermost delimiter that it leaves open. -/
theorem matched_or_cut (h : openAfter [] t = some opened) : opened = [] ∧ Matched t ∨ ∃ before opener inner outer,
    opened = opener :: outer ∧ t = before ++ opener :: inner ∧ Matched inner ∧ openAfter [] before = some outer ∧
      isOpener opener = true := by
  induction hlen : t.length using Nat.strong_induction_on generalizing t opened with
  | _ n ih =>
    subst hlen
    rcases List.eq_nil_or_concat t with rfl | ⟨u, c, rfl⟩
    · exact .inl ⟨(Option.some.inj h).symm, .nil⟩
    rw [List.concat_eq_append] at h ih ⊢
    rw [openAfter_concat, Option.bind_eq_some_iff] at h
    obtain ⟨between, hu, hturn⟩ := h
    have hbefore := ih u.length (by simp) hu rfl
    rcases turn_eq_some hturn with ⟨hc, rfl⟩ | ⟨hc, rfl⟩ | ⟨opener, hc, rfl⟩
    · have hplain : Matched [c] := .plain hc .nil
      rcases hbefore with ⟨hnil, hmatched⟩ | ⟨before, opener, inner, outer, hcons, rfl, hinner, hrest⟩
      · exact .inl ⟨hnil, hmatched.append hplain⟩
      · exact .inr ⟨before, opener, inner ++ [c], outer, hcons, by simp, hinner.append hplain, hrest⟩
    · exact .inr ⟨u, c, [], between, rfl, rfl, .nil, hu, hc⟩
    · rcases hbefore with ⟨hnil, -⟩ | ⟨before, _, inner, _, hcons, rfl, hinner, hopen, -⟩
      · cases hnil
      obtain ⟨rfl, rfl⟩ := List.cons.inj hcons
      have hgroup : Matched (opener :: inner ++ [c]) := .group hc hinner .nil
      -- the group that is closed here continues what stands before it
      rcases ih before.length (by simp) hopen rfl with ⟨hnil, hmatched⟩ | ⟨front, outermost, inner', outer', hcons', rfl, hinner', hrest⟩
      · exact .inl ⟨hnil, by simpa using hmatched.append hgroup⟩
      · exact .inr ⟨front, outermost, inner' ++ (opener :: inner ++ [c]), outer', hcons', by simp, hinner'.append hgroup, hrest⟩

/-- A text is matched when all its delimiters are closed at the end. -/
theorem matched_iff : Matched t ↔ openAfter [] t = some [] := by
  refine ⟨fun h => h.openAfter [], fun h => ?_⟩
  rcases matched_or_cut h with ⟨-, hmatched⟩ | ⟨_, _, _, _, hcons, -⟩
  · exact hmatched
  · cases hcons

/-! ## Continuations -/

/-- A text can be continued to one whose groups match and are not empty. -/
def Continues (t : Text) : Prop := ∃ u, Matched (t ++ u) ∧ Filled (t ++ u)

/-- All that is open can be closed. -/
theorem exists_matched_append (h : openAfter [] t = some opened) : ∃ u, Matched (t ++ u) ∧ (Filled t → Filled (t ++ u)) := by
  induction opened generalizing t with
  | nil => exact ⟨[], by rw [List.append_nil]; exact matched_iff.2 h, by simp⟩
  | cons opener outer ih =>
    rcases matched_or_cut h with ⟨hnil, -⟩ | ⟨_, _, _, _, hcons, -, -, -, hopener⟩
    · cases hnil
    obtain ⟨rfl, rfl⟩ := List.cons.inj hcons
    obtain ⟨closer, hpair⟩ := isOpener_iff.1 hopener
    -- a plain character in between keeps the group from being empty
    have hopen : openAfter [] (t ++ ['x', closer]) = some outer := by
      rw [openAfter_append, h, Option.bind_some, openAfter_cons, turn_plain (by decide), Option.bind_some, openAfter_cons,
        turn_closer hpair]
      rfl
    obtain ⟨u, hmatched, hfilled⟩ := ih hopen
    refine ⟨['x', closer] ++ u, by rwa [← List.append_assoc], fun ht => ?_⟩
    rw [← List.append_assoc]
    refine hfilled (List.isChain_append.2 ⟨ht, ?_, ?_⟩)
    · have hx : openerOf? closer ≠ some 'x' := by
        rintro heq
        rcases openerOf?_eq_some heq with ⟨h, -⟩ | ⟨h, -⟩ | ⟨h, -⟩ <;> cases h
      simpa using hx
    · intro c _ d hd
      obtain rfl : d = 'x' := by simpa using hd.symm
      simp [openerOf?]

/-- A text can be continued when its delimiters close properly and no group is empty. -/
theorem continues_iff : Continues t ↔ (∃ opened, openAfter [] t = some opened) ∧ Filled t := by
  constructor
  · rintro ⟨u, hmatched, hfilled⟩
    have hopen := hmatched.openAfter []
    rw [openAfter_append, Option.bind_eq_some_iff] at hopen
    obtain ⟨opened, ht, -⟩ := hopen
    exact ⟨⟨opened, ht⟩, (List.isChain_append.1 hfilled).1⟩
  · rintro ⟨⟨opened, ht⟩, hfilled⟩
    obtain ⟨u, hmatched, hkept⟩ := exists_matched_append ht
    exact ⟨u, hmatched, hkept hfilled⟩

/-! ## The first fault -/

/-- Why the groups of a text are refused: a delimiter that nothing before it lets close, a group that is closed as soon as it is opened,
or the innermost of the groups that are left open. Up to there the text can be continued. -/
inductive Misnested : Text → ShapeFault → Prop where
  | unbalanced {opener closer : Char} {before after : Text} (hbefore : Continues before) (hcloser : openerOf? closer = some opener)
      (h : ∀ u, ¬Matched (before ++ closer :: u)) : Misnested (before ++ closer :: after) (.unbalanced closer)
  | emptyGroup {opener closer : Char} {before after : Text} (hbefore : Continues (before ++ [opener]))
      (hcloser : openerOf? closer = some opener) : Misnested (before ++ opener :: closer :: after) (.emptyGroup opener closer)
  | unclosed {opener : Char} {before inner : Text} (hbefore : Continues (before ++ opener :: inner)) (hopener : isOpener opener = true)
      (hinner : Matched inner) : Misnested (before ++ opener :: inner) (.unclosed opener)

/-- Behind an opening delimiter that one is the innermost open. -/
theorem openAfter_opener (h : isOpener opener = true) (ht : openAfter [] (t ++ [opener]) = some opened) :
    opened.head? = some opener := by
  rw [openAfter_concat, Option.bind_eq_some_iff] at ht
  obtain ⟨between, -, hturn⟩ := ht
  rw [turn_opener h, Option.some.injEq] at hturn
  rw [← hturn]
  rfl

/-- The check goes on behind a text that can be continued. -/
theorem groupFault_append {previous : Option Char} (h : openAfter opened t = some opened') (hfilled : Filled (previous.toList ++ t)) (u : Text) :
    groupFault opened previous (t ++ u) = groupFault opened' (t.getLast?.or previous) u := by
  induction t generalizing opened previous with
  | nil =>
    rw [openAfter_nil, Option.some.injEq] at h
    rw [h]
    rfl
  | cons c t ih =>
    rw [openAfter_cons, Option.bind_eq_some_iff] at h
    obtain ⟨between, hturn, h⟩ := h
    have hlast : (c :: t).getLast?.or previous = t.getLast?.or (some c) := by
      rw [List.getLast?_cons]
      cases t.getLast? <;> rfl
    have hfilled' : Filled ((some c).toList ++ t) := (List.isChain_append.1 hfilled).2.1
    rw [hlast, ← ih h hfilled', List.cons_append, groupFault]
    cases hcloser : openerOf? c with
    | none =>
      simp only [turn, hcloser, Option.some.injEq] at hturn
      simp only [hturn]
    | some opener =>
      simp only [turn, hcloser, Option.ite_none_right_eq_some, Option.some.injEq] at hturn
      have hne : previous ≠ some opener := by
        rintro rfl
        exact (List.isChain_cons_cons.1 hfilled).1 hcloser
      simp only
      rw [if_neg (not_not_intro hturn.1), if_neg hne, hturn.2]

/-- The check of a text that can be continued has got so far. -/
theorem Continues.groupFault_append (h : Continues t) : ∃ opened, openAfter [] t = some opened ∧
    ∀ u, groupFault [] none (t ++ u) = groupFault opened t.getLast? u := by
  obtain ⟨⟨opened, hopen⟩, hfilled⟩ := continues_iff.1 h
  refine ⟨opened, hopen, fun u => ?_⟩
  rw [Source.groupFault_append hopen (by simpa using hfilled), Option.or_none]

/-- What the check finds behind a text that it has read. -/
theorem groupFault_cases (hopen : openAfter [] t = some opened) (hfilled : Filled t) (u : Text) :
    groupFault opened t.getLast? u = none ∧ Matched (t ++ u) ∧ Filled (t ++ u) ∨
      ∃ fault, groupFault opened t.getLast? u = some fault ∧ Misnested (t ++ u) fault := by
  have hcontinues : Continues t := continues_iff.2 ⟨⟨opened, hopen⟩, hfilled⟩
  induction u generalizing t opened with
  | nil =>
    rw [List.append_nil]
    rcases matched_or_cut hopen with ⟨rfl, hmatched⟩ | ⟨before, opener, inner, outer, rfl, rfl, hinner, -, hopener⟩
    · exact .inl ⟨rfl, hmatched, hfilled⟩
    · exact .inr ⟨_, rfl, .unclosed hcontinues hopener hinner⟩
  | cons c u ih =>
    have hstep : ∀ {opened'}, turn opened c = some opened' → (∀ d ∈ t.getLast?, openerOf? c ≠ some d) →
        groupFault opened' (some c) u = none ∧ Matched (t ++ c :: u) ∧ Filled (t ++ c :: u) ∨
          ∃ fault, groupFault opened' (some c) u = some fault ∧ Misnested (t ++ c :: u) fault := by
      intro opened' hturn hlast
      have hopen' : openAfter [] (t ++ [c]) = some opened' := by rw [openAfter_concat, hopen, Option.bind_some, hturn]
      have hfilled' : Filled (t ++ [c]) := List.isChain_append.2 ⟨hfilled, .singleton c, by simpa using hlast⟩
      simpa using ih hopen' hfilled' (continues_iff.2 ⟨⟨_, hopen'⟩, hfilled'⟩)
    rw [groupFault]
    split
    · rename_i hnone
      exact hstep (by rw [turn, hnone]) (by simp [hnone])
    · rename_i opener hsome
      by_cases hhead : opened.head? = some opener
      · rw [if_neg (not_not_intro hhead)]
        by_cases hprevious : t.getLast? = some opener
        · rw [if_pos hprevious]
          obtain ⟨before, rfl⟩ := List.getLast?_eq_some_iff.1 hprevious
          rw [List.append_assoc, List.singleton_append]
          exact .inr ⟨_, rfl, .emptyGroup hcontinues hsome⟩
        · rw [if_neg hprevious]
          refine hstep (by rw [turn, hsome]; simp [hhead]) fun d hd heq => hprevious ?_
          rw [hsome] at heq
          rw [heq]
          exact hd
      · rw [if_pos hhead]
        refine .inr ⟨_, rfl, .unbalanced hcontinues hsome fun v hmatched => hhead ?_⟩
        have hall := hmatched.openAfter []
        rw [openAfter_append, hopen, Option.bind_some, openAfter_cons, Option.bind_eq_some_iff] at hall
        obtain ⟨opened', hturn, -⟩ := hall
        rw [turn, hsome] at hturn
        simp only [Option.ite_none_right_eq_some] at hturn
        exact hturn.1

/-- The check finds no fault exactly when groups match and are not empty. -/
theorem groupFault_eq_none_iff : groupFault [] none t = none ↔ Matched t ∧ Filled t := by
  constructor
  · intro h
    rcases groupFault_cases (t := []) rfl .nil t with ⟨-, ht⟩ | ⟨fault, hfault, -⟩
    · exact ht
    · rw [List.getLast?_nil, h] at hfault
      cases hfault
  · rintro ⟨hmatched, hfilled⟩
    have happend : groupFault [] none (t ++ []) = groupFault [] (t.getLast?.or none) [] :=
      groupFault_append (hmatched.openAfter []) (by simpa using hfilled) []
    rw [List.append_nil] at happend
    rw [happend, groupFault]

/-- The check finds the first fault. -/
theorem groupFault_eq_some_iff {fault : ShapeFault} : groupFault [] none t = some fault ↔ Misnested t fault := by
  constructor
  · intro h
    rcases groupFault_cases (t := []) rfl .nil t with ⟨hnone, -⟩ | ⟨fault', hfault, hmisnested⟩
    · rw [List.getLast?_nil, h] at hnone
      cases hnone
    · rw [List.getLast?_nil, h, Option.some.injEq] at hfault
      rw [hfault]
      exact hmisnested
  · intro h
    cases h with
    | @unbalanced opener closer before after hbefore hcloser h =>
      obtain ⟨opened, hopen, happend⟩ := hbefore.groupFault_append
      have hhead : opened.head? ≠ some opener := by
        intro hhead
        have hmore : openAfter [] (before ++ [closer]) = some opened.tail := by
          rw [openAfter_concat, hopen, Option.bind_some, turn, hcloser]
          simp [hhead]
        obtain ⟨u, hu, -⟩ := exists_matched_append hmore
        exact h u (by simpa using hu)
      rw [happend, groupFault, hcloser]
      simp only
      rw [if_pos hhead]
    | @emptyGroup opener closer before after hbefore hcloser =>
      obtain ⟨opened, hopen, happend⟩ := hbefore.groupFault_append
      have hall := happend (closer :: after)
      rw [List.append_assoc, List.singleton_append] at hall
      rw [hall, groupFault, hcloser]
      simp only
      rw [if_neg (not_not_intro (openAfter_opener (isOpener_iff.2 ⟨_, hcloser⟩) hopen)), if_pos (by simp)]
    | @unclosed opener before inner hbefore hopener hinner =>
      obtain ⟨opened, hopen, happend⟩ := hbefore.groupFault_append
      have hall := happend []
      rw [openAfter_append, Option.bind_eq_some_iff] at hopen
      obtain ⟨outer, -, hopen⟩ := hopen
      rw [openAfter_cons, turn_opener hopener, Option.bind_some, hinner.openAfter, Option.some.injEq] at hopen
      rw [List.append_nil] at hall
      rw [hall, ← hopen, groupFault]

end

end FormulaDag.Source
