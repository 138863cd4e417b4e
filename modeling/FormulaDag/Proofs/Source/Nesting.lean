import FormulaDag.Proofs.Line
import FormulaDag.Source.WellFormed
import FormulaDag.Text.Parentheses

/-!
# Nested lines

A line is nested when its delimiters pair up into groups that are not empty. A source text without a fault in its groups is nested.
Taking redundant parentheses off a nested line leaves a nested line, which differs by nothing but these parentheses.
-/

namespace FormulaDag

namespace Source

/-- Whether a character opens or closes a group. -/
def isDelimiter (c : Char) : Bool := isOpener c || (openerOf? c).isSome

/-- The three kinds of groups. -/
theorem openerOf?_eq_some {opener closer : Char} (h : openerOf? closer = some opener) :
    (opener = '(' ∧ closer = ')') ∨ (opener = '{' ∧ closer = '}') ∨ (opener = '[' ∧ closer = ']') := by
  unfold openerOf? at h
  split at h
  · exact .inl ⟨(Option.some.inj h).symm, rfl⟩
  · exact .inr (.inl ⟨(Option.some.inj h).symm, rfl⟩)
  · exact .inr (.inr ⟨(Option.some.inj h).symm, rfl⟩)
  · simp at h

/-- An opening delimiter belongs to one closing delimiter. -/
theorem closer_unique {opener c c' : Char} (h : openerOf? c = some opener) (h' : openerOf? c' = some opener) : c = c' := by
  rcases openerOf?_eq_some h with ⟨rfl, rfl⟩ | ⟨rfl, rfl⟩ | ⟨rfl, rfl⟩ <;>
    rcases openerOf?_eq_some h' with ⟨h₁, rfl⟩ | ⟨h₁, rfl⟩ | ⟨h₁, rfl⟩ <;> first | rfl | exact absurd h₁ (by decide)

/-- No opening delimiter is a closing one. -/
theorem opener_ne_closer {o o' c c' : Char} (h : openerOf? c = some o) (h' : openerOf? c' = some o') : o ≠ c' := by
  rcases openerOf?_eq_some h with ⟨rfl, -⟩ | ⟨rfl, -⟩ | ⟨rfl, -⟩ <;>
    rcases openerOf?_eq_some h' with ⟨-, rfl⟩ | ⟨-, rfl⟩ | ⟨-, rfl⟩ <;> decide

end Source

namespace Text

/-- A text in a pair of parentheses is unwrapped as what stands inside. -/
theorem unwrap_of_inside? {t inner : Text} (h : inside? t = some inner) : unwrap t = unwrap inner := by
  rw [unwrap]
  split
  · rename_i found hinside
    rw [Option.some.inj (hinside.symm.trans h)]
  · rename_i hinside
    rw [h] at hinside
    cases hinside

/-- A text without a pair around it is not unwrapped. -/
theorem unwrap_of_inside?_eq_none {t : Text} (h : inside? t = none) : unwrap t = t := by
  rw [unwrap]
  split
  · rename_i inner hinside
    rw [h] at hinside
    cases hinside
  · rfl

/-- All parentheses have been taken off. -/
theorem inside?_unwrap (t : Text) : inside? (unwrap t) = none := by
  induction t using unwrap.induct with
  | case1 t inner hinside ih => rwa [unwrap_of_inside? hinside]
  | case2 t hinside => rwa [unwrap_of_inside?_eq_none hinside]

end Text

namespace Line

open Source

/-- A line whose groups match and are not empty. -/
inductive Nested : Line → Prop where
  | nil : Nested []
  | mark {m : Mark} {s : Line} (hm : ∀ c, m = .char c → isDelimiter c = false) (hs : Nested s) : Nested (m :: s)
  | group {opener closer : Char} {inner s : Line} (h : openerOf? closer = some opener) (hne : inner ≠ [])
      (hinner : Nested inner) (hs : Nested s) : Nested (.char opener :: inner ++ .char closer :: s)

/-- A nested line without an opening delimiter is without the closing one. -/
theorem Nested.closer_not_mem {s : Line} (h : Nested s) {opener closer : Char} (hpair : openerOf? closer = some opener)
    (hopener : .char opener ∉ s) : .char closer ∉ s := by
  induction h with
  | nil => simp
  | @mark m s hm hs ih =>
    simp only [List.mem_cons, not_or] at hopener ⊢
    refine ⟨?_, ih hopener.2⟩
    rintro rfl
    have := hm closer rfl
    simp [isDelimiter, hpair] at this
  | @group o c inner s hgroup hne hinner hs ihinner ihs =>
    simp only [List.cons_append, List.mem_cons, List.mem_append, Mark.char.injEq, not_or] at hopener ⊢
    refine ⟨(opener_ne_closer hgroup hpair).symm, ihinner hopener.2.1, ?_, ihs hopener.2.2.2⟩
    rintro rfl
    exact hopener.1 (Option.some.inj (hpair.symm.trans hgroup))

end Line

namespace Source

open Line

/-- A character that neither opens nor closes is no delimiter. -/
theorem isDelimiter_of_openerOf?_eq_none {c : Char} (h : openerOf? c = none) (ho : isOpener c = false) : isDelimiter c = false := by
  simp [isDelimiter, h, ho]

/-- A letter or digit is no delimiter. -/
theorem isDelimiter_of_isAlphanum {c : Char} (h : c.isAlphanum = true) : isDelimiter c = false := by
  rw [isDelimiter, Bool.or_eq_false_iff]
  constructor
  · simp only [isOpener, Bool.or_eq_false_iff, beq_eq_false_iff_ne]
    refine ⟨⟨?_, ?_⟩, ?_⟩ <;>
    · rintro rfl
      exact absurd h (by decide)
  · rw [Option.isSome_eq_false_iff, Option.isNone_iff_eq_none]
    cases hc : openerOf? c with
    | none => rfl
    | some o => rcases openerOf?_eq_some hc with ⟨-, rfl⟩ | ⟨-, rfl⟩ | ⟨-, rfl⟩ <;> exact absurd h (by decide)

/-- A text without a fault in its groups continues the open ones: it closes the innermost and then is without a fault in the
others. -/
theorem nested_of_groupFault {opened : List Char} {previous : Option Char} {t : Text}
    (h : groupFault opened previous t = none) :
    (opened = [] → Nested (ofText t)) ∧
      ∀ opener outer, opened = opener :: outer → ∃ inner closer rest, t = inner ++ closer :: rest ∧ Nested (ofText inner) ∧
        openerOf? closer = some opener ∧ (inner = [] → previous ≠ some opener) ∧ groupFault outer (some closer) rest = none := by
  induction hlen : t.length using Nat.strong_induction_on generalizing t opened previous with
  | _ length ih =>
    subst hlen
    cases t with
    | nil =>
      cases opened with
      | nil => exact ⟨fun _ => .nil, by simp⟩
      | cons opener outer => simp [groupFault] at h
    | cons c rest =>
      rw [groupFault] at h
      cases hc : openerOf? c with
      | some opener =>
        simp only [hc] at h
        split at h
        · simp at h
        · rename_i hhead
          split at h
          · simp at h
          · rename_i hprevious
            cases opened with
            | nil => simp at hhead
            | cons o outer =>
              obtain rfl : o = opener := by simpa using hhead
              refine ⟨by simp, fun opener' outer' heq => ⟨[], c, rest, rfl, .nil, ?_⟩⟩
              obtain ⟨rfl, rfl⟩ := List.cons.inj heq
              exact ⟨hc, fun _ => hprevious, h⟩
      | none =>
        simp only [hc] at h
        cases ho : isOpener c with
        | false =>
          have hplain : ∀ d, Mark.char c = .char d → isDelimiter d = false := by
            intro d hd
            rw [Mark.char.injEq] at hd
            exact hd ▸ isDelimiter_of_openerOf?_eq_none hc ho
          rw [ho, if_neg (by simp)] at h
          obtain ⟨hnil, hcons⟩ := ih rest.length (by simp) h rfl
          refine ⟨fun hopened => .mark hplain (hnil hopened), fun opener outer heq => ?_⟩
          obtain ⟨inner, closer, rest', rfl, hinner, hcloser, -, hrest⟩ := hcons opener outer heq
          exact ⟨c :: inner, closer, rest', rfl, .mark hplain hinner, hcloser, by simp, hrest⟩
        | true =>
          rw [ho, if_pos rfl] at h
          obtain ⟨-, hcons⟩ := ih rest.length (by simp) h rfl
          obtain ⟨inner, closer, rest', rfl, hinner, hcloser, hne, hrest⟩ := hcons c opened rfl
          have hgroup : ∀ u : Text, Nested (ofText u) → Nested (ofText (c :: inner ++ closer :: u)) := by
            intro u hu
            have hinner_ne : ofText inner ≠ [] := by
              simp only [ofText, ne_eq, List.map_eq_nil_iff]
              exact fun hnil => hne hnil rfl
            have hgroup := Nested.group hcloser hinner_ne hinner hu
            simpa [ofText] using hgroup
          obtain ⟨hnil, hcons'⟩ := ih rest'.length (by simp; omega) hrest rfl
          refine ⟨fun hopened => hgroup rest' (hnil hopened), fun opener outer heq => ?_⟩
          obtain ⟨inner', closer', rest'', rfl, hinner', hcloser', -, hrest'⟩ := hcons' opener outer heq
          exact ⟨c :: inner ++ closer :: inner', closer', rest'', by simp, hgroup inner' hinner', hcloser', by simp, hrest'⟩

/-- A source text without a fault in its groups is nested. -/
theorem nested_of_groupFault_eq_none {t : Text} (h : groupFault [] none t = none) : Nested (ofText t) :=
  (nested_of_groupFault h).1 rfl

end Source

namespace Line

open Source

/-- An opening parenthesis is one more that is open. -/
theorem balancedFrom_opener (depth : Nat) (t : Text) :
    Text.balancedFrom depth ('(' :: t) = Text.balancedFrom (depth + 1) t := by
  cases depth <;> simp [Text.balancedFrom]

/-- A closing parenthesis is one less that is open. -/
theorem balancedFrom_closer (depth : Nat) (t : Text) :
    Text.balancedFrom (depth + 1) (')' :: t) = Text.balancedFrom depth t := by
  simp [Text.balancedFrom]

/-- Any other character does not count. -/
theorem balancedFrom_other {c : Char} (h : c ≠ '(') (h' : c ≠ ')') (depth : Nat) (t : Text) :
    Text.balancedFrom depth (c :: t) = Text.balancedFrom depth t := by
  cases depth <;> simp [Text.balancedFrom, h, h']

/-- A text without parentheses does not count. -/
theorem balancedFrom_of_not_mem {u : Text} (h : '(' ∉ u) (h' : ')' ∉ u) (depth : Nat) (t : Text) :
    Text.balancedFrom depth (u ++ t) = Text.balancedFrom depth t := by
  induction u with
  | nil => rfl
  | cons c u ih =>
    simp only [List.mem_cons, not_or] at h h'
    rw [List.cons_append, balancedFrom_other (Ne.symm h.1) (Ne.symm h'.1)]
    exact ih h.2 h'.2

/-- A token has digits and its marks only. -/
theorem not_mem_token {c : Char} (h : c.isDigit = false) (hat : c ≠ '@') (hslash : c ≠ '/') (k : Nat) :
    c ∉ Index.token k := by
  rw [Index.token_eq]
  simp only [List.mem_cons, List.mem_append, List.not_mem_nil, or_false, not_or]
  refine ⟨hat, hslash, fun hc => ?_, hslash, hat⟩
  rw [Index.isDigit_of_mem_ofNat hc] at h
  simp at h

/-- A character that no token holds is in the text of a line only as a mark. -/
theorem not_mem_text {c : Char} (h : c.isDigit = false) (hat : c ≠ '@') (hslash : c ≠ '/') {s : Line} (hs : .char c ∉ s) :
    c ∉ text s := by
  intro hc
  obtain ⟨m, hm, hc⟩ := List.mem_flatMap.1 hc
  cases m with
  | char d =>
    rw [Mark.text, List.mem_singleton] at hc
    exact hs (hc ▸ hm)
  | ref k => exact not_mem_token h hat hslash k hc

/-- Parentheses are open after a nested line as they were before it. -/
theorem Nested.balancedFrom {s : Line} (h : Nested s) (depth : Nat) (t : Text) :
    Text.balancedFrom depth (text s ++ t) = Text.balancedFrom depth t := by
  induction h generalizing depth t with
  | nil => rfl
  | @mark m s hm hs ih =>
    rw [text_cons, List.append_assoc, balancedFrom_of_not_mem, ih]
    · cases m with
      | char c =>
        rw [Mark.text, List.mem_singleton]
        rintro rfl
        exact absurd (hm _ rfl) (by decide)
      | ref k => exact not_mem_token (by decide) (by decide) (by decide) k
    · cases m with
      | char c =>
        rw [Mark.text, List.mem_singleton]
        rintro rfl
        exact absurd (hm _ rfl) (by decide)
      | ref k => exact not_mem_token (by decide) (by decide) (by decide) k
  | @group opener closer inner s h hne hinner hs ihinner ihs =>
    have htext : text (.char opener :: inner ++ .char closer :: s) ++ t = opener :: (text inner ++ closer :: (text s ++ t)) := by
      simp [Mark.text]
    rw [htext]
    unfold openerOf? at h
    split at h
    · rw [← Option.some.inj h, balancedFrom_opener, ihinner, balancedFrom_closer, ihs]
    · rw [← Option.some.inj h, balancedFrom_other (by decide) (by decide), ihinner,
        balancedFrom_other (by decide) (by decide), ihs]
    · rw [← Option.some.inj h, balancedFrom_other (by decide) (by decide), ihinner,
        balancedFrom_other (by decide) (by decide), ihs]
    · simp at h

/-- A line in a number of pairs of parentheses. -/
inductive Wraps (s' : Line) : Line → Prop where
  | refl : Wraps s' s'
  | parentheses {s : Line} (h : Wraps s' s) : Wraps s' (.char '(' :: s ++ [.char ')'])

namespace Wraps
variable {s s' : Line}

/-- A line in a pair of delimiters has the references of the line. -/
theorem ref_mem_iff (h : Wraps s' s) (k : Nat) : .ref k ∈ s' ↔ .ref k ∈ s := by
  induction h with
  | refl => rfl
  | parentheses _ ih => simp [ih]

/-- A line without its outer delimiters has no other marks. -/
theorem subset (h : Wraps s' s) : s' ⊆ s := by
  induction h with
  | refl => exact List.Subset.refl _
  | parentheses _ ih => exact fun m hm => by simp [ih hm]

/-- Delimiters that are written as nothing do not change the expansion. -/
theorem expand_eq (h : Wraps s' s) {write : Char → Text} (hopen : write '(' = []) (hclose : write ')' = [])
    (meaning : Nat → Text) : expand write meaning s' = expand write meaning s := by
  induction h with
  | refl => rfl
  | parentheses _ ih =>
    rw [ih, expand_append, expand_cons, expand_cons, expand_nil]
    simp [Mark.expand, hopen, hclose]

end Wraps

/-- The characters of a line are characters of its text. -/
theorem mem_text {c : Char} {s : Line} (h : .char c ∈ s) : c ∈ text s :=
  List.mem_flatMap.2 ⟨.char c, h, List.mem_singleton.2 rfl⟩

/-- A line with marks is not written as nothing. -/
theorem text_ne_nil {s : Line} (h : s ≠ []) : text s ≠ [] := by
  cases s with
  | nil => exact absurd rfl h
  | cons m s =>
    cases m with
    | char c => simp [Mark.text]
    | ref k => simp [Mark.text, Index.token_eq]

/-- A pair of parentheses around a nested line is found. -/
theorem Nested.inside?_parentheses {l : Line} (h : Nested l) : Text.inside? (text (.char '(' :: l ++ [.char ')'])) = some (text l) := by
  have hbalanced : Text.balanced (text l) = true := by
    have := h.balancedFrom 0 []
    rwa [List.append_nil] at this
  have htext : text (.char '(' :: l ++ [.char ')']) = '(' :: (text l ++ [')']) := by simp [Mark.text]
  rw [htext, Text.inside?, List.dropLast_concat, List.getLast?_concat, if_pos ⟨rfl, rfl, hbalanced⟩]

/-- When something stands behind a group in parentheses, no pair of parentheses stands around the whole. -/
theorem Nested.inside?_group {l rest : Line} (h : Nested l) (hne : rest ≠ []) :
    Text.inside? (text (.char '(' :: l ++ .char ')' :: rest)) = none := by
  have htext : text (.char '(' :: l ++ .char ')' :: rest) = '(' :: (text l ++ ')' :: text rest) := by simp [Mark.text]
  rw [htext, Text.inside?]
  -- the group ends before the last parenthesis, so that one would close nothing
  obtain ⟨c, u, hu⟩ := List.exists_cons_of_ne_nil (text_ne_nil hne)
  rw [if_neg]
  rintro ⟨-, -, hbalanced⟩
  rw [hu, List.dropLast_append_of_ne_nil (by simp), List.dropLast_cons_of_ne_nil (by simp), Text.balanced, h.balancedFrom] at hbalanced
  simp [Text.balancedFrom] at hbalanced

/-- A line that begins with another mark is in no pair of parentheses. -/
theorem inside?_cons {m : Mark} (hm : m ≠ .char '(') (s : Line) : Text.inside? (text (m :: s)) = none := by
  cases m with
  | char c =>
    rw [text_cons, Mark.text, List.singleton_append, Text.inside?, if_neg]
    rintro ⟨rfl, -⟩
    exact hm rfl
  | ref k =>
    rw [text_cons, Mark.text, Index.token_eq, List.cons_append, Text.inside?, if_neg]
    rintro ⟨heq, -⟩
    exact absurd heq (by decide)

/-- What a pair of parentheses around a nested line holds is nested. -/
theorem Nested.of_inside? {s : Line} (h : Nested s) {inner : Text} (hinside : Text.inside? (text s) = some inner) :
    ∃ l : Line, s = .char '(' :: l ++ [.char ')'] ∧ text l = inner ∧ Nested l ∧ l ≠ [] := by
  cases h with
  | nil => simp [Text.inside?] at hinside
  | @mark m s hm hs =>
    rw [inside?_cons (fun heq => absurd (hm _ heq) (by decide))] at hinside
    cases hinside
  | @group opener closer l rest hpair hne hl hrest =>
    by_cases hopener : opener = '('
    · subst hopener
      obtain rfl := closer_unique hpair (show openerOf? ')' = some '(' from rfl)
      by_cases hnil : rest = []
      · subst hnil
        rw [hl.inside?_parentheses] at hinside
        exact ⟨l, rfl, Option.some.inj hinside, hl, hne⟩
      · rw [hl.inside?_group hnil] at hinside
        cases hinside
    · rw [List.cons_append, inside?_cons (by simpa using hopener)] at hinside
      cases hinside

/-- Taking parentheses off a nested line. -/
theorem Nested.unwrap {s : Line} (h : Nested s) (hne : s ≠ []) :
    ∃ s', Text.unwrap (text s) = text s' ∧ Wraps s' s ∧ Nested s' ∧ s' ≠ [] := by
  induction hlen : s.length using Nat.strong_induction_on generalizing s with
  | _ length ih =>
    rw [Text.unwrap]
    split
    · rename_i inner hinside
      obtain ⟨l, rfl, rfl, hl, hlne⟩ := h.of_inside? hinside
      obtain ⟨s', htext, hwraps, hnested, hne'⟩ := ih l.length (by simp at hlen; omega) hl hlne rfl
      exact ⟨s', htext, .parentheses hwraps, hnested, hne'⟩
    · exact ⟨s, rfl, .refl, h, hne⟩

/-- Without parentheses there is nothing to take off. -/
theorem unwrap_of_not_mem {t : Text} (h : '(' ∉ t) : Text.unwrap t = t := by
  refine Text.unwrap_of_inside?_eq_none ?_
  cases t with
  | nil => rfl
  | cons c t =>
    rw [Text.inside?, if_neg]
    rintro ⟨rfl, -⟩
    exact h List.mem_cons_self

/-- No bracket closes right after another has opened. The flag tells whether one has opened right before the line. -/
def Proper : Bool → Line → Prop
  | _, [] => True
  | opened, m :: s => (opened = true → m ≠ .char ']') ∧ Proper (m = .char '[') s

/-- A nested line is proper whatever stands before it, if what follows is. -/
theorem Nested.proper_append {s : Line} (h : Nested s) (hne : s ≠ []) {rest : Line} (hrest : Proper false rest) (opened : Bool) :
    Proper opened (s ++ rest) := by
  have tail : ∀ {s : Line}, (s ≠ [] → ∀ {rest : Line}, Proper false rest → ∀ opened, Proper opened (s ++ rest)) →
      ∀ {rest : Line}, Proper false rest → Proper false (s ++ rest) := by
    intro s ih rest hrest
    by_cases hs : s = []
    · rw [hs]
      exact hrest
    · exact ih hs hrest false
  induction h generalizing rest opened with
  | nil => exact absurd rfl hne
  | @mark m s hm hs ih =>
    have hflag : (m = .char '[') = False := by
      rw [eq_iff_iff, iff_false]
      rintro rfl
      exact absurd (hm _ rfl) (by decide)
    refine ⟨fun _ => ?_, ?_⟩
    · rintro rfl
      exact absurd (hm _ rfl) (by decide)
    · simp only [hflag, decide_false]
      exact tail (fun hs _ hrest opened => ih hs hrest opened) hrest
  | @group opener closer inner s hpair hne' hinner hs ihinner ihs =>
    rw [List.cons_append, List.cons_append]
    have hopener : opener ≠ ']' := by
      rintro rfl
      unfold openerOf? at hpair
      split at hpair <;> simp at hpair
    have hcloser : closer ≠ '[' := by
      rintro rfl
      simp [openerOf?] at hpair
    refine ⟨fun _ heq => hopener (Mark.char.inj heq), ?_⟩
    rw [List.append_assoc]
    have hafter : Proper false (.char closer :: (s ++ rest)) := by
      refine ⟨by simp, ?_⟩
      simp only [Mark.char.injEq, hcloser, decide_false]
      exact tail (fun hs _ hrest opened => ihs hs hrest opened) hrest
    exact ihinner hne' hafter _

/-- A nested line is proper. -/
theorem Nested.proper {s : Line} (h : Nested s) : Proper false s := by
  by_cases hs : s = []
  · rw [hs]
    trivial
  · simpa using h.proper_append hs (show Proper false [] from trivial) false

end Line

end FormulaDag
