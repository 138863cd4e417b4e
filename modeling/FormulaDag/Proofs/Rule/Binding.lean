import FormulaDag.Proofs.Contexts.Bound
import FormulaDag.Proofs.Source.Words

/-!
# Rules and the binding of variables

Where a rule matches after variables were bound, and takes in no token that was put in for a letter but as its first mark, it matched before
as well: the pattern sees the same marks there, what follows can only stop a run earlier, and the guard looks at nothing that binding
changes. So a rule that rested before finds nothing new but with such a token behind its first mark.
-/

namespace FormulaDag

/-- Marks that are the same but for the number of an index. -/
inductive Mark.Kept : Mark → Mark → Prop where
  | char (c : Char) : Kept (char c) (char c)
  | ref (k k' : Nat) : Kept (ref k) (ref k')

/-- Marks that are kept, or a small letter and the token that takes its place. -/
inductive Mark.Turned : Mark → Mark → Prop where
  | kept {m m' : Mark} (h : Kept m m') : Turned m m'
  | letter {c : Char} (h : c.isLower = true) (k : Nat) : Turned (char c) (ref k)

/-- A list that is related to two others in a row consists of two in a row. -/
theorem exists_forall₂_append {α β : Type} {R : α → β → Prop} {l : List α} {l₁ l₂ : List β} (h : List.Forall₂ R l (l₁ ++ l₂)) :
    ∃ a b, List.Forall₂ R a l₁ ∧ List.Forall₂ R b l₂ ∧ l = a ++ b :=
  ⟨_, _, List.forall₂_take_append l l₁ l₂ h, List.forall₂_drop_append l l₁ l₂ h, (List.take_append_drop _ l).symm⟩

namespace Line
variable {m m' s s' : Line}

/-- A kept line without tokens is the same. -/
theorem eq_of_kept_of_plain (h : List.Forall₂ Mark.Kept m m') (hplain : '@' ∉ m'.text) : m = m' := by
  induction h with
  | nil => rfl
  | cons hx _ ih =>
    rw [text_cons, List.mem_append, not_or] at hplain
    rw [ih hplain.2]
    cases hx with
    | char c => rfl
    | ref k k' => exact absurd (by simp [Mark.text, Index.token_eq]) hplain.1

/-- What is kept is turned. -/
theorem turned_of_kept (h : List.Forall₂ Mark.Kept m m') : List.Forall₂ Mark.Turned m m' := h.imp fun _ _ => .kept

/-- Lines of kept marks differ in their indices only. -/
theorem renamed_of_kept {n n' : Nat} (h : List.Forall₂ Mark.Kept m m') (hw : m.Within n) (hw' : m'.Within n') (hn : n ≤ Index.bound)
    (hn' : n' ≤ Index.bound) : Token.Renamed (fun _ _ => True) m.text m'.text := by
  rw [Token.renamed_iff, hw.pieces_eq, hw'.pieces_eq, List.forall₂_map_left_iff, List.forall₂_map_right_iff]
  refine (forall₂_mem h).imp fun x x' hx => ?_
  obtain ⟨hmem, hmem', hx⟩ := hx
  cases hx with
  | char c => exact .plain c
  | ref k k' =>
    exact .token (Index.read?_ofNat ((hw.refs k hmem).trans_le hn)) (Index.read?_ofNat ((hw'.refs k' hmem').trans_le hn')) trivial

end Line

namespace Text
variable {c : Char}

theorem isAlpha_of_isLower (h : c.isLower = true) : c.isAlpha = true := by simp [Char.isAlpha, h]

theorem not_isDigit_of_isAlpha (h : c.isAlpha = true) : c.isDigit = false := by
  by_contra hdigit
  rw [not_isAlpha_of_isDigit (by simpa using hdigit)] at h
  cases h

theorem not_isDecimalDigit_of_isAlpha (h : c.isAlpha = true) : isDecimalDigit c = false := by
  have hrange : 65 ≤ c.toNat ∧ c.toNat ≤ 122 := by
    simp only [Char.isAlpha, Char.isUpper, Char.isLower, Bool.or_eq_true, Bool.and_eq_true, decide_eq_true_eq, UInt32.le_iff_toNat_le,
      ge_iff_le, Char.reduceVal, UInt32.reduceToNat] at h
    rw [← Char.toNat_val] at *
    omega
  have hzeros : ∀ first ∈ digitZeros, first = 48 ∨ 123 ≤ first := by decide
  rw [isDecimalDigit, not_isDigit_of_isAlpha h, Bool.false_or, List.any_eq_false]
  intro first hfirst
  have hzero := hzeros first hfirst
  simp only [Bool.and_eq_true, decide_eq_true_eq]
  omega

end Text

namespace Pattern

/-- Whether the runs of a pattern end where a character of a kind comes. -/
def Stops (kind : Char → Bool) : Pattern → Prop
  | literal _ => True
  | oneOf _ => True
  | run accepts => ∀ c, kind c = true → accepts c = false
  | sequence first second => first.Stops kind ∧ second.Stops kind
  | either first second => first.Stops kind ∧ second.Stops kind
  | optional inner => inner.Stops kind
  | named _ inner => inner.Stops kind

/-- A run that stops at lowercase letters and takes nothing behind bound letters takes nothing before either. -/
theorem takeWhile_eq_of_turned {accepts : Char → Bool} (hat : accepts '@' = false) (hstop : ∀ c, c.isLower = true → accepts c = false)
    {b b' : Line} (hb : List.Forall₂ Mark.Turned b b') (h : b'.text.takeWhile accepts = []) : b.text.takeWhile accepts = [] := by
  cases hb with
  | nil => rfl
  | @cons x x' b b' hx hb =>
    rw [Line.text_cons]
    cases hx with
    | kept hx =>
      cases hx with
      | char c =>
        rw [Line.text_cons] at h
        simp only [Mark.text, List.singleton_append, List.takeWhile_cons] at h ⊢
        split at h
        · cases h
        · rename_i hc
          rw [if_neg hc]
      | ref k k' => simp [Mark.text, Index.token_eq, hat]
    | letter hc k => simp [Mark.text, hstop _ hc]

section
variable {m m' b b' : Line} {n n' : Nat} {h' : Hit}

/-- A token that is kept was taken before. -/
theorem exists_hit_token (hm : List.Forall₂ Mark.Kept m m') (hw' : m'.Within n') {t' : Text} (hh : h' ∈ token.hits t')
    (htaken : h'.taken = m'.text) : ∃ h ∈ token.hits (Line.text (m ++ b)), h.taken = m.text := by
  obtain ⟨digits, hsplit, hdigits, -⟩ := split?_of_mem_hits_token hh
  have hpieces : m'.map Mark.piece = [.token digits] := by
    obtain ⟨hne, hd⟩ := Token.digits_of_split? hsplit
    have halone : Token.split? (Piece.token digits).text = some (digits, []) := by simpa [Piece.text] using Token.split?_digits hne hd []
    rw [← hw'.pieces_eq, ← htaken, hdigits, Token.pieces_of_split? halone, Token.pieces_nil]
  obtain ⟨x', rfl, hx'⟩ := List.map_eq_singleton_iff.1 hpieces
  obtain ⟨x, l, hx, hl, rfl⟩ := List.forall₂_cons_right_iff.1 hm
  obtain rfl := List.forall₂_nil_right_iff.1 hl
  cases hx with
  | char c => cases hx'
  | ref k k' =>
    have hsplit : Token.split? (Line.text ([.ref k] ++ b)) = some (Text.ofNat k, b.text) := Token.split?_token k b.text
    rw [hits_token_of_split? hsplit]
    exact ⟨_, List.mem_singleton_self _, by simp [Mark.text, Piece.text, Index.token_eq]⟩

/-- A literal that is kept was taken before. -/
theorem exists_hit_literal {w : Text} (hplain : '@' ∉ w) (hm : List.Forall₂ Mark.Kept m m') {t' : Text}
    (hh : h' ∈ (literal w).hits t') (htaken : h'.taken = m'.text) : ∃ h ∈ (literal w).hits (Line.text (m ++ b)), h.taken = m.text := by
  obtain ⟨-, hword, -⟩ := mem_hits_literal hh
  have hline : m'.text = w := htaken.symm.trans hword
  obtain rfl := Line.eq_of_kept_of_plain hm (hline ▸ hplain)
  have hprefix : w.isPrefixOf? (Line.text (m ++ b)) = some b.text := Text.isPrefixOf?_eq_some.2 (by rw [Line.text_append, hline])
  rw [hits, hprefix]
  exact ⟨_, List.mem_singleton_self _, hline.symm⟩

/-- A character that is kept was taken before. -/
theorem exists_hit_oneOf {accepts : Char → Bool} (hat : accepts '@' = false) (hm : List.Forall₂ Mark.Kept m m') {t' : Text}
    (hh : h' ∈ (oneOf accepts).hits t') (htaken : h'.taken = m'.text) :
    ∃ h ∈ (oneOf accepts).hits (Line.text (m ++ b)), h.taken = m.text := by
  obtain ⟨c, hc, hcase, -⟩ := mem_hits_oneOf hh
  have hline : m'.text = [c] := htaken.symm.trans hcase
  have hplain : '@' ∉ m'.text := by
    rw [hline, List.mem_singleton]
    rintro rfl
    rw [hat] at hc
    cases hc
  obtain rfl := Line.eq_of_kept_of_plain hm hplain
  rw [Line.text_append, hline, List.singleton_append, hits, if_pos hc]
  exact ⟨_, List.mem_singleton_self _, rfl⟩

/-- A run that is kept was taken before, when it stops at lowercase letters. -/
theorem exists_hit_run {accepts : Char → Bool} (hat : accepts '@' = false) (hstop : ∀ c, c.isLower = true → accepts c = false)
    (hm : List.Forall₂ Mark.Kept m m') (hb : List.Forall₂ Mark.Turned b b') (hh : h' ∈ (run accepts).hits (Line.text (m' ++ b')))
    (htaken : h'.taken = m'.text) : ∃ h ∈ (run accepts).hits (Line.text (m ++ b)), h.taken = m.text := by
  obtain ⟨htake, hne, -, -⟩ := mem_hits_run hh
  rw [htaken, Line.text_append] at htake
  have haccepted : ∀ c ∈ m'.text, accepts c = true := fun c hc => List.all_eq_true.1 List.all_takeWhile c (htake ▸ hc)
  have hplain : '@' ∉ m'.text := fun hmem => by
    have hrefused := haccepted _ hmem
    rw [hat] at hrefused
    cases hrefused
  obtain rfl := Line.eq_of_kept_of_plain hm hplain
  rw [List.takeWhile_append_of_pos haccepted, List.self_eq_append_right] at htake
  have hsame : (Line.text (m ++ b)).takeWhile accepts = m.text := by
    rw [Line.text_append, List.takeWhile_append_of_pos haccepted, takeWhile_eq_of_turned hat hstop hb htake, List.append_nil]
  obtain ⟨c, cs, hcons⟩ := List.exists_cons_of_ne_nil (htaken ▸ hne)
  rw [hits, hsame, hcons]
  exact ⟨_, List.mem_singleton_self _, rfl⟩

/-- A match in marks that were kept was there before, whatever letters were turned into tokens behind it. -/
theorem IsAligned.exists_hit_of_turned {p : Pattern} (hp : p.IsAligned) (hstop : p.Stops Char.isLower) (hw : Line.Within n (m ++ b))
    (hw' : Line.Within n' (m' ++ b')) (hm : List.Forall₂ Mark.Kept m m') (hb : List.Forall₂ Mark.Turned b b')
    (hh : h' ∈ p.hits (Line.text (m' ++ b'))) (htaken : h'.taken = m'.text) :
    ∃ h ∈ p.hits (Line.text (m ++ b)), h.taken = m.text := by
  induction hp generalizing m m' b b' h' with
  | token => exact exists_hit_token hm (hw'.subset (List.subset_append_left m' b')) hh htaken
  | literal hplain => exact exists_hit_literal hplain hm hh htaken
  | oneOf hat => exact exists_hit_oneOf hat hm hh htaken
  | run hat => exact exists_hit_run hat hstop hm hb hh htaken
  | @sequence p q hp hq ihp ihq =>
    obtain ⟨k', hk', l', hl', rfl⟩ := mem_hits_sequence hh
    obtain ⟨htext', hwhole, -⟩ := hp.hit hk'
    -- the marks are divided between the two parts
    obtain ⟨m₁', m₂', rfl, hm₁', hm₂'⟩ := (hw'.subset (List.subset_append_left m' b')).cut htaken.symm (hwhole _)
    obtain ⟨m₁, m₂, hm₁, hm₂, rfl⟩ := exists_forall₂_append hm
    rw [List.append_assoc] at hw hw' hk' htext'
    have hrest' : k'.rest = Line.text (m₂' ++ b') := by
      rw [Line.text_append, ← hm₁'] at htext'
      exact (List.append_cancel_left htext').symm
    obtain ⟨k, hk, hktaken⟩ := ihp hstop.1 hw hw' hm₁ (List.rel_append (Line.turned_of_kept hm₂) hb) hk' hm₁'.symm
    have hrest : k.rest = Line.text (m₂ ++ b) := by
      have htext := (hp.hit hk).1
      rw [Line.text_append, hktaken] at htext
      exact (List.append_cancel_left htext).symm
    obtain ⟨l, hl, hltaken⟩ := ihq hstop.2 (hw.subset (List.subset_append_right m₁ _)) (hw'.subset (List.subset_append_right m₁' _)) hm₂ hb
      (hrest' ▸ hl') hm₂'.symm
    refine ⟨⟨k.taken ++ l.taken, l.rest, k.parts ++ l.parts⟩, ?_, by rw [hktaken, hltaken, Line.text_append]⟩
    rw [hits, List.append_assoc, List.mem_flatMap]
    exact ⟨k, hk, List.mem_map.2 ⟨l, hrest ▸ hl, rfl⟩⟩
  | either hp hq ihp ihq =>
    rw [hits, List.mem_append] at hh
    rcases hh with hh | hh
    · obtain ⟨h, hmem, heq⟩ := ihp hstop.1 hw hw' hm hb hh htaken
      exact ⟨h, by rw [hits]; exact List.mem_append_left _ hmem, heq⟩
    · obtain ⟨h, hmem, heq⟩ := ihq hstop.2 hw hw' hm hb hh htaken
      exact ⟨h, by rw [hits]; exact List.mem_append_right _ hmem, heq⟩
  | optional hp ih =>
    rw [hits, List.mem_append, List.mem_singleton] at hh
    rcases hh with hh | rfl
    · obtain ⟨h, hmem, heq⟩ := ih hstop hw hw' hm hb hh htaken
      exact ⟨h, by rw [hits]; exact List.mem_append_left _ hmem, heq⟩
    · obtain rfl : m' = [] := by_contra fun hne => Line.text_ne_nil hne htaken.symm
      obtain rfl := List.forall₂_nil_right_iff.1 hm
      exact ⟨⟨[], Line.text ([] ++ b), []⟩, by rw [hits]; simp, rfl⟩
  | named hp ih =>
    obtain ⟨k', hk', rfl⟩ := List.mem_map.1 hh
    obtain ⟨k, hk, heq⟩ := ih hstop hw hw' hm hb hk' htaken
    exact ⟨_, List.mem_map.2 ⟨k, hk, rfl⟩, heq⟩

end

/-- A choice of words has no run that could go on. -/
theorem stops_anyWord (kind : Char → Bool) (words : List String) : (anyWord words).Stops kind := by
  fun_induction anyWord words with
  | case1 => trivial
  | case2 => trivial
  | case3 s more hmore ih => exact ⟨trivial, ih⟩

theorem stops_token : token.Stops Char.isLower := ⟨⟨trivial, fun _ hc => Text.not_isDecimalDigit_of_isAlpha (Text.isAlpha_of_isLower hc)⟩, trivial⟩

theorem stops_numeral : numeral.Stops Char.isLower := by
  intro c hc
  rw [Bool.or_eq_false_iff, beq_eq_false_iff_ne]
  refine ⟨Text.not_isDigit_of_isAlpha (Text.isAlpha_of_isLower hc), ?_⟩
  rintro rfl
  simp at hc

end Pattern

/-- Small letters end the runs of the standard rules. -/
theorem Rule.stops_standard : ∀ r ∈ standard, r.pattern.Stops Char.isLower := by
  intro r hr
  have htoken := Pattern.stops_token
  have hnumeral := Pattern.stops_numeral
  have hwords := Pattern.stops_anyWord Char.isLower
  simp only [standard, List.mem_cons, List.not_mem_nil, or_false] at hr
  rcases hr with rfl | rfl | rfl | rfl | rfl | rfl | rfl
  · exact ⟨⟨trivial, ⟨trivial, htoken⟩, trivial⟩, htoken⟩
  · exact ⟨⟨trivial, htoken⟩, htoken⟩
  · exact ⟨⟨⟨trivial, hwords _⟩, trivial, htoken, hnumeral⟩, htoken⟩
  · exact ⟨⟨trivial, hwords _⟩, htoken⟩
  · exact ⟨⟨trivial, hwords _⟩, htoken⟩
  · exact ⟨⟨⟨htoken, ⟨trivial, hwords _⟩, hnumeral, trivial⟩, trivial⟩, htoken, trivial⟩
  · exact hnumeral

/-- No rule of a rule set goes on into lowercase letters. -/
theorem RuleSet.stops (s : RuleSet) : ∀ r ∈ s.rules, r.pattern.Stops Char.isLower := by
  intro r hr
  rcases List.mem_append.1 hr with hr | hr
  · obtain ⟨f, -, rfl⟩ := List.mem_map.1 hr
    exact ⟨⟨trivial, trivial⟩, Pattern.stops_token⟩
  · exact Rule.stops_standard r hr

/-! ### Marks and what stands around them -/

/-- What may become of a mark, protected or not. -/
def Mark.Changes (letters : List Char) (stands : Char → Nat → Prop) (m m' : Mark) : Prop :=
  ∃ isProtected, Becomes letters stands (m, isProtected) m'

namespace Line.Becomes
variable {names : List Text} {letters : List Char} {stands : Char → Nat → Prop} {s a' t' : Line} {x' : Mark}

/-- What stood at the place of a mark, and whether it was protected. -/
theorem divide (h : Becomes names letters stands s (a' ++ x' :: t')) : ∃ a x t isProtected, s = a ++ x :: t ∧
    (flags names s)[a.length]? = some isProtected ∧ Mark.Becomes letters stands (x, isProtected) x' ∧
      List.Forall₂ (Mark.Changes letters stands) a a' ∧ List.Forall₂ (Mark.Changes letters stands) t t' := by
  obtain ⟨e, l, he, hl, heq⟩ := exists_forall₂_append h
  obtain ⟨⟨x, isProtected⟩, f, hx, hf, rfl⟩ := List.forall₂_cons_right_iff.1 hl
  refine ⟨e.map Prod.fst, x, f.map Prod.fst, isProtected, ?_, ?_, hx, ?_, ?_⟩
  · rw [← map_fst_marked names s, heq, List.map_append, List.map_cons]
  · rw [← map_snd_marked names s, heq, List.map_append, List.map_cons, List.length_map, ← List.length_map (f := Prod.snd)]
    simp
  · rw [List.forall₂_map_left_iff]
    exact he.imp fun e m hm => ⟨e.2, hm⟩
  · rw [List.forall₂_map_left_iff]
    exact hf.imp fun e m hm => ⟨e.2, hm⟩

/-- Whether a place is inside of a command word does not change. -/
theorem isInside (hlower : ∀ l ∈ letters, l.isLower = true) (h : Becomes names letters stands s (a' ++ t')) :
    ∃ a t, s = a ++ t ∧ a.length = a'.length ∧ Command.isInside a.text.reverse = Command.isInside a'.text.reverse := by
  induction a' using List.reverseRecOn generalizing t' with
  | nil => exact ⟨[], s, rfl, rfl, rfl⟩
  | append_singleton a' x' ih =>
    rw [List.append_assoc] at h
    obtain ⟨a, t, heq, hlength, hinside⟩ := ih h
    obtain ⟨a₁, x, t₁, isProtected, rfl, hflag, hx, ha₁, -⟩ := h.divide
    obtain ⟨rfl, rfl⟩ := List.append_inj heq (ha₁.length_eq.trans hlength.symm)
    refine ⟨a₁ ++ [x], t₁, by simp, by simp [hlength], ?_⟩
    rw [Line.isInside_concat, Line.isInside_concat]
    cases hx with
    | char hc => rw [hinside]
    | @letter c k hc hk =>
      have halpha : c.isAlpha = true := Text.isAlpha_of_isLower (hlower c hc)
      rw [Mark.shade, if_pos halpha, Line.isInside_of_unprotected halpha hflag]
      rfl
    | ref k k' => rfl

end Line.Becomes

/-- The nearest characters before a place after binding: the same as before, or the end of a token that took the place of a letter. -/
def Line.SameEnd (a a' : Line) : Prop :=
  a.text.reverse.head? = a'.text.reverse.head? ∨
    a'.text.reverse.head? = some '@' ∧ ∃ c, c.isLower = true ∧ a.text.reverse.head? = some c

/-- What is turned ends alike. -/
theorem Line.sameEnd_of_turned {a a' : Line} (h : List.Forall₂ Mark.Turned a a') : a.SameEnd a' := by
  rcases List.eq_nil_or_concat a' with rfl | ⟨a₁', x', rfl⟩
  · obtain rfl := List.forall₂_nil_right_iff.1 h
    exact .inl rfl
  · rw [List.concat_eq_append] at h ⊢
    obtain ⟨a₁, l, -, hl, rfl⟩ := exists_forall₂_append h
    obtain ⟨x, l', hx, hl', rfl⟩ := List.forall₂_cons_right_iff.1 hl
    obtain rfl := List.forall₂_nil_right_iff.1 hl'
    simp only [SameEnd, text_append, text_cons, text_nil, List.append_nil, List.reverse_append]
    cases hx with
    | kept hx =>
      cases hx with
      | char c => exact .inl rfl
      | ref k k' => exact .inl (by simp [Mark.text, Index.token_eq])
    | @letter c hc k => exact .inr ⟨by simp [Mark.text, Index.token_eq], c, hc, by simp [Mark.text]⟩

namespace Line.Becomes
variable {names : List Text} {letters : List Char} {stands : Char → Nat → Prop} {s s' a' t' : Line} {x' : Mark}

/-- Binding lowercase letters turns a line. -/
theorem turned_of_changes (hlower : ∀ l ∈ letters, l.isLower = true) (h : List.Forall₂ (Mark.Changes letters stands) s s') :
    List.Forall₂ Mark.Turned s s' := by
  refine h.imp fun m m' hm => ?_
  obtain ⟨isProtected, hm⟩ := hm
  cases hm with
  | char => exact .kept (.char _)
  | letter hc => exact .letter (hlower _ hc) _
  | ref k k' => exact .kept (.ref k k')

end Line.Becomes

/-- A rule allows a place for kept marks when it does so after binding. -/
theorem RuleSet.admits_of_kept (s : RuleSet) {r : Rule} (hr : r ∈ s.rules) {a a' : Line} {x x' : Mark} {u u' : Text}
    (hinside : Command.isInside a.text.reverse = Command.isInside a'.text.reverse) (hend : a.SameEnd a') (hx : Mark.Kept x x')
    (h : r.admits a'.text.reverse (x'.text ++ u') = true) : r.admits a.text.reverse (x.text ++ u) = true := by
  have hhead : (x.text ++ u).head? = (x'.text ++ u').head? := by
    cases hx with
    | char c => rfl
    | ref k k' => simp [Mark.text, Index.token_eq]
  rcases List.mem_append.1 hr with hr | hr
  · obtain ⟨f, -, rfl⟩ := List.mem_map.1 hr
    change (!Command.isInside a.text.reverse) = true
    rw [hinside]
    exact h
  · rcases Rule.begins_standard hr with rfl | rfl | ⟨-, hadmits⟩
    · change Rule.powerAdmits _ _ = true at h ⊢
      rw [Rule.powerAdmits, Bool.and_eq_true, bne_iff_ne] at h ⊢
      rw [hinside, hhead]
      refine ⟨?_, h.2⟩
      rcases hend with hend | ⟨-, c, hc, hend⟩
      · exact hend ▸ h.1
      · rw [hend]
        rintro ⟨⟩
        simp at hc
    · change Rule.numberAdmits _ (x'.text ++ u') = true at h
      change Rule.numberAdmits _ (x.text ++ u) = true
      rw [Rule.numberAdmits] at h ⊢
      rcases hend with hend | ⟨hend, -⟩
      · rw [hend]
        exact h
      · rw [hend] at h
        simp at h
    · rw [hadmits]

namespace Rule

/-- A rule has a hit where its pattern has one and its guard admits the place. -/
theorem hitAt_ne_none {r : Rule} {behind t : Text} {h : Hit} (hh : h ∈ r.pattern.hits t) (hadmits : r.admits behind t = true) :
    r.hitAt behind t ≠ none := by
  obtain ⟨k, l, hcons⟩ := List.exists_cons_of_ne_nil (List.ne_nil_of_mem hh)
  rw [hitAt, Pattern.first?, hcons]
  simp [hadmits]

/-- A power whose base is the token of a variable was one whose base is the letter. -/
theorem exists_power_of_letter {c : Char} {k n n' : Nat} {w w' b b' : Line} (hc : c.isAlpha = true) (hw : Line.Within n (w ++ b))
    (hw' : Line.Within n' (w' ++ b')) (hkept : List.Forall₂ Mark.Kept w w') (hb : List.Forall₂ Mark.Turned b b') {h' : Hit}
    (hh : h' ∈ power.pattern.hits (Line.text (.ref k :: (w' ++ b')))) (htaken : h'.taken = Line.text (.ref k :: w')) :
    ∃ h, h ∈ power.pattern.hits (Line.text (.char c :: (w ++ b))) := by
  have hsplit : Token.split? (Line.text (.ref k :: (w' ++ b'))) = some (Text.ofNat k, Line.text (w' ++ b')) := Token.split?_token _ _
  have hbase : powerBase.hits (Line.text (.ref k :: (w' ++ b'))) = [⟨(Piece.token (Text.ofNat k)).text, Line.text (w' ++ b'), []⟩] := by
    rw [← Pattern.hits_token_of_split? hsplit, Line.text_cons, Mark.text, Index.token_eq]
    exact hits_powerBase_at _
  rw [hits_power, hbase, List.flatMap_singleton] at hh
  obtain ⟨l', hl', rfl⟩ := List.mem_map.1 hh
  have hl'taken : l'.taken = w'.text := by
    rw [Line.text_cons] at htaken
    exact List.append_cancel_left (htaken.trans (by simp [Mark.text, Piece.text, Index.token_eq]))
  have hstops : powerTail.Stops Char.isLower := ⟨trivial, Pattern.stops_token, trivial⟩
  obtain ⟨l, hl, -⟩ := isAligned_powerTail.exists_hit_of_turned hstops hw hw' hkept hb hl' hl'taken
  have hletter : (⟨[c], Line.text (w ++ b), []⟩ : Hit) ∈ powerBase.hits (Line.text (.char c :: (w ++ b))) := by
    have hown : (⟨[c], Line.text (w ++ b), []⟩ : Hit) ∈ Pattern.hits (.oneOf Char.isAlpha) (Line.text (.char c :: (w ++ b))) := by
      simp [Mark.text, Pattern.hits, hc]
    simp only [powerBase, Pattern.hits, List.mem_append] at hown ⊢
    exact .inr (.inr (.inr hown))
  rw [hits_power]
  exact ⟨_, List.mem_flatMap.2 ⟨_, hletter, List.mem_map.2 ⟨l, hl, rfl⟩⟩⟩

end Rule

/-- Only a power begins with the token of an index. -/
theorem RuleSet.eq_power_of_token (s : RuleSet) {r : Rule} (hr : r ∈ s.rules) {k : Nat} {t : Text} {h : Hit}
    (hh : h ∈ r.pattern.hits (Index.token k ++ t)) : r = .power := by
  have hnot : ∀ {accepts : Char → Bool}, accepts '@' = false → ¬r.pattern.Begins accepts := by
    intro accepts hat hbegins
    rw [Index.token_eq, List.cons_append, hbegins.hits_eq_nil hat] at hh
    cases hh
  rcases List.mem_append.1 hr with hr | hr
  · obtain ⟨f, -, rfl⟩ := List.mem_map.1 hr
    exact absurd f.begins_rule (hnot rfl)
  · rcases Rule.begins_standard hr with rfl | rfl | ⟨hbegins, -⟩
    · rfl
    · exact absurd (Pattern.Begins.named .run) (hnot (by decide))
    · exact absurd hbegins (hnot rfl)

section
variable {S : RuleSet} {letters : List Char} {stands : Char → Nat → Prop} {r : Rule} {a w b a' w' b' : Line} {x x' : Mark} {n n' : Nat}

/-- What a rule matches after binding, it matched before where the marks behind the first one were kept. -/
theorem hitAt_ne_none_of_kept (hr : r ∈ S.rules) (hlower : ∀ l ∈ letters, l.isLower = true) (hw : Line.Within n (a ++ x :: (w ++ b)))
    (hw' : Line.Within n' (a' ++ x' :: (w' ++ b')))
    (h : Line.Becomes S.functionNames letters stands (a ++ x :: (w ++ b)) (a' ++ x' :: (w' ++ b'))) (hlength : a.length = a'.length)
    (hkept : List.Forall₂ Mark.Kept w w') {h' : Hit} (hh : r.hitAt a'.text.reverse (Line.text (x' :: (w' ++ b'))) = some h')
    (htaken : h'.taken = Line.text (x' :: w')) : r.hitAt a.text.reverse (Line.text (x :: (w ++ b))) ≠ none := by
  obtain ⟨hfirst, hadmits⟩ := Option.filter_eq_some_iff.1 hh
  have hmem := List.mem_of_mem_head? hfirst
  obtain ⟨a₀, t₀, heq₀, hlength₀, hinside⟩ := h.isInside hlower
  obtain ⟨a₁, x₁, t₁, isProtected, heq, hflag, hx, ha, ht⟩ := h.divide
  obtain ⟨rfl, -⟩ := List.append_inj heq₀ (hlength.trans hlength₀.symm)
  obtain ⟨rfl, hcons⟩ := List.append_inj heq (hlength.trans ha.length_eq.symm)
  obtain ⟨rfl, rfl⟩ := List.cons.inj hcons
  have hturned : List.Forall₂ Mark.Turned b b' := by
    obtain ⟨w₁, b₁, hw₁, hb₁, heq₁⟩ := exists_forall₂_append ht
    obtain ⟨-, rfl⟩ := List.append_inj heq₁ (hkept.length_eq.trans hw₁.length_eq.symm)
    exact Line.Becomes.turned_of_changes hlower hb₁
  have hend := Line.sameEnd_of_turned (Line.Becomes.turned_of_changes hlower ha)
  have hwt : Line.Within n (x :: (w ++ b)) := hw.subset (List.subset_append_right _ _)
  have hwt' : Line.Within n' (x' :: (w' ++ b')) := hw'.subset (List.subset_append_right _ _)
  have hsame : Mark.Kept x x' → r.hitAt a.text.reverse (Line.text (x :: (w ++ b))) ≠ none := by
    intro hx
    have hmarks : List.Forall₂ Mark.Kept (x :: w) (x' :: w') := .cons hx hkept
    rw [← List.cons_append] at hwt hwt' hmem
    obtain ⟨k, hk, -⟩ := (S.isAligned r hr).exists_hit_of_turned (S.stops r hr) hwt hwt' hmarks hturned hmem htaken
    exact Rule.hitAt_ne_none hk (S.admits_of_kept hr hinside hend hx hadmits)
  cases hx with
  | char => exact hsame (.char _)
  | ref k k' => exact hsame (.ref k k')
  | @letter c k hc hk =>
    obtain rfl := S.eq_power_of_token hr hmem
    have halpha : c.isAlpha = true := Text.isAlpha_of_isLower (hlower c hc)
    obtain ⟨h, hh⟩ := Rule.exists_power_of_letter halpha (hwt.subset (List.subset_cons_self _ _)) (hwt'.subset (List.subset_cons_self _ _))
      hkept hturned hmem htaken
    refine Rule.hitAt_ne_none hh ?_
    -- the letter is outside of command words, or it would have been protected
    have hplace := Line.isInside_of_unprotected halpha hflag
    change Rule.powerAdmits _ _ = true at hadmits ⊢
    rw [Rule.powerAdmits, Bool.and_eq_true, bne_iff_ne] at hadmits ⊢
    rw [hplace, Bool.and_false, Bool.not_false]
    refine ⟨?_, rfl⟩
    rcases hend with hend | ⟨-, d, hd, hend⟩
    · exact hend ▸ hadmits.1
    · rw [hend]
      rintro ⟨⟩
      simp at hd

end

end FormulaDag
