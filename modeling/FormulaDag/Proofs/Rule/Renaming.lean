import FormulaDag.Proofs.Renaming
import FormulaDag.Proofs.Rule.Occurrence

/-!
# Rules do not see the numbers in tokens

In two texts that are renamed into each other, a rule occurs in the same places and reads related operands. Where pieces begin this is
seen pattern by pattern. A search also tries places inside of a token, whose digits differ between the two texts: `IsUniform` collects what
a rule must be like so that it passes over them.
-/

namespace FormulaDag

open Token (Renamed)

/-- Matches in two texts that take the same parts, apart from indices. -/
structure RenamedHit (ρ : Nat → Nat → Prop) (h h' : Hit) : Prop where
  taken : Renamed ρ h.taken h'.taken
  rest : Renamed ρ h.rest h'.rest
  parts : List.Forall₂ (fun e e' => e.1 = e'.1 ∧ Renamed ρ e.2 e'.2) h.parts h'.parts

/-- Related elements of two lists are elements of them. -/
theorem forall₂_mem {α β : Type} {R : α → β → Prop} {l : List α} {l' : List β} (h : List.Forall₂ R l l') :
    List.Forall₂ (fun a b => a ∈ l ∧ b ∈ l' ∧ R a b) l l' := by
  induction h with
  | nil => exact .nil
  | cons hab _ ih => exact .cons ⟨by simp, by simp, hab⟩ (ih.imp fun a b h => ⟨by simp [h.1], by simp [h.2.1], h.2.2⟩)

namespace Pattern

/-- The pattern of a token has no hit where no token begins. -/
theorem hits_token_of_split?_eq_none {t : Text} (h : Token.split? t = none) : hits token t = [] := by
  refine List.eq_nil_iff_forall_not_mem.2 fun k hk => ?_
  obtain ⟨digits, hs, -⟩ := split?_of_mem_hits_token hk
  rw [h] at hs
  cases hs

/-- Tokens of renamed indices are renamed. -/
theorem renamed_text {ρ : Nat → Nat → Prop} {digits digits' t t' u u' : Text} {i j : Nat} (h : Token.split? t = some (digits, u))
    (h' : Token.split? t' = some (digits', u')) (hread : Index.read? digits = some i) (hread' : Index.read? digits' = some j)
    (hij : ρ i j) : Renamed ρ (Piece.token digits).text (Piece.token digits').text := by
  have hsplit : ∀ {t digits u : Text}, Token.split? t = some (digits, u) →
      Token.split? (Piece.token digits).text = some (digits, []) := by
    intro t digits u h
    obtain ⟨hne, hd⟩ := Token.digits_of_split? h
    simpa [Piece.text] using Token.split?_digits hne hd []
  exact .token (hsplit h) (hsplit h') hread hread' hij .nil

/-- The hits of the pattern of a token are renamed along with the text. -/
theorem renamed_hits_token {ρ : Nat → Nat → Prop} {t t' : Text} (h : Renamed ρ t t') :
    List.Forall₂ (RenamedHit ρ) (hits token t) (hits token t') := by
  cases h with
  | nil => exact .nil
  | plain hs hs' =>
    rw [hits_token_of_split?_eq_none hs, hits_token_of_split?_eq_none hs']
    exact .nil
  | token hs hs' hread hread' hij rest =>
    rw [hits_token_of_split? hs, hits_token_of_split? hs']
    exact .cons ⟨renamed_text hs hs' hread hread' hij, rest, .nil⟩ .nil

/-- A literal that does not begin a text does not begin a renamed one. -/
theorem isPrefixOf?_eq_none_of_renamed {ρ : Nat → Nat → Prop} {w t t' : Text} (hw : '@' ∉ w) (h : Renamed ρ t t')
    (hnone : w.isPrefixOf? t = none) : w.isPrefixOf? t' = none := by
  by_contra hsome
  obtain ⟨v', hv'⟩ := Option.ne_none_iff_exists'.1 hsome
  obtain ⟨v, rfl, -⟩ := Renamed.prefix hw (Text.isPrefixOf?_eq_some.1 hv' ▸ h.symm)
  rw [Text.isPrefixOf?_eq_some.2 rfl] at hnone
  cases hnone

/-- The hits of a literal are renamed along with the text. -/
theorem renamed_hits_literal {ρ : Nat → Nat → Prop} {w t t' : Text} (hw : '@' ∉ w) (h : Renamed ρ t t') :
    List.Forall₂ (RenamedHit ρ) (hits (literal w) t) (hits (literal w) t') := by
  cases hprefix : w.isPrefixOf? t with
  | none =>
    simp only [hits, hprefix, isPrefixOf?_eq_none_of_renamed hw h hprefix]
    exact .nil
  | some v =>
    obtain rfl := Text.isPrefixOf?_eq_some.1 hprefix
    obtain ⟨v', rfl, hv⟩ := Renamed.prefix hw h
    simp only [hits, hprefix, Text.isPrefixOf?_eq_some.2 rfl]
    exact .cons ⟨.of_not_mem hw, hv, .nil⟩ .nil

/-- The hits of a pattern of one character are renamed along with the text. -/
theorem renamed_hits_oneOf {ρ : Nat → Nat → Prop} {accepts : Char → Bool} {t t' : Text} (ha : accepts '@' = false)
    (h : Renamed ρ t t') : List.Forall₂ (RenamedHit ρ) (hits (oneOf accepts) t) (hits (oneOf accepts) t') := by
  cases h with
  | nil => exact .nil
  | @plain c u u' hs hs' rest =>
    simp only [hits]
    split
    · rename_i hc
      have hne : '@' ∉ [c] := by
        rw [List.mem_singleton]
        rintro rfl
        rw [ha] at hc
        cases hc
      exact .cons ⟨.of_not_mem hne, rest, .nil⟩ .nil
    · exact .nil
  | token hs hs' =>
    obtain ⟨w, rfl⟩ := Token.exists_cons_of_split? hs
    obtain ⟨w', rfl⟩ := Token.exists_cons_of_split? hs'
    simp only [hits, ha]
    exact .nil

/-- The hits of a run are renamed along with the text. -/
theorem renamed_hits_run {ρ : Nat → Nat → Prop} {accepts : Char → Bool} {t t' : Text} (ha : accepts '@' = false)
    (h : Renamed ρ t t') : List.Forall₂ (RenamedHit ρ) (hits (run accepts) t) (hits (run accepts) t') := by
  obtain ⟨htake, hdrop⟩ := h.run ha
  simp only [hits, htake]
  split
  · exact .nil
  · rename_i c cs hcs
    refine .cons ⟨.of_not_mem fun hmem => ?_, hdrop, .nil⟩ .nil
    rw [← hcs] at hmem
    have := List.all_eq_true.1 List.all_takeWhile _ hmem
    rw [ha] at this
    cases this

/-- An aligned pattern matches in the same ways. -/
theorem IsAligned.renamed {ρ : Nat → Nat → Prop} {p : Pattern} (hp : p.IsAligned) {t t' : Text} (h : Renamed ρ t t') :
    List.Forall₂ (RenamedHit ρ) (hits p t) (hits p t') := by
  induction hp generalizing t t' with
  | token => exact renamed_hits_token h
  | literal hw => exact renamed_hits_literal hw h
  | oneOf ha => exact renamed_hits_oneOf ha h
  | run ha => exact renamed_hits_run ha h
  | sequence hp hq ihp ihq =>
    refine List.rel_flatMap (forall₂_mem (ihp h)) ?_
    rintro k k' ⟨hk, hk', hrenamed⟩
    obtain ⟨-, hwhole, -⟩ := hp.hit hk
    obtain ⟨-, hwhole', -⟩ := hp.hit hk'
    exact List.rel_map (fun l l' hl => ⟨hrenamed.taken.append hwhole hwhole' hl.taken, hl.rest,
      List.rel_append hrenamed.parts hl.parts⟩) (ihq hrenamed.rest)
  | either hp hq ihp ihq => exact List.rel_append (ihp h) (ihq h)
  | optional hp ih => exact List.rel_append (ih h) (.cons ⟨.nil, h, .nil⟩ .nil)
  | named hp ih =>
    exact List.rel_map (fun k k' hk => ⟨hk.taken, hk.rest, .cons ⟨rfl, hk.taken⟩ hk.parts⟩) (ih h)

end Pattern

/-- Operands that are the same number or related indices, or both neither. -/
inductive RenamedOperand (ρ : Nat → Nat → Prop) : Operand → Operand → Prop where
  | literal (x : Float) : RenamedOperand ρ (.literal x) (.literal x)
  | index {i j : Nat} (h : ρ i j) : RenamedOperand ρ (.index i) (.index j)
  | raw (t t' : Text) : RenamedOperand ρ (.raw t) (.raw t')

/-- Occurrences of one rule with the same function name and related operands. -/
structure RenamedOccurrence (R : Operand → Operand → Prop) (o o' : Occurrence) : Prop where
  rule : o.rule = o'.rule
  selector : o.selector = o'.selector
  operands : List.Forall₂ (Option.Rel R) o.operands o'.operands

section
variable {ρ : Nat → Nat → Prop} {T : Text → Text → Prop} {R : Operand → Operand → Prop}

/-- A renamed text has tokens when the text does. -/
theorem Token.Renamed.at_mem {t t' : Text} (h : Renamed ρ t t') (hmem : '@' ∈ t) : '@' ∈ t' := by
  by_contra hnot
  rw [Renamed.eq_of_not_mem hnot h.symm] at hmem
  exact hnot hmem

/-- A text with the mark of tokens is no literal. -/
theorem Slot.literal?_eq_none {t : Text} (h : '@' ∈ t) : Slot.literal? t = none := by
  have hdigits : ¬ (t ≠ [] ∧ t.all (fun c => c.isDigit || c == '.') = true) := by
    rintro ⟨-, hall⟩
    have := List.all_eq_true.1 hall '@' h
    exact absurd this (by decide)
  have hchoices : Symbol.choices? t = none := by
    rw [Symbol.choices?, Option.map_eq_none_iff, List.find?_eq_none]
    intro entry hentry heq
    have hfree : ∀ entry ∈ Symbol.table, '@' ∉ entry.1.toList := by decide
    rw [beq_iff_eq] at heq
    exact hfree entry hentry (heq ▸ h)
  rw [Slot.literal?, if_neg hdigits, Symbol.constant?, hchoices]

/-- Renaming does not change which literal a text is. -/
theorem Token.Renamed.literal?_eq {t t' : Text} (h : Renamed ρ t t') : Slot.literal? t' = Slot.literal? t := by
  by_cases hmem : '@' ∈ t
  · rw [Slot.literal?_eq_none hmem, Slot.literal?_eq_none (h.at_mem hmem)]
  · rw [h.eq_of_not_mem hmem]

/-- A slot reads related operands, or refuses both. -/
theorem Slot.read_renamed (slot : Slot) {t t' : Text} (h : Renamed ρ t t') :
    Alike (RenamedOperand ρ) (slot.read t) (slot.read t') := by
  rw [Slot.read, Slot.read, h.literal?_eq]
  have hindex : Option.Rel ρ (if slot.takesIndex then Token.only? t else none) (if slot.takesIndex then Token.only? t' else none) := by
    split
    · exact h.only?
    · exact .none
  cases Slot.literal? t with
  | some value => exact .ok (.literal value)
  | none =>
    simp only
    rcases rel_cases hindex with ⟨hnone, hnone'⟩ | ⟨i, j, hi, hj, hij⟩
    · rw [hnone, hnone']
      simp only
      split
      · exact .ok (.raw t t')
      · exact .error _ _
    · rw [hi, hj]
      exact .ok (.index hij)

/-- Parts of the same names are found under the same names. -/
theorem lookup_parts {parts parts' : List (String × Text)} (h : List.Forall₂ (fun e e' => e.1 = e'.1 ∧ T e.2 e'.2) parts parts')
    (name : String) : Option.Rel T (parts.lookup name) (parts'.lookup name) := by
  induction h with
  | nil => exact .none
  | @cons e e' _ _ he _ ih =>
    obtain ⟨heq, ht⟩ := he
    rw [List.lookup_cons, List.lookup_cons, ← heq]
    split
    · exact .some ht
    · exact ih

/-- Operands are read alike from alike parts. -/
theorem Slot.operand_alike {slot : Slot} (hread : ∀ t t', T t t' → Alike R (slot.read t) (slot.read t'))
    (hliteral : ∀ x, R (.literal x) (.literal x)) {parts parts' : List (String × Text)}
    (h : List.Forall₂ (fun e e' => e.1 = e'.1 ∧ T e.2 e'.2) parts parts') (rule : String) :
    Alike (Option.Rel R) (Slot.operand rule parts slot) (Slot.operand rule parts' slot) := by
  rw [Slot.operand, Slot.operand]
  rcases rel_cases (lookup_parts h slot.name) with ⟨hnone, hnone'⟩ | ⟨t, t', ht, ht', hrel⟩
  · rw [hnone, hnone']
    simp only
    split
    · exact .error _ _
    · refine .ok ?_
      cases slot.absent with
      | none => exact .none
      | some x => exact .some (hliteral x)
  · rw [ht, ht']
    exact (hread _ _ hrel).map fun _ _ hoperands => .some hoperands

/-- Selectors are read alike from alike parts. -/
theorem Selector.read_alike {s : Selector} (hselected : ∀ t t', T t t' → ∀ choice ∈ s.choices, choice.toList = t ↔ choice.toList = t')
    {parts parts' : List (String × Text)} (h : List.Forall₂ (fun e e' => e.1 = e'.1 ∧ T e.2 e'.2) parts parts') :
    Alike Eq (s.read parts) (s.read parts') := by
  have hfind : (s.choices.find? fun choice => choice.toList == (parts.lookup s.group).getD []) =
      s.choices.find? fun choice => choice.toList == (parts'.lookup s.group).getD [] := by
    refine List.find?_congr fun choice hchoice => ?_
    rcases rel_cases (lookup_parts h s.group) with ⟨hnone, hnone'⟩ | ⟨t, t', ht, ht', hrel⟩
    · rw [hnone, hnone']
    · simp [ht, ht', hselected _ _ hrel choice hchoice]
  rw [Selector.read, Selector.read]
  simp only [hfind]
  split
  · exact .ok rfl
  · exact .error _ _

/-- Parts that every slot reads alike give occurrences that are alike, wherever they are. -/
theorem Rule.occurrence_alike {r : Rule} (hread : ∀ (slot : Slot) t t', T t t' → Alike R (slot.read t) (slot.read t'))
    (hliteral : ∀ x, R (.literal x) (.literal x))
    (hselected : ∀ s, r.selector = some s → ∀ t t', T t t' → ∀ choice ∈ s.choices, choice.toList = t ↔ choice.toList = t')
    {h h' : Hit} (hparts : List.Forall₂ (fun e e' => e.1 = e'.1 ∧ T e.2 e'.2) h.parts h'.parts) (id : Nat) (behind behind' : Text) :
    Alike (RenamedOccurrence R) (r.occurrence id behind h) (r.occurrence id behind' h') := by
  have hname : Alike Eq (r.selected h) (r.selected h') := by
    rw [selected, selected]
    cases hs : r.selector with
    | none => exact .ok rfl
    | some s => exact (Selector.read_alike (hselected s hs) hparts).map fun _ _ => congrArg some
  rw [occurrence_eq, occurrence_eq]
  generalize r.selected h = name at hname
  generalize r.selected h' = name' at hname
  cases hname with
  | error => exact .error _ _
  | ok heq =>
    have hoperands : List.Forall₂ (fun slot slot' => slot = slot') r.slots r.slots := List.forall₂_refl _
    refine (Alike.mapM hoperands fun slot slot' hslot => ?_).map fun _ _ hrel => ⟨rfl, heq, hrel⟩
    exact hslot ▸ Slot.operand_alike (hread slot) hliteral hparts r.name

end

/-- Two texts, read backwards, that are the same up to the nearest end of a token. -/
inductive SameNear : Text → Text → Prop where
  | nil : SameNear [] []
  | cons (c : Char) {b b' : Text} (h : SameNear b b') : SameNear (c :: b) (c :: b')
  | token (b b' : Text) : SameNear ('@' :: b) ('@' :: b')

/-- Texts that are the same near a place have the same first character there. -/
theorem SameNear.head? {b b' : Text} (h : SameNear b b') : b.head? = b'.head? := by
  cases h <;> rfl

/-- Whether a place is inside a command word is told by what is near it. -/
theorem SameNear.isInside {b b' : Text} (h : SameNear b b') : Command.isInside b = Command.isInside b' := by
  induction h with
  | nil => rfl
  | cons c _ ih =>
    rw [Command.isInside, Command.isInside, List.dropWhile_cons, List.dropWhile_cons] at *
    cases c.isAlpha with
    | true => exact ih
    | false => rfl
  | token => rfl

/-- Two texts that are the same or differ in indices only. -/
def Similar (ρ : Nat → Nat → Prop) (t t' : Text) : Prop := t = t' ∨ Renamed ρ t t'

/-- Matches with the same parts, apart from indices. -/
def SimilarParts (ρ : Nat → Nat → Prop) (h h' : Hit) : Prop :=
  List.Forall₂ (fun e e' => e.1 = e'.1 ∧ Similar ρ e.2 e'.2) h.parts h'.parts

namespace Rule

/-- The match at a place, if the pattern has one there and the guard agrees. -/
def hitAt (r : Rule) (behind t : Text) : Option Hit := (r.pattern.first? t).filter fun _ => r.admits behind t

/-- A rule has no hit where its pattern has no first one. -/
theorem hitAt_of_first? {r : Rule} {t : Text} (hfirst : r.pattern.first? t = none) (behind : Text) : r.hitAt behind t = none := by
  rw [hitAt, hfirst]
  rfl

/-- A rule has no hit where its pattern has none. -/
theorem hitAt_of_hits {r : Rule} {t : Text} (hhits : r.pattern.hits t = []) (behind : Text) : r.hitAt behind t = none :=
  hitAt_of_first? (by rw [Pattern.first?, hhits, List.head?_nil]) behind

/-- A search ends at once where the rule has a hit. -/
theorem search_of_hitAt {r : Rule} {behind t : Text} {h : Hit} (hh : r.hitAt behind t = some h) :
    r.search behind t = some (behind, h) := by
  obtain ⟨hfirst, hadmits⟩ := Option.filter_eq_some_iff.1 hh
  cases t with
  | nil => simp only [search, hfirst, hadmits, if_true]
  | cons c rest => simp only [search, hfirst, hadmits, if_true]

/-- A search at the end of a text finds nothing if the rule has no hit there. -/
theorem search_nil_of_hitAt {r : Rule} {behind : Text} (hh : r.hitAt behind [] = none) : r.search behind [] = none := by
  rw [search]
  split
  · rename_i h hfirst
    rw [hitAt, hfirst, Option.filter_eq_none_iff] at hh
    rw [if_neg (hh h rfl)]
  · rfl

/-- A search goes on behind a character where the rule has no hit. -/
theorem search_cons_of_hitAt {r : Rule} {behind rest : Text} {c : Char} (hh : r.hitAt behind (c :: rest) = none) :
    r.search behind (c :: rest) = r.search (c :: behind) rest := by
  rw [search]
  split
  · rename_i h hfirst
    rw [hitAt, hfirst, Option.filter_eq_none_iff] at hh
    rw [if_neg (hh h rfl)]
  · rfl

/-- A search passes over places that do not do. -/
theorem search_passed {r : Rule} {behind w v : Text}
    (hw : ∀ x y, w = x ++ y → y ≠ [] → r.hitAt (x.reverse ++ behind) (y ++ v) = none) :
    r.search behind (w ++ v) = r.search (w.reverse ++ behind) v := by
  induction w generalizing behind with
  | nil => rfl
  | cons c w ih =>
    have hhere : r.hitAt behind (c :: (w ++ v)) = none := hw [] (c :: w) rfl (List.cons_ne_nil _ _)
    rw [List.cons_append, search_cons_of_hitAt hhere, ih]
    · rw [List.reverse_cons, List.append_assoc, List.singleton_append]
    · rintro x y rfl hy
      simpa using hw (c :: x) y rfl hy

/-- A rule that sees nothing of a token but its place. Its pattern reads tokens whole and its guard looks at nothing further away than the
nearest token; it matches nowhere inside of a token; and where the last character of a token may begin something, it matches alike
whatever the token. -/
structure IsUniform (r : Rule) : Prop where
  aligned : r.pattern.IsAligned
  guarded : ∀ {behind behind' t t' : Text}, SameNear behind behind' → t.head? = t'.head? → r.admits behind t = r.admits behind' t'
  slash : ∀ behind rest, r.hitAt behind ('/' :: rest) = none
  digit : ∀ {behind digits : Text} {c : Char} (rest : Text), (behind.head?.any fun d => d == '/' || d.isDigit) = true →
    c.isDigit = true → (∀ d ∈ digits, d.isDigit = true) → r.hitAt behind (c :: (digits ++ '/' :: rest)) = none
  closing : ∀ {ρ : Nat → Nat → Prop} (behind behind' : Text) {u u' : Text}, Renamed ρ u u' →
    Option.Rel (SimilarParts ρ) (r.hitAt ('/' :: behind) ('@' :: u)) (r.hitAt ('/' :: behind') ('@' :: u'))
  choices : ∀ s, r.selector = some s → ∀ choice ∈ s.choices, '@' ∉ choice.toList

section
variable {r : Rule} {ρ : Nat → Nat → Prop}

/-- At the beginning of a piece a rule matches alike. -/
theorem IsUniform.hitAt_renamed (hr : r.IsUniform) {behind behind' t t' : Text} (hb : SameNear behind behind') (h : Renamed ρ t t') :
    Option.Rel (RenamedHit ρ) (r.hitAt behind t) (r.hitAt behind' t') := by
  have hfirst : Option.Rel (RenamedHit ρ) (r.pattern.first? t) (r.pattern.first? t') := by
    have hhits := hr.aligned.renamed h
    rw [Pattern.first?, Pattern.first?]
    generalize r.pattern.hits t = hits at hhits
    generalize r.pattern.hits t' = hits' at hhits
    cases hhits with
    | nil => exact .none
    | cons hhit => exact .some hhit
  rw [hitAt, hitAt, hr.guarded hb h.head?]
  rcases rel_cases hfirst with ⟨hnone, hnone'⟩ | ⟨hit, hit', hsome, hsome', hhit⟩
  · rw [hnone, hnone']
    exact .none
  · rw [hsome, hsome', Option.filter_some, Option.filter_some]
    split
    · exact .some hhit
    · exact .none

/-- A search passes over the digits of a token and the stroke behind them. -/
theorem IsUniform.search_digits (hr : r.IsUniform) {behind digits : Text} (rest : Text)
    (hb : (behind.head?.any fun d => d == '/' || d.isDigit) = true) (hd : ∀ d ∈ digits, d.isDigit = true) :
    r.search behind (digits ++ '/' :: rest) = r.search ('/' :: (digits.reverse ++ behind)) rest := by
  induction digits generalizing behind with
  | nil => exact search_cons_of_hitAt (hr.slash behind rest)
  | cons c digits ih =>
    obtain ⟨hc, hd⟩ := List.forall_mem_cons.1 hd
    rw [List.cons_append, search_cons_of_hitAt (hr.digit rest hb hc hd), ih (by simp [hc]) hd]
    simp

/-- A search that does not end where a token begins passes over it up to its last character. -/
theorem IsUniform.search_token (hr : r.IsUniform) {behind t digits u : Text} {i : Nat} (hh : r.hitAt behind t = none)
    (hs : Token.split? t = some (digits, u)) (hread : Index.read? digits = some i) :
    r.search behind t = r.search ('/' :: (digits.reverse ++ '/' :: '@' :: behind)) ('@' :: u) := by
  have ht : t = '@' :: '/' :: (digits ++ '/' :: '@' :: u) := by simpa using Token.split?_eq_some hs
  subst ht
  rw [search_cons_of_hitAt hh, search_cons_of_hitAt (hr.slash _ _), hr.search_digits _ (by simp) (Token.isDigit_of_split? hs hread)]

/-- The name of a function is the same in parts that differ in indices only. -/
theorem IsUniform.selected_iff (hr : r.IsUniform) {s : Selector} (hs : r.selector = some s) {t t' : Text} (ht : Renamed ρ t t')
    {choice : String} (hchoice : choice ∈ s.choices) : choice.toList = t ↔ choice.toList = t' := by
  have hfree := hr.choices s hs choice hchoice
  constructor
  · rintro rfl
    exact (ht.eq_of_not_mem hfree).symm
  · rintro rfl
    exact (ht.symm.eq_of_not_mem hfree).symm

/-- Matches that differ in indices only are read alike. -/
theorem IsUniform.occurrence_renamed (hr : r.IsUniform) {h h' : Hit} (hh : RenamedHit ρ h h') (id : Nat) (behind behind' : Text) :
    Alike (RenamedOccurrence (RenamedOperand ρ)) (r.occurrence id behind h) (r.occurrence id behind' h') :=
  occurrence_alike (fun slot _ _ ht => slot.read_renamed ht) .literal (fun _ hs _ _ ht _ hchoice => hr.selected_iff hs ht hchoice)
    hh.parts id _ _

/-- A uniform rule reads similar parts alike. -/
theorem IsUniform.occurrence_similar (hr : r.IsUniform) {h h' : Hit} (hh : SimilarParts ρ h h') (id : Nat) (behind behind' : Text) :
    Alike (fun _ _ => True) (r.occurrence id behind h) (r.occurrence id behind' h') := by
  have hsimilar : Alike (RenamedOccurrence fun _ _ => True) (r.occurrence id behind h) (r.occurrence id behind' h') := by
    refine occurrence_alike (fun slot t t' ht => ?_) (fun _ => trivial) (fun s hs t t' ht choice hchoice => ?_) hh id _ _
    · rcases ht with rfl | ht
      · exact .refl _ fun _ => trivial
      · exact (slot.read_renamed ht).mono fun _ _ _ => trivial
    · rcases ht with rfl | ht
      · rfl
      · exact hr.selected_iff hs ht hchoice
  exact hsimilar.mono fun _ _ _ => trivial

/-- Searches that end alike: with nothing, or with matches that are read alike. -/
def SearchedAlike (r : Rule) (id : Nat) : Option (Text × Hit) → Option (Text × Hit) → Prop :=
  Option.Rel fun x x' => Alike (fun _ _ => True) (r.occurrence id x.1 x.2) (r.occurrence id x'.1 x'.2)

/-- At the beginning of a piece searches end alike or go on. -/
theorem IsUniform.search_or_hitAt (hr : r.IsUniform) (id : Nat) {behind behind' t t' : Text} (hb : SameNear behind behind')
    (h : Renamed ρ t t') : SearchedAlike r id (r.search behind t) (r.search behind' t') ∨
      r.hitAt behind t = none ∧ r.hitAt behind' t' = none := by
  rcases rel_cases (hr.hitAt_renamed hb h) with hnone | ⟨hit, hit', hsome, hsome', hhit⟩
  · exact .inr hnone
  · rw [search_of_hitAt hsome, search_of_hitAt hsome']
    exact .inl (.some ((hr.occurrence_renamed hhit id _ _).mono fun _ _ _ => trivial))

/-- Searches in two texts that differ in indices only end alike. -/
theorem IsUniform.search_alike (hr : r.IsUniform) (id : Nat) {behind behind' t t' : Text} (hb : SameNear behind behind')
    (h : Renamed ρ t t') : SearchedAlike r id (r.search behind t) (r.search behind' t') := by
  induction h generalizing behind behind' with
  | nil =>
    rcases hr.search_or_hitAt id hb (show Renamed ρ [] [] from .nil) with hfound | ⟨hnone, hnone'⟩
    · exact hfound
    · rw [search_nil_of_hitAt hnone, search_nil_of_hitAt hnone']
      exact .none
  | @plain c u u' hs hs' rest ih =>
    rcases hr.search_or_hitAt id hb (.plain hs hs' rest) with hfound | ⟨hnone, hnone'⟩
    · exact hfound
    · rw [search_cons_of_hitAt hnone, search_cons_of_hitAt hnone']
      exact ih (.cons c hb)
  | @token t t' digits digits' u u' i j hs hs' hread hread' hij rest ih =>
    rcases hr.search_or_hitAt id hb (.token hs hs' hread hread' hij rest) with hfound | ⟨hnone, hnone'⟩
    · exact hfound
    · rw [hr.search_token hnone hs hread, hr.search_token hnone' hs' hread']
      -- the last character of the token may begin what looks like a token of its own
      rcases rel_cases (hr.closing (digits.reverse ++ '/' :: '@' :: behind) (digits'.reverse ++ '/' :: '@' :: behind') rest) with
        ⟨hnone, hnone'⟩ | ⟨hit, hit', hsome, hsome', hhit⟩
      · rw [search_cons_of_hitAt hnone, search_cons_of_hitAt hnone']
        exact ih (.token _ _)
      · rw [search_of_hitAt hsome, search_of_hitAt hsome']
        exact .some (hr.occurrence_similar hhit id _ _)

/-- The occurrence at the beginning of a text, if it takes up all of it; one that is found further on does not. -/
theorem findWhole_of_hitAt (hr : r.pattern.IsAligned) {t : Text} {h : Hit} (hh : r.hitAt [] t = some h) (id : Nat) :
    r.findWhole id t = (r.occurrence id [] h).map fun o => if h.rest = [] then some o else none := by
  obtain ⟨ht, -, -⟩ := hr.hit (List.mem_of_mem_head? (Option.filter_eq_some_iff.1 hh).1)
  rw [findWhole, find, locate, search_of_hitAt hh]
  simp only
  cases ho : r.occurrence id [] h with
  | error fault => rfl
  | ok o =>
    obtain ⟨-, hstart, hstop, -, -⟩ := occurrence_eq_ok ho
    have hwhole : o.isWhole t = true ↔ h.rest = [] := by
      rw [Occurrence.isWhole, Bool.and_eq_true, beq_iff_eq, beq_iff_eq, hstart, hstop, ht, Text.byteSize_append]
      constructor
      · rintro ⟨-, heq⟩
        exact Text.eq_nil_of_byteSize (by simpa using heq)
      · intro hnil
        simp [hnil]
    by_cases hnil : h.rest = []
    · simp [Except.map, hnil, hwhole.2 hnil]
    · simp [Except.map, hnil, Bool.eq_false_iff.2 (mt hwhole.1 hnil)]

/-- What a rule without a hit at the front finds whole is told by its search. -/
theorem findWhole_of_search {t : Text} (hh : r.hitAt [] t = none) (id : Nat) :
    r.findWhole id t = match r.search [] t with
      | none => .ok none
      | some (behind, h) => (r.occurrence id behind h).map fun _ => none := by
  rw [findWhole, find, locate]
  cases hs : r.search [] t with
  | none => rfl
  | some found =>
    obtain ⟨behind, h⟩ := found
    simp only
    cases ho : r.occurrence id behind h with
    | error fault => rfl
    | ok o =>
      obtain ⟨-, hstart, -, -, -⟩ := occurrence_eq_ok ho
      obtain ⟨u, v, rfl, rfl, hfirst, hadmits⟩ := search_eq_some hs
      have hne : o.isWhole (u ++ v) = false := by
        by_contra hwhole
        rw [Bool.not_eq_false, Occurrence.isWhole, Bool.and_eq_true, beq_iff_eq, hstart, Text.byteSize_append,
          Text.byteSize_reverse] at hwhole
        obtain rfl : u = [] := Text.eq_nil_of_byteSize (Nat.eq_zero_of_add_eq_zero_right hwhole.1)
        have : r.hitAt [] v = some h := Option.filter_eq_some_iff.2 ⟨hfirst, hadmits⟩
        exact absurd (hh.symm.trans this) (by simp)
      simp [Except.map, hne]

/-- In two texts that differ in indices only a rule describes the whole of both or of neither. -/
theorem IsUniform.findWhole_alike (hr : r.IsUniform) (id : Nat) {t t' : Text} (h : Renamed ρ t t') :
    Alike (Option.Rel (RenamedOccurrence (RenamedOperand ρ))) (r.findWhole id t) (r.findWhole id t') := by
  rcases rel_cases (hr.hitAt_renamed .nil h) with ⟨hnone, hnone'⟩ | ⟨hit, hit', hsome, hsome', hhit⟩
  · rw [findWhole_of_search hnone, findWhole_of_search hnone']
    rcases rel_cases (hr.search_alike id .nil h) with ⟨hnone, hnone'⟩ | ⟨x, x', hsome, hsome', hx⟩
    · rw [hnone, hnone']
      exact .ok .none
    · rw [hsome, hsome']
      exact hx.map fun _ _ _ => .none
  · rw [findWhole_of_hitAt hr.aligned hsome, findWhole_of_hitAt hr.aligned hsome']
    have hrest : hit.rest = [] ↔ hit'.rest = [] := by
      constructor
      · intro hnil
        exact (hnil ▸ hhit.rest).eq_of_not_mem (by simp)
      · intro hnil
        exact (hnil ▸ hhit.rest).symm.eq_of_not_mem (by simp)
    refine (hr.occurrence_renamed hhit id _ _).map fun o o' ho => ?_
    by_cases hnil : hit.rest = []
    · rw [if_pos hnil, if_pos (hrest.1 hnil)]
      exact .some ho
    · rw [if_neg hnil, if_neg (mt hrest.2 hnil)]
      exact .none

end

end Rule

end FormulaDag
