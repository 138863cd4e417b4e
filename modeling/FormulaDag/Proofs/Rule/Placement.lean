import FormulaDag.Proofs.Line
import FormulaDag.Proofs.Rule.Occurrence

/-!
# The places of occurrences

No occurrence of a rule begins inside a token. The rules that are written with a command or a name begin with a backslash or a
letter, which no token holds. A power would have to begin with the end of a token, and then a slash follows where its sign should
stand. A number is refused by its guard. So an occurrence in a line is a part of the line.
-/

namespace FormulaDag

namespace Line

/-- Where the text of a line is cut, the line is cut between two marks or inside of a token. -/
theorem cut_cases {s : Line} {u v : Text} (h : text s = u ++ v) :
    (∃ a b, s = a ++ b ∧ text a = u ∧ text b = v) ∨
      ∃ a k b x y, s = a ++ .ref k :: b ∧ u = text a ++ x ∧ v = y ++ text b ∧ Index.token k = x ++ y ∧ x ≠ [] ∧ y ≠ [] := by
  induction s generalizing u with
  | nil =>
    rw [text_nil, eq_comm, List.append_eq_nil_iff] at h
    exact .inl ⟨[], [], rfl, h.1.symm, h.2.symm⟩
  | cons m s ih =>
    rw [text_cons, List.append_eq_append_iff] at h
    rcases h with ⟨u', rfl, hs⟩ | ⟨y, hm, rfl⟩
    · rcases ih hs with ⟨a, b, rfl, rfl, rfl⟩ | ⟨a, k, b, x, y, rfl, rfl, rfl, htoken, hx, hy⟩
      · exact .inl ⟨m :: a, b, rfl, rfl, rfl⟩
      · exact .inr ⟨m :: a, k, b, x, y, rfl, by simp, rfl, htoken, hx, hy⟩
    · by_cases hu : u = []
      · subst hu
        exact .inl ⟨[], m :: s, rfl, rfl, by rw [text_cons, hm, List.nil_append]⟩
      · by_cases hy : y = []
        · subst hy
          exact .inl ⟨[m], s, rfl, by simp [hm], rfl⟩
        · cases m with
          | char c =>
            rw [Mark.text, List.singleton_eq_append_iff] at hm
            rcases hm with ⟨hu', -⟩ | ⟨-, hy'⟩
            · exact absurd hu' hu
            · exact absurd hy' hy
          | ref k => exact .inr ⟨[], k, s, u, y, rfl, rfl, rfl, hm, hu, hy⟩

/-- After the first sign of a token in a line a slash follows. -/
theorem Within.slash {n : Nat} {s : Line} (h : Within n s) {w rest : Text} (hw : '@' ∉ w) (heq : text s = w ++ '@' :: rest) :
    ∃ rest', rest = '/' :: rest' := by
  induction s generalizing w with
  | nil => simp at heq
  | cons m s ih =>
    cases m with
    | char c =>
      rw [text_cons, Mark.text, List.singleton_append] at heq
      cases w with
      | nil =>
        rw [List.nil_append, List.cons.injEq] at heq
        exact absurd (by simp [heq.1]) h.plain
      | cons d w =>
        rw [List.cons_append, List.cons.injEq] at heq
        exact ih (h.subset (List.subset_cons_self _ _)) (fun hmem => hw (List.mem_cons_of_mem _ hmem)) heq.2
    | ref k =>
      rw [text_cons, Mark.text, Index.token_eq] at heq
      cases w with
      | nil =>
        rw [List.nil_append, List.cons_append, List.cons.injEq, List.cons_append] at heq
        exact ⟨_, heq.2.symm⟩
      | cons d w =>
        simp only [List.cons_append, List.cons.injEq] at heq
        exact absurd (by simp [← heq.1]) hw

end Line

/-- The two parts of a token that is cut: what the first one ends with and what the second one is. -/
theorem Index.token_cut {k : Nat} {x y : Text} (h : token k = x ++ y) (hx : x ≠ []) (hy : y ≠ []) :
    (∃ c x', x = x' ++ [c] ∧ (c = '@' ∨ c = '/' ∨ c.isDigit = true)) ∧
      (y = ['@'] ∨ ∃ digits y', y = digits ++ '/' :: y' ∧ ∀ c ∈ digits, c.isDigit = true) := by
  have hchar : ∀ c ∈ token k, c = '@' ∨ c = '/' ∨ c.isDigit = true := by
    intro c hc
    simp only [token_eq, List.mem_cons, List.mem_append, List.not_mem_nil, or_false] at hc
    rcases hc with rfl | rfl | hc | rfl | rfl
    · exact .inl rfl
    · exact .inr (.inl rfl)
    · exact .inr (.inr (isDigit_of_mem_ofNat hc))
    · exact .inr (.inl rfl)
    · exact .inl rfl
  constructor
  · obtain ⟨x', c, rfl⟩ := (List.eq_nil_or_concat x).resolve_left hx
    exact ⟨c, x', by simp, hchar c (by simp [h])⟩
  · rw [token_eq] at h
    obtain ⟨d, x', rfl⟩ := List.exists_cons_of_ne_nil hx
    rw [List.cons_append, List.cons.injEq] at h
    cases x' with
    | nil => exact .inr ⟨[], _, h.2.symm, by simp⟩
    | cons e x' =>
      rw [List.cons_append, List.cons.injEq, List.append_eq_append_iff] at h
      rcases h.2.2 with ⟨w, -, hw⟩ | ⟨w, hdigits, rfl⟩
      · cases w with
        | nil => exact .inr ⟨[], _, hw.symm, by simp⟩
        | cons f w =>
          rw [List.cons_append, List.cons.injEq, List.singleton_eq_append_iff] at hw
          rcases hw.2 with ⟨-, hy'⟩ | ⟨-, hy'⟩
          · exact .inl hy'
          · exact absurd hy' hy
      · exact .inr ⟨w, ['@'], rfl, fun c hc => isDigit_of_mem_ofNat (by rw [hdigits]; simp [hc])⟩

/-- The second part of a token that is cut begins with neither a backslash nor a letter. -/
theorem Index.first_of_cut {k : Nat} {x y : Text} (h : token k = x ++ y) (hx : x ≠ []) (hy : y ≠ []) {t rest : Text} {c : Char}
    (heq : y ++ t = c :: rest) : (c == '\\' || c.isAlpha) = false := by
  rcases (token_cut h hx hy).2 with rfl | ⟨digits, y', rfl, hdigits⟩
  · rw [List.singleton_append, List.cons.injEq] at heq
    rw [← heq.1]
    decide
  · cases digits with
    | nil =>
      simp only [List.nil_append, List.cons_append, List.cons.injEq] at heq
      rw [← heq.1]
      decide
    | cons d digits =>
      simp only [List.cons_append, List.cons.injEq] at heq
      have hdigit := hdigits c (by simp [heq.1])
      rw [Text.not_isAlpha_of_isDigit hdigit, Bool.or_false, beq_eq_false_iff_ne]
      rintro rfl
      simp at hdigit

namespace Pattern

/-- A pattern that matches no empty text, and whose matches begin with certain characters. -/
def Begins (accepts : Char → Bool) (p : Pattern) : Prop :=
  ∀ t, ∀ h ∈ hits p t, ∃ c taken rest, t = c :: rest ∧ h.taken = c :: taken ∧ accepts c = true

section
variable {accepts : Char → Bool} {p q : Pattern}

theorem Begins.mono {accepts' : Char → Bool} (hp : p.Begins accepts) (h : ∀ c, accepts c = true → accepts' c = true) :
    p.Begins accepts' := by
  intro t k hk
  obtain ⟨c, taken, rest, ht, htaken, hc⟩ := hp t k hk
  exact ⟨c, taken, rest, ht, htaken, h c hc⟩

theorem Begins.nonempty (hp : p.Begins accepts) : ∀ t, ∀ h ∈ hits p t, h.taken ≠ [] := by
  intro t h hh
  obtain ⟨c, taken, rest, -, htaken, -⟩ := hp t h hh
  simp [htaken]

theorem Begins.literal {c : Char} {w : Text} (h : accepts c = true) : (Pattern.literal (c :: w)).Begins accepts := by
  intro t k hk
  obtain ⟨ht, htaken, -⟩ := mem_hits_literal hk
  exact ⟨c, w, w ++ k.rest, ht, htaken, h⟩

theorem Begins.oneOf : (Pattern.oneOf accepts).Begins accepts := by
  intro t k hk
  simp only [hits] at hk
  split at hk
  · rename_i c rest
    split at hk
    · rename_i hc
      rw [List.mem_singleton] at hk
      exact ⟨c, [], rest, rfl, by rw [hk], hc⟩
    · simp at hk
  · simp at hk

theorem Begins.run : (Pattern.run accepts).Begins accepts := by
  intro t k hk
  obtain ⟨ht, hne, -, -⟩ := mem_hits_run hk
  cases t with
  | nil => exact absurd (by rw [ht]; rfl) hne
  | cons c t =>
    by_cases hc : accepts c = true
    · exact ⟨c, t.takeWhile accepts, t, rfl, by rw [ht, List.takeWhile_cons_of_pos hc], hc⟩
    · rw [List.takeWhile_cons_of_neg hc] at ht
      exact absurd ht hne

theorem Begins.sequence (hp : p.Begins accepts) : (Pattern.sequence p q).Begins accepts := by
  intro t h hh
  obtain ⟨k, hk, l, -, rfl⟩ := mem_hits_sequence hh
  obtain ⟨c, taken, rest, rfl, htaken, hc⟩ := hp t k hk
  exact ⟨c, taken ++ l.taken, rest, rfl, by simp [htaken], hc⟩

/-- A part that may be absent before one that may not. -/
theorem Begins.optional_sequence (hp : p.Begins accepts) (hq : q.Begins accepts) :
    (Pattern.sequence (.optional p) q).Begins accepts := by
  intro t h hh
  obtain ⟨k, hk, l, hl, rfl⟩ := mem_hits_sequence hh
  simp only [hits, List.mem_append, List.mem_singleton] at hk
  rcases hk with hk | rfl
  · obtain ⟨c, taken, rest, rfl, htaken, hc⟩ := hp t k hk
    exact ⟨c, taken ++ l.taken, rest, rfl, by simp [htaken], hc⟩
  · obtain ⟨c, taken, rest, rfl, htaken, hc⟩ := hq t l hl
    exact ⟨c, taken, rest, rfl, by simp [htaken], hc⟩

theorem Begins.named {name : String} (hp : p.Begins accepts) : (Pattern.named name p).Begins accepts := by
  intro t h hh
  simp only [hits, List.mem_map] at hh
  obtain ⟨k, hk, rfl⟩ := hh
  exact hp t k hk

/-- There are no matches where the text begins otherwise. -/
theorem Begins.hits_eq_nil (hp : p.Begins accepts) {c : Char} (hc : accepts c = false) (rest : Text) : hits p (c :: rest) = [] := by
  refine List.eq_nil_iff_forall_not_mem.2 fun h hh => ?_
  obtain ⟨d, taken, rest', heq, -, hd⟩ := hp _ h hh
  rw [← (List.cons.inj heq).1, hc] at hd
  cases hd

theorem Begins.hits_nil (hp : p.Begins accepts) : hits p [] = [] := by
  refine List.eq_nil_iff_forall_not_mem.2 fun h hh => ?_
  obtain ⟨d, taken, rest, heq, -⟩ := hp _ h hh
  cases heq

/-- What begins with a backslash or a letter is not found inside of a token. -/
theorem Begins.not_hit (hp : p.Begins fun c => c == '\\' || c.isAlpha) {k : Nat} {x y t : Text} (htoken : Index.token k = x ++ y)
    (hx : x ≠ []) (hy : y ≠ []) : ∀ h, h ∉ hits p (y ++ t) := by
  intro h hh
  obtain ⟨c, taken, rest, heq, -, hc⟩ := hp _ h hh
  exact Bool.false_ne_true ((Index.first_of_cut htoken hx hy heq).symm.trans hc)

end

end Pattern

namespace Rule

/-- A rule that has no occurrence inside of a token, and whose occurrences are not empty. -/
structure Separate (r : Rule) : Prop where
  nonempty : ∀ t, ∀ h ∈ r.pattern.hits t, h.taken ≠ []
  outside : ∀ (n k : Nat) (x y : Text) (b : Line), b.Within n → Index.token k = x ++ y → x ≠ [] → y ≠ [] →
    ∀ behind, ∀ h ∈ r.pattern.hits (y ++ Line.text b), r.admits (x.reverse ++ behind) (y ++ Line.text b) = false

/-- What begins with a backslash or a letter is not inside of a token. -/
theorem Separate.of_begins {r : Rule} (h : r.pattern.Begins fun c => c == '\\' || c.isAlpha) : r.Separate where
  nonempty := h.nonempty
  outside := by
    intro n k x y b hb htoken hx hy behind hit hhit
    exfalso
    exact absurd hhit (h.not_hit htoken hx hy _)

/-- What is left of a cut token begins like this, whatever comes after it. -/
theorem rest_of_hit {n k : Nat} {x y : Text} {b : Line} (hb : b.Within n) (htoken : Index.token k = x ++ y) (hx : x ≠ [])
    (hy : y ≠ []) {h : Hit}
    (hh : h ∈ (Pattern.either Pattern.token (.either (.word "\\" ++ .anyWord ["pi", "Phi", "Omega"])
      (.either .numeral (.oneOf Char.isAlpha)))).hits (y ++ Line.text b)) : ∃ rest, h.rest = '/' :: rest := by
  have hcommand : (Pattern.word "\\" ++ .anyWord ["pi", "Phi", "Omega"]).Begins fun c => c == '\\' || c.isAlpha :=
    .sequence (.literal rfl)
  have hvariable : (Pattern.oneOf Char.isAlpha).Begins fun c => c == '\\' || c.isAlpha := .mono .oneOf fun c hc => by simp [hc]
  simp only [Pattern.hits, List.mem_append] at hh
  rcases hh with hh | hh | hh | hh
  · obtain ⟨digits, hsplit, -, -⟩ := Pattern.split?_of_mem_hits_token hh
    have heq := Token.split?_eq_some hsplit
    rcases (Index.token_cut htoken hx hy).2 with rfl | ⟨ds, y', rfl, hds⟩
    · rw [List.singleton_append, List.cons_append, List.cons.injEq] at heq
      refine hb.slash (w := '/' :: digits ++ ['/']) ?_ (by rw [heq.2]; simp)
      intro hmem
      simp only [List.cons_append, List.mem_cons, List.mem_append, List.not_mem_nil, or_false] at hmem
      rcases hmem with hmem | hmem | hmem
      · simp at hmem
      · have := (Token.digits_of_split? hsplit).2 _ hmem
        exact absurd this (by decide)
      · simp at hmem
    · cases ds with
      | nil => simp at heq
      | cons d ds =>
        simp only [List.cons_append, List.cons.injEq] at heq
        have := hds '@' (by simp [heq.1])
        simp at this
  · exact absurd hh (hcommand.not_hit htoken hx hy _)
  · obtain ⟨htaken, hne, hrest, -⟩ := Pattern.mem_hits_run hh
    rcases (Index.token_cut htoken hx hy).2 with rfl | ⟨ds, y', rfl, hds⟩
    · exact absurd (by rw [htaken]; rfl) hne
    · have hall : ∀ c ∈ ds, (c.isDigit || c == '.') = true := fun c hc => by simp [hds c hc]
      rw [List.append_assoc, List.dropWhile_append_of_pos hall] at hrest
      exact ⟨_, hrest⟩
  · exact absurd hh (hvariable.not_hit htoken hx hy _)

theorem Separate.power : power.Separate where
  nonempty := by
    intro t h hh
    obtain ⟨k, hk, l, hl, rfl⟩ := Pattern.mem_hits_sequence hh
    obtain ⟨m, -, o, ho, rfl⟩ := Pattern.mem_hits_sequence hk
    simp [(Pattern.mem_hits_literal ho).2.1]
  outside := by
    intro n k x y b hb htoken hx hy behind h hh
    exfalso
    obtain ⟨k', hk, l, -, rfl⟩ := Pattern.mem_hits_sequence hh
    obtain ⟨m, hm, o, ho, rfl⟩ := Pattern.mem_hits_sequence hk
    simp only [Pattern.hits, List.mem_map] at hm
    obtain ⟨m', hm', rfl⟩ := hm
    obtain ⟨rest, hrest⟩ := rest_of_hit hb htoken hx hy hm'
    have := (Pattern.mem_hits_literal ho).1
    simp only [hrest] at this
    simp at this

theorem Separate.number : number.Separate where
  nonempty := (Pattern.Begins.named .run).nonempty
  outside := by
    intro n k x y b hb htoken hx hy behind h hh
    obtain ⟨c, x', rfl, hc⟩ := (Index.token_cut htoken hx hy).1
    simp only [Rule.number, numberAdmits, List.reverse_append, List.reverse_singleton, List.cons_append,
      List.head?_cons, Option.any_some]
    rcases hc with rfl | rfl | hc <;> simp_all

/-- The rules that are written with a command begin with a backslash and may stand anywhere. -/
theorem begins_standard {r : Rule} (hr : r ∈ standard) :
    r = power ∨ r = number ∨ (r.pattern.Begins fun c => c == '\\' || c.isAlpha) ∧ r.admits = fun _ _ => true := by
  have hword : ∀ (w : Text) (q : Pattern), (Pattern.sequence (.literal ('\\' :: w)) q).Begins fun c => c == '\\' || c.isAlpha :=
    fun w q => .sequence (.literal rfl)
  simp only [standard, List.mem_cons, List.not_mem_nil, or_false] at hr
  rcases hr with rfl | rfl | rfl | rfl | rfl | rfl | rfl
  · exact .inr (.inr ⟨.sequence (hword _ _), rfl⟩)
  · exact .inr (.inr ⟨.sequence (hword _ _), rfl⟩)
  · exact .inr (.inr ⟨.sequence (.sequence (hword _ _)), rfl⟩)
  · exact .inr (.inr ⟨.sequence (hword _ _), rfl⟩)
  · exact .inr (.inr ⟨.sequence (hword _ _), rfl⟩)
  · exact .inl rfl
  · exact .inr (.inl rfl)

/-- No standard rule has an occurrence inside of a token. -/
theorem separate_standard : ∀ r ∈ standard, r.Separate := by
  intro r hr
  rcases begins_standard hr with rfl | rfl | ⟨hbegins, -⟩
  · exact .power
  · exact .number
  · exact .of_begins hbegins

end Rule

/-- The call of a function begins with a backslash or a letter. -/
theorem UserFunction.begins_rule (f : UserFunction) : f.rule.pattern.Begins fun c => c == '\\' || c.isAlpha := by
  obtain ⟨c, w, hname⟩ := List.exists_cons_of_ne_nil f.nonempty
  have hletter : c.isAlpha = true := List.all_eq_true.1 f.letters c (by simp [hname])
  refine .sequence (.optional_sequence (.literal rfl) ?_)
  rw [hname]
  exact .literal (by simp [hletter])

theorem UserFunction.separate_rule (f : UserFunction) : f.rule.Separate := .of_begins f.begins_rule

/-- No rule has an occurrence inside of a token. -/
theorem RuleSet.separate (s : RuleSet) : ∀ r ∈ s.rules, r.Separate := by
  intro r hr
  simp only [RuleSet.rules, List.mem_append, List.mem_map] at hr
  rcases hr with ⟨f, -, rfl⟩ | hr
  · exact f.separate_rule
  · exact Rule.separate_standard r hr

namespace Rule

/-- What a search finds in a line is a part of the line. -/
theorem search_line {r : Rule} (hr : r.pattern.IsAligned) (hsep : r.Separate) {n : Nat} {s : Line} (hs : s.Within n) {behind : Text}
    {h : Hit} (hsearch : r.search [] (Line.text s) = some (behind, h)) :
    ∃ a m b, s = a ++ m ++ b ∧ Line.text a = behind.reverse ∧ Line.text m = h.taken ∧ Line.text b = h.rest ∧ m ≠ [] := by
  obtain ⟨u, v, htext, hbehind, hfirst, hadmits⟩ := search_eq_some hsearch
  rw [List.append_nil] at hbehind
  have hhit := List.mem_of_mem_head? hfirst
  obtain ⟨hv, hwhole, -⟩ := hr.hit hhit
  rcases Line.cut_cases htext with ⟨a, mb, rfl, ha, hmb⟩ | ⟨a, k, b, x, y, rfl, rfl, rfl, htoken, hx, hy⟩
  · obtain ⟨m, b, rfl, hm, hb⟩ := (hs.subset (List.subset_append_right _ _)).cut (hmb.trans hv) (hwhole _)
    refine ⟨a, m, b, by simp, by rw [ha, hbehind, List.reverse_reverse], hm, hb, ?_⟩
    rintro rfl
    exact hsep.nonempty v h hhit hm.symm
  · have hrefused := hsep.outside n k x y b (hs.subset fun mark hmark => by simp [hmark]) htoken hx hy (Line.text a).reverse h hhit
    rw [hbehind, List.reverse_append, hrefused] at hadmits
    simp at hadmits

/-- The parts of a line that an occurrence divides it into. -/
theorem locate_line {r : Rule} (hr : r.pattern.IsAligned) (hsep : r.Separate) {id n : Nat} {s : Line} (hs : s.Within n)
    {l : Located} (hl : r.locate id (Line.text s) = .ok (some l)) :
    ∃ a m b, s = a ++ m ++ b ∧ Line.text a = l.before ∧ Line.text m = l.occurrence.text ∧ Line.text b = l.after ∧ m ≠ [] := by
  obtain ⟨behind, h, hsearch, ho, hbefore, hafter⟩ := locate_eq_ok hl
  obtain ⟨a, m, b, heq, ha, hm, hb, hne⟩ := search_line hr hsep hs hsearch
  exact ⟨a, m, b, heq, ha.trans hbefore.symm, hm.trans (occurrence_eq_ok ho).2.2.2.1.symm, hb.trans hafter.symm, hne⟩

end Rule

end FormulaDag
