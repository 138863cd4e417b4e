import FormulaDag.Proofs.Source.Nesting

/-!
# What stays of a text without the parentheses around it

Parentheses pair up when each one that opens is closed by one behind it, with paired ones in between. Counting the open ones from left to
right decides that. A text has one core, which is left when all pairs around it are taken off; `unwrap` finds it. A text of two groups,
such as `(a)(b)`, is a core of its own: its first and its last parenthesis are no pair.
-/

namespace FormulaDag.Text

/-- A text whose parentheses pair up. -/
inductive Paired : Text → Prop where
  | nil : Paired []
  | plain {c : Char} {t : Text} (h : c ≠ '(') (h' : c ≠ ')') (ht : Paired t) : Paired (c :: t)
  | group {inner t : Text} (hinner : Paired inner) (ht : Paired t) : Paired ('(' :: (inner ++ ')' :: t))

/-- A text that closes a number of parentheses which are open before it, and whose other ones pair up. -/
inductive Closes : Nat → Text → Prop where
  | none {t : Text} (ht : Paired t) : Closes 0 t
  | one {depth : Nat} {u t : Text} (hu : Paired u) (ht : Closes depth t) : Closes (depth + 1) (u ++ ')' :: t)

/-- A text in a number of pairs of parentheses. -/
def wrap (k : Nat) (t : Text) : Text := List.replicate k '(' ++ t ++ List.replicate k ')'

/-- The text that is left when a number of pairs around a text are taken off, and no further one is there. Unless none is taken off, what
is left has paired parentheses, so the pairs do match each other. -/
structure IsCore (t : Text) (k : Nat) (core : Text) : Prop where
  text : t = wrap k core
  bare : ∀ u, Paired u → core ≠ wrap 1 u
  paired : 0 < k → Paired core

section
variable {t u v inner core core' : Text} {k k' depth : Nat} {c : Char}

/-! ### Paired parentheses -/

/-- Two paired texts in a row are paired. -/
theorem Paired.append (ht : Paired t) (hu : Paired u) : Paired (t ++ u) := by
  induction ht with
  | nil => exact hu
  | plain h h' _ ih => exact .plain h h' ih
  | group hinner _ _ ih =>
    rw [List.cons_append, List.append_assoc, List.cons_append]
    exact .group hinner ih

theorem Closes.prepend (hu : Paired u) (h : Closes depth t) : Closes depth (u ++ t) := by
  cases h with
  | none ht => exact .none (hu.append ht)
  | one hv ht =>
    rw [← List.append_assoc]
    exact .one (hu.append hv) ht

/-- A parenthesis that opens makes one more for the rest to close. -/
theorem Closes.opener (h : Closes (depth + 1) t) : Closes depth ('(' :: t) := by
  cases h with
  | @one _ u t hu ht =>
    have hgroup : Paired ('(' :: (u ++ ')' :: [])) := .group hu .nil
    simpa using ht.prepend hgroup

/-- Paired parentheses leave as many open as there were. -/
theorem Paired.balancedFrom (h : Paired t) (depth : Nat) (u : Text) : balancedFrom depth (t ++ u) = balancedFrom depth u := by
  induction h generalizing depth u with
  | nil => rfl
  | plain h h' _ ih => rw [List.cons_append, Line.balancedFrom_other h h', ih]
  | group _ _ ihinner ih =>
    rw [List.cons_append, List.append_assoc, List.cons_append, Line.balancedFrom_opener, ihinner, Line.balancedFrom_closer, ih]

/-- A text that is balanced from a depth closes as many parentheses. -/
theorem closes_of_balancedFrom (h : balancedFrom depth t = true) : Closes depth t := by
  induction t generalizing depth with
  | nil =>
    obtain rfl : depth = 0 := by simpa [balancedFrom] using h
    exact .none .nil
  | cons c t ih =>
    by_cases hopen : c = '('
    · subst hopen
      rw [Line.balancedFrom_opener] at h
      exact (ih h).opener
    · by_cases hclose : c = ')'
      · subst hclose
        cases depth with
        | zero => simp [balancedFrom] at h
        | succ depth =>
          rw [Line.balancedFrom_closer] at h
          exact .one .nil (ih h)
      · rw [Line.balancedFrom_other hopen hclose] at h
        exact (ih h).prepend (.plain hopen hclose .nil)

/-- Counting from left to right decides whether parentheses pair up. -/
theorem balanced_iff : balanced t = true ↔ Paired t := by
  constructor
  · intro h
    cases closes_of_balancedFrom h with
    | none ht => exact ht
  · intro h
    have := h.balancedFrom 0 []
    rw [List.append_nil] at this
    rw [balanced, this]
    rfl

/-- What closes a parenthesis that was open before it is not paired. -/
theorem Paired.not_append_closer (ht : Paired t) : ¬Paired (t ++ ')' :: u) := by
  intro h
  have hbalanced := balanced_iff.2 h
  rw [balanced, ht.balancedFrom] at hbalanced
  simp [Text.balancedFrom] at hbalanced

/-! ### Taking pairs off -/

theorem wrap_zero (t : Text) : wrap 0 t = t := by simp [wrap]

theorem wrap_succ (k : Nat) (t : Text) : wrap (k + 1) t = '(' :: (wrap k t ++ [')']) := by
  rw [wrap, List.replicate_succ, List.replicate_succ']
  simp [wrap]

theorem wrap_one (t : Text) : wrap 1 t = '(' :: (t ++ [')']) := by rw [wrap_succ, wrap_zero]

/-- A pair around wrapped parentheses is one more. -/
theorem wrap_wrap (k : Nat) (t : Text) : wrap 1 (wrap k t) = wrap (k + 1) t := by rw [wrap_one, wrap_succ]

/-- Every pair adds two characters. -/
theorem length_wrap (k : Nat) (t : Text) : (wrap k t).length = 2 * k + t.length := by
  simp only [wrap, List.length_append, List.length_replicate]
  omega

/-- A paired text stays paired in further pairs. -/
theorem Paired.wrap (h : Paired t) (k : Nat) : Paired (wrap k t) := by
  induction k with
  | zero => rwa [wrap_zero]
  | succ k ih =>
    rw [wrap_succ]
    exact .group ih .nil

/-- A pair is found around a text exactly when it is one: its first and its last character are parentheses, and those between them pair
up among themselves. -/
theorem inside?_eq_some_iff : inside? t = some inner ↔ t = Text.wrap 1 inner ∧ Paired inner := by
  rw [wrap_one]
  cases t with
  | nil => simp [inside?]
  | cons c rest =>
    rw [inside?, Option.ite_none_right_eq_some, Option.some.injEq]
    constructor
    · rintro ⟨⟨rfl, hlast, hbalanced⟩, rfl⟩
      exact ⟨by rw [List.dropLast_append_getLast? _ hlast], balanced_iff.1 hbalanced⟩
    · rintro ⟨heq, hinner⟩
      obtain ⟨rfl, rfl⟩ := List.cons.inj heq
      refine ⟨⟨rfl, List.getLast?_concat, ?_⟩, List.dropLast_concat⟩
      rw [List.dropLast_concat, balanced_iff.2 hinner]

/-- Around a bare text there is no pair. -/
theorem inside?_eq_none (h : ∀ u, Paired u → t ≠ Text.wrap 1 u) : inside? t = none := by
  cases hinside : inside? t with
  | none => rfl
  | some inner =>
    obtain ⟨heq, hinner⟩ := inside?_eq_some_iff.1 hinside
    exact absurd heq (h inner hinner)

/-- One more pair around a text leaves its core. -/
theorem IsCore.enclose (h : IsCore inner k core) (hinner : Paired inner) : IsCore (Text.wrap 1 inner) (k + 1) core where
  text := by rw [h.text, wrap_wrap]
  bare := h.bare
  paired := fun _ => by
    cases k with
    | zero => rwa [h.text, wrap_zero] at hinner
    | succ k => exact h.paired (Nat.succ_pos k)

/-- Taking off pairs as long as there are any leaves a core. -/
theorem exists_isCore_unwrap (t : Text) : ∃ k, IsCore t k (unwrap t) := by
  induction t using unwrap.induct with
  | case1 t inner hinside ih =>
    obtain ⟨k, hk⟩ := ih
    obtain ⟨rfl, hinner⟩ := inside?_eq_some_iff.1 hinside
    rw [unwrap_of_inside? hinside]
    exact ⟨k + 1, hk.enclose hinner⟩
  | case2 t hinside =>
    rw [unwrap_of_inside?_eq_none hinside]
    refine ⟨0, (wrap_zero t).symm, fun u hu heq => ?_, fun hk => absurd hk (Nat.lt_irrefl 0)⟩
    rw [inside?_eq_some_iff.2 ⟨heq, hu⟩] at hinside
    cases hinside

/-- No other core is left: each pair that belongs to the number of a core is found. -/
theorem IsCore.unwrap_eq (h : IsCore t k core) : unwrap t = core := by
  induction k generalizing t with
  | zero =>
    obtain rfl : t = core := by rw [h.text, wrap_zero]
    exact unwrap_of_inside?_eq_none (inside?_eq_none h.bare)
  | succ k ih =>
    have hcore := h.paired (Nat.succ_pos k)
    have hinside : inside? t = some (Text.wrap k core) :=
      inside?_eq_some_iff.2 ⟨by rw [h.text, wrap_wrap], hcore.wrap k⟩
    rw [unwrap_of_inside? hinside]
    exact ih ⟨rfl, h.bare, fun _ => hcore⟩

/-- A text has one core. -/
theorem IsCore.unique (h : IsCore t k core) (h' : IsCore t k' core') : k = k' ∧ core = core' := by
  have hcore : core = core' := by rw [← h.unwrap_eq, h'.unwrap_eq]
  have hlength := congrArg List.length h.text
  have hlength' := congrArg List.length h'.text
  rw [length_wrap] at hlength hlength'
  rw [← hcore] at hlength'
  exact ⟨by omega, hcore⟩

/-- The core of a text is paired when the text is. -/
theorem IsCore.paired_iff (h : IsCore t k core) : Paired core ↔ Paired t := by
  cases k with
  | zero => rw [h.text, wrap_zero]
  | succ k =>
    have hcore := h.paired (Nat.succ_pos k)
    rw [h.text]
    exact iff_of_true hcore (hcore.wrap _)

/-- Of two groups side by side, the first parenthesis and the last one are no pair, since the first one is closed in between. -/
theorem bare_groups (ht : Paired t) (u : Text) : ∀ w, Paired w → Text.wrap 1 t ++ Text.wrap 1 u ≠ Text.wrap 1 w := by
  intro w hw heq
  have hinner : t ++ ')' :: ('(' :: u) = w := by
    have hclosed : (t ++ ')' :: ('(' :: u)) ++ [')'] = w ++ [')'] := by simpa [wrap_one] using heq
    exact List.append_cancel_right hclosed
  exact ht.not_append_closer (hinner ▸ hw)

end

/-- Every text has exactly one core, and this is what stays of it without the parentheses around it. Taking them off once more changes
nothing, and the parentheses that stay pair up if and only if all of them did. Two groups side by side stay when their parentheses pair
up, in any number of pairs around both. -/
theorem unwrap_core (t : Text) :
    (∃ k, IsCore t k (unwrap t)) ∧ (∀ k k' core core', IsCore t k core → IsCore t k' core' → k = k' ∧ core = core') ∧
      unwrap (unwrap t) = unwrap t ∧ (Paired (unwrap t) ↔ Paired t) ∧
        ∀ k u v, t = wrap k (wrap 1 u ++ wrap 1 v) → Paired u → (0 < k → Paired v) → unwrap t = wrap 1 u ++ wrap 1 v := by
  obtain ⟨k, hk⟩ := exists_isCore_unwrap t
  refine ⟨⟨k, hk⟩, fun _ _ _ _ => IsCore.unique, unwrap_of_inside?_eq_none (inside?_unwrap t), hk.paired_iff, ?_⟩
  intro n u v ht hu hv
  refine IsCore.unwrap_eq ⟨ht, bare_groups hu v, fun hn => ?_⟩
  exact (hu.wrap 1).append ((hv hn).wrap 1)

/-- Of `((a)(b))` the outer pair goes, and `(a)(b)` is left. -/
theorem unwrap_core_groups : Paired ['a'] ∧ Paired ['b'] ∧ unwrap "((a)(b))".toList = "(a)(b)".toList := by
  have hplain : ∀ c ∈ ['a', 'b'], Paired [c] := by
    intro c hc
    rcases List.mem_pair.1 hc with rfl | rfl <;> exact .plain (by decide) (by decide) .nil
  obtain ⟨-, -, -, -, hgroups⟩ := unwrap_core "((a)(b))".toList
  exact ⟨hplain 'a' (by simp), hplain 'b' (by simp), hgroups 1 ['a'] ['b'] rfl (hplain 'a' (by simp)) fun _ => hplain 'b' (by simp)⟩

end FormulaDag.Text
