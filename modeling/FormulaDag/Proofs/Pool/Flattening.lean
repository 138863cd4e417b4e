import FormulaDag.Proofs.Pool.Grouping

/-!
# Flattening one text

Taking the parentheses and brackets of one text apart: its parentheses become tokens, and so does what stands in brackets, which
stay around the token. What is left has no groups but brackets, and none of them is empty.
-/

namespace FormulaDag

namespace Line

/-- No delimiter of parentheses or brackets. -/
def Open (s : Line) : Prop := ∀ c ∈ ['(', ')', '[', ']'], .char c ∉ s

/-- A line whose only groups are brackets, none of them empty. -/
structure Bracketed (s : Line) : Prop where
  proper : Proper false s
  nonempty : s ≠ []
  free : ∀ c ∈ ['(', ')', '{', '}'], .char c ∉ s

/-- A nested line without braces. -/
structure Braceless (s : Line) : Prop where
  nested : Nested s
  nonempty : s ≠ []
  free : ∀ c ∈ ['{', '}'], .char c ∉ s

/-- A nested line with brackets only is bracketed. -/
theorem Nested.bracketed {s : Line} (h : Nested s) (hne : s ≠ []) (hopen : .char '(' ∉ s) (hclose : .char ')' ∉ s)
    (hbraces : ∀ c ∈ ['{', '}'], .char c ∉ s) : Bracketed s where
  proper := h.proper
  nonempty := hne
  free := by
    intro c hc
    simp only [List.mem_cons, List.not_mem_nil, or_false] at hc hbraces
    rcases hc with rfl | rfl | hc
    · exact hopen
    · exact hclose
    · exact hbraces c hc

/-- What stands behind the front of a proper line is proper from the state there. -/
theorem Proper.of_append {X Y : Line} {opened : Bool} (h : Proper opened (X ++ Y)) : ∃ opened', Proper opened' Y := by
  induction X generalizing opened with
  | nil => exact ⟨opened, h⟩
  | cons m X ih => exact ih h.2

/-- The rear of a proper line can be replaced by one that is proper from the same states. -/
theorem Proper.replace {X Y Y' : Line} {opened : Bool} (h : Proper opened (X ++ Y))
    (hY : ∀ opened', Proper opened' Y → Proper opened' Y') : Proper opened (X ++ Y') := by
  induction X generalizing opened with
  | nil => exact hY opened h
  | cons m X ih => exact ⟨h.1, ih h.2⟩

/-- Behind an open line that is not empty, nothing has just been opened. -/
theorem Proper.after_open {I Y : Line} (hI : I.Open) (hne : I ≠ []) {opened : Bool} (h : Proper opened (I ++ Y)) :
    Proper false Y := by
  induction I generalizing opened with
  | nil => exact absurd rfl hne
  | cons m I ih =>
    have hm : (m = .char '[') = False := by
      rw [eq_iff_iff, iff_false]
      rintro rfl
      exact hI '[' (by simp) (by simp)
    have htail := h.2
    simp only [hm, decide_false] at htail
    by_cases hnil : I = []
    · rw [hnil] at htail
      exact htail
    · exact ih (fun c hc hmem => hI c hc (List.mem_cons_of_mem _ hmem)) hnil htail

/-- An open line is proper. -/
theorem Open.proper {s : Line} (h : s.Open) : Proper false s := by
  have hall : ∀ (l : Line), (∀ c ∈ ['(', ')', '[', ']'], .char c ∉ l) → ∀ opened, Proper opened l := by
    intro l
    induction l with
    | nil => exact fun _ _ => trivial
    | cons m l ih =>
      intro hl opened
      refine ⟨fun _ heq => hl ']' (by simp) (by simp [heq]), ih (fun c hc hmem => hl c hc (List.mem_cons_of_mem _ hmem)) _⟩
  exact hall s h false

theorem open_ref (k : Nat) : Open [.ref k] := by simp [Open]

/-- Two open lines in a row are open. -/
theorem Open.append {s s' : Line} (h : s.Open) (h' : s'.Open) : Open (s ++ s') :=
  fun c hc hmem => (List.mem_append.1 hmem).elim (h c hc) (h' c hc)

/-- A line without delimiters of parentheses or brackets is written without them. -/
theorem Open.not_mem_text {s : Line} (h : s.Open) : ∀ c ∈ ['(', ')', '[', ']'], c ∉ text s := by
  intro c hc
  refine Line.not_mem_text ?_ ?_ ?_ (h c hc) <;> fin_cases hc <;> decide

/-- What stands in brackets is not empty, and a token may take its place. -/
theorem Proper.bracket {D I s : Line} (hI : I.Open) (h : Proper false (D ++ .char '[' :: (I ++ .char ']' :: s))) :
    I ≠ [] ∧ ∀ k, Proper false (D ++ .char '[' :: .ref k :: .char ']' :: s) := by
  have hne : I ≠ [] := by
    rintro rfl
    obtain ⟨opened, hY⟩ := h.of_append
    exact hY.2.1 (by simp) rfl
  refine ⟨hne, fun k => h.replace fun opened hY => ⟨hY.1, by simp, ?_⟩⟩
  have := Proper.after_open hI hne hY.2
  simpa using this

end Line

namespace Pool.Growth

section
variable {write : Char → Text} {goal : Text} {fits : Nat → Text → Prop} {own : Text} {g : Growth} {i : Nat}

/-- A text without parentheses and brackets is read into what is done, or into the open bracket. -/
theorem replaceBrackets_plain {u : Text} (hu : ∀ c ∈ ['(', ')', '[', ']'], c ∉ u) (g : Growth) (done : Text) (t : Text) :
    replaceBrackets g done none (u ++ t) = replaceBrackets g (u.reverse ++ done) none t ∧
      ∀ inner, replaceBrackets g done (some inner) (u ++ t) = replaceBrackets g done (some (u.reverse ++ inner)) t := by
  induction u generalizing done with
  | nil => exact ⟨rfl, fun _ => rfl⟩
  | cons c u ih =>
    have hc : ∀ d ∈ ['(', ')', '[', ']'], c ≠ d := fun d hd heq => hu d hd (by simp [heq])
    have hu' : ∀ d ∈ ['(', ')', '[', ']'], d ∉ u := fun d hd hmem => hu d hd (List.mem_cons_of_mem _ hmem)
    have h₁ := hc '[' (by simp)
    have h₂ := hc ']' (by simp)
    have h₃ := hc '(' (by simp)
    have h₄ := hc ')' (by simp)
    rw [List.cons_append]
    constructor
    · rw [replaceBrackets, if_neg h₁, (ih hu' _).1]
      simp
    · intro inner
      simp only [replaceBrackets, h₁, h₂, h₃, h₄, if_false, or_self]
      rw [(ih hu' _).2]
      simp

/-- What a mark adds to a line whose brackets are taken apart, unless it closes a bracket: `inner` has been read since a bracket opened,
if one has, `out` is then done with and `inner'` is kept. -/
inductive Passage : Option Line → Mark → Line → Option Line → Prop
  | outside {m : Mark} : m ≠ .char '[' → Passage none m [m] none
  | opens (inner : Option Line) : Passage inner (.char '[') (inner.getD [] ++ [.char '[']) (some [])
  | inside {I : Line} {m : Mark} : Line.Open [m] → Passage (some I) m [] (some (I ++ [m]))
  | leaves {I : Line} {c : Char} : c = '(' ∨ c = ')' → Passage (some I) (.char c) (I ++ [.char c]) none

namespace Passage
variable {inner inner' : Option Line} {m : Mark} {out : Line}

/-- Every mark makes a passage, but for a stray closing bracket. -/
theorem exists_of (inner : Option Line) (hclose : m = .char ']' → inner = none) : ∃ out inner', Passage inner m out inner' := by
  by_cases hopens : m = .char '['
  · subst hopens
    exact ⟨_, _, .opens inner⟩
  · cases inner with
    | none => exact ⟨_, _, .outside hopens⟩
    | some I =>
      have hcloses : m ≠ .char ']' := fun heq => by cases hclose heq
      by_cases hleaves : m = .char '(' ∨ m = .char ')'
      · rcases hleaves with rfl | rfl
        · exact ⟨_, _, .leaves (.inl rfl)⟩
        · exact ⟨_, _, .leaves (.inr rfl)⟩
      · refine ⟨_, _, .inside fun c hc => ?_⟩
        rw [not_or] at hleaves
        simp only [List.mem_singleton]
        simp only [List.mem_cons, List.not_mem_nil, or_false] at hc
        rcases hc with rfl | rfl | rfl | rfl
        · exact Ne.symm hleaves.1
        · exact Ne.symm hleaves.2
        · exact Ne.symm hopens
        · exact Ne.symm hcloses

/-- Nothing is lost. -/
theorem append_eq (h : Passage inner m out inner') : out ++ inner'.getD [] = inner.getD [] ++ [m] := by
  cases h <;> simp

/-- A passage keeps what is within the bracket open. -/
theorem isOpen (h : Passage inner m out inner') (hinner : ∀ I ∈ inner, I.Open) : ∀ I ∈ inner', I.Open := by
  cases h with
  | outside => simp
  | opens => simp [Line.Open]
  | inside hm =>
    rintro _ ⟨⟩
    exact (hinner _ rfl).append hm
  | leaves => simp

/-- What is kept has been read since a bracket opened. -/
theorem ends (h : Passage inner m out inner') {D : Line} (hinner : inner.isSome → ∃ D', D = D' ++ [.char '[']) (hsome : inner'.isSome) :
    ∃ D', D ++ out = D' ++ [.char '['] := by
  cases h with
  | outside => cases hsome
  | opens => exact ⟨D ++ inner.getD [], by simp⟩
  | inside => simpa using hinner rfl
  | leaves => cases hsome

/-- Replacing brackets follows the passages of the marks. -/
theorem replaceBrackets_eq (h : Passage inner m out inner') (g : Growth) (done : Text) (s : Line) :
    replaceBrackets g done (inner.map fun I => (Line.text I).reverse) (Line.text (m :: s)) =
      replaceBrackets g ((Line.text out).reverse ++ done) (inner'.map fun I => (Line.text I).reverse) (Line.text s) := by
  cases h with
  | outside hm =>
    cases m with
    | ref k =>
      have hplain := (replaceBrackets_plain (Line.open_ref k).not_mem_text g done (Line.text s)).1
      simpa using hplain
    | char c =>
      have hc : c ≠ '[' := fun heq => hm (congrArg _ heq)
      simp [replaceBrackets, Mark.text, hc]
  | opens => cases inner <;> simp [replaceBrackets, Mark.text]
  | @inside I m hm =>
    have hplain := (replaceBrackets_plain hm.not_mem_text g done (Line.text s)).2 (Line.text I).reverse
    simpa using hplain
  | leaves hc => rcases hc with rfl | rfl <;> simp [replaceBrackets, Mark.text]

end Passage

/-- A bracket that closes puts a token in the place of what has been read since the last one opened. -/
theorem replaceBrackets_close (g : Growth) (done : Text) (I s : Line) :
    replaceBrackets g done (some (Line.text I).reverse) (Line.text (.char ']' :: s)) =
      replaceBrackets (g.tokenFor (Line.text I)).1 (']' :: ((g.tokenFor (Line.text I)).2.reverse ++ done)) none (Line.text s) := by
  simp [replaceBrackets, Mark.text]

/-- A pair of brackets keeps the token of what it held. -/
theorem Under.closeBrackets {D I s : Line} (h : Under write goal fits own g i (D ++ .char '[' :: (I ++ .char ']' :: s)))
    (hI : I.Open) (hne : I ≠ []) (hown : '[' ∈ own) (hfits : ∀ x, fits x (Line.text I)) :
    ∃ k, (g.tokenFor (Line.text I)).2 = Index.token k ∧
      Under write goal fits own (g.tokenFor (Line.text I)).1 i (D ++ .char '[' :: .ref k :: .char ']' :: s) := by
  have hwithin : I.Within g.pool.cells.length := h.drafts.within.subset fun m hm => by simp [hm]
  have hplain := hI.not_mem_text
  have h' : Under write goal fits own g i ((D ++ [.char '[']) ++ I ++ (.char ']' :: s)) := by simpa using h
  obtain ⟨k, htoken, hunder⟩ := h'.tokenFor (Line.unwrap_of_not_mem (hplain '(' (by simp))) hwithin hne (fun _ => Iff.rfl)
    (fun _ => rfl) (fun heq => hplain '[' (by simp) (heq ▸ hown)) hfits
  exact ⟨k, htoken, by simpa using hunder⟩

/-- The brackets of a line keep tokens of what they held. The line so far is `D` and what has been read since a bracket opened. -/
theorem Under.replaceBrackets (allowed : Char → Prop)
    (hfits : ∀ (n : Nat) (u : Line), u.Within n → u ≠ [] → u.Open → (∀ c, .char c ∈ u → allowed c) → ∀ x, fits x (Line.text u))
    {D s : Line} {inner : Option Line} (h : Under write goal fits own g i (D ++ inner.getD [] ++ s))
    (hproper : Line.Proper false (D ++ inner.getD [] ++ s)) (hallowed : ∀ c, .char c ∈ D ++ inner.getD [] ++ s → allowed c)
    (hown : .char '[' ∈ D ++ inner.getD [] ++ s → '[' ∈ own) (hopen : ∀ I ∈ inner, I.Open)
    (hends : inner.isSome → ∃ D', D = D' ++ [.char '[']) :
    ∃ g' s', Growth.replaceBrackets g (Line.text D).reverse (inner.map fun I => (Line.text I).reverse) (Line.text s) =
        (g', Line.text s') ∧
      Under write goal fits own g' i s' ∧ Line.Proper false s' ∧ (D ++ inner.getD [] ++ s ≠ [] → s' ≠ []) ∧
      ∀ c, .char c ∈ s' → .char c ∈ D ++ inner.getD [] ++ s := by
  induction s generalizing g D inner with
  | nil =>
    refine ⟨g, D ++ inner.getD [], ?_, by simpa using h, by simpa using hproper, by simp, by simp⟩
    cases inner <;> simp [Growth.replaceBrackets]
  | cons m s ih =>
    by_cases hclose : m = .char ']' → inner = none
    · obtain ⟨out, inner', hpassage⟩ := Passage.exists_of inner hclose
      have hsame : D ++ inner.getD [] ++ m :: s = (D ++ out) ++ inner'.getD [] ++ s := by
        rw [List.append_assoc D out, hpassage.append_eq]
        simp
      rw [hsame] at h hproper hallowed hown ⊢
      rw [hpassage.replaceBrackets_eq, ← List.reverse_append, ← Line.text_append]
      exact ih h hproper hallowed hown (hpassage.isOpen hopen) (hpassage.ends hends)
    · obtain ⟨rfl, hsome⟩ := Classical.not_imp.1 hclose
      obtain ⟨I, rfl⟩ := Option.ne_none_iff_exists'.1 hsome
      obtain ⟨D, rfl⟩ := hends rfl
      have hI := hopen I rfl
      have hline : D ++ [.char '['] ++ Option.getD (some I) [] ++ .char ']' :: s = D ++ .char '[' :: (I ++ .char ']' :: s) := by simp
      rw [hline] at h hproper hallowed hown ⊢
      obtain ⟨hne, hnext⟩ := hproper.bracket hI
      obtain ⟨k, htoken, hunder⟩ := h.closeBrackets hI hne (hown (by simp))
        (hfits _ I (h.drafts.within.subset fun m hm => by simp [hm]) hne hI fun c hc => hallowed c (by simp [hc]))
      have hnew : D ++ .char '[' :: .ref k :: .char ']' :: s =
          (D ++ [.char '['] ++ [.ref k, .char ']']) ++ Option.getD none [] ++ s := by simp
      have hchars : ∀ c, .char c ∈ D ++ .char '[' :: .ref k :: .char ']' :: s →
          .char c ∈ D ++ .char '[' :: (I ++ .char ']' :: s) := by
        intro c hc
        simp only [List.mem_append, List.mem_cons, reduceCtorEq, false_or] at hc ⊢
        tauto
      have hproper' := hnext k
      rw [hnew] at hunder hproper' hchars
      obtain ⟨g', s', heq, hunder', hproper'', hne', hchars'⟩ := ih hunder hproper' (fun c hc => hallowed c (hchars c hc))
        (fun hmem => hown (hchars _ hmem)) (by simp) (by simp)
      refine ⟨g', s', ?_, hunder', hproper'', fun _ => hne' (by simp), fun c hc => hchars c (hchars' c hc)⟩
      rw [Option.map_some, replaceBrackets_close, htoken]
      simpa [Mark.text] using heq

/-- A draft becomes the text of its cell. -/
theorem Under.settle {s : Line} (h : Under write goal fits own g i s) (hne : s ≠ []) (hfits : ∀ x, fits x (Line.text s)) :
    Stands [] write goal (g.setText i (Line.text s)).pool ∧
      ∀ x, (g.setText i (Line.text s)).pool.holds x = true → fits x ((g.setText i (Line.text s)).pool.text x) := by
  have hi := h.drafts.holds
  unfold Growth.setText
  split
  · rename_i hsame
    refine ⟨h.drafts.stands hsame.symm, fun x hx => ?_⟩
    by_cases hxi : x = i
    · rw [hxi, ← hsame]
      exact hfits i
    · exact h.others x hx hxi
  · obtain ⟨j, hq⟩ := h.drafts.sound.exists_rewritten hi (Line.text_ne_nil hne)
    refine ⟨h.drafts.commit (Line.text_ne_nil hne), fun x hx => ?_⟩
    rcases hq.text_cases hx with htext | ⟨hxi, hxp, htext⟩
    · simp only [htext]
      exact hfits x
    · simp only [htext]
      exact h.others x hxp hxi

/-- The parentheses and brackets of a line become tokens. -/
theorem Under.reduceText {s : Line} (h : Under write goal fits (Line.text s) g i s) (hs : s.Bracketed ∨ s.Braceless)
    (hwrite : ∀ c ∈ ['(', ')'], write c = []) (hfits : ∀ (n : Nat) (u : Line), u.Within n → u.Bracketed → ∀ x, fits x (Line.text u)) :
    ∃ g' s', g.reduceText (Line.text s) = (g', Line.text s') ∧ Under write goal fits (Line.text s) g' i s' ∧ s'.Bracketed := by
  unfold Growth.reduceText
  have hparentheses : ∃ g₁ s₁, Growth.replaceGroups '(' ')' g [] [] (Line.text s) = (g₁, Line.text s₁) ∧
      Under write goal fits (Line.text s) g₁ i s₁ ∧ s₁.Bracketed ∧ ∀ c, .char c ∈ s₁ → .char c ∈ s := by
    by_cases hopen : .char '(' ∈ s
    · have hs' : s.Braceless := hs.resolve_left fun hs => hs.free '(' (by simp) hopen
      have h' : Under write goal fits (Line.text s) g i ([] ++ s ++ []) := by simpa using h
      have hbraces : ∀ c, .char c ∈ s → c ∉ ['{', '}'] := fun c hc hmem => hs'.free c hmem hc
      obtain ⟨g₁, s₁, heq, hunder, hflat⟩ := h'.replaceGroups (by rfl) (fun c hc => hwrite c ((List.mem_append.1 hc).elim id id))
        (.inr (Line.mem_text hopen)) (fun c => c ∉ ['{', '}'])
        (fun n u hwithin hu hne ho hc hallowed =>
          hfits n u hwithin (hu.bracketed hne ho hc fun c hmem hcu => hallowed c hcu hmem))
        hs'.nested hbraces [] [] []
      rw [List.append_nil] at heq
      exact ⟨g₁, s₁, by rw [heq]; simp [Growth.replaceGroups], by simpa using hunder,
        hflat.nested.bracketed (hflat.nonempty hs'.nonempty) hflat.opener hflat.closer
          fun c hc hmem => hbraces c (hflat.chars c hmem) hc, hflat.chars⟩
    · have hclose : .char ')' ∉ s := by
        rcases hs with hs | hs
        · exact hs.free ')' (by simp)
        · exact hs.nested.closer_not_mem (by rfl) hopen
      refine ⟨g, s, replaceGroups_eq_self rfl hopen hclose g, h, ?_, fun c hc => hc⟩
      rcases hs with hs | hs
      · exact hs
      · exact hs.nested.bracketed hs.nonempty hopen hclose hs.free
  obtain ⟨g₁, s₁, heq, hunder, hs₁, hchars⟩ := hparentheses
  rw [heq]
  have hunder' : Under write goal fits (Line.text s) g₁ i ([] ++ Option.getD none [] ++ s₁) := by simpa using hunder
  have hfree : ∀ c, .char c ∈ ([] ++ Option.getD none [] ++ s₁ : Line) → c ∉ ['(', ')', '{', '}'] :=
    fun c hc hmem => hs₁.free c hmem hc
  obtain ⟨g', s', heq', hunder'', hproper, hne, hchars'⟩ := hunder'.replaceBrackets (fun c => c ∉ ['(', ')', '{', '}'])
    (fun n u hwithin hne hopen hallowed => hfits n u hwithin ⟨hopen.proper, hne, fun c hmem hcu => hallowed c hcu hmem⟩)
    (by simpa using hs₁.proper) hfree (fun hmem => Line.mem_text (hchars _ hmem)) (by simp) (by simp)
  exact ⟨g', s', heq', hunder'', hproper, hne (by simpa using hs₁.nonempty), fun c hc hmem => hfree c (hchars' c hmem) hc⟩

end

end Pool.Growth

end FormulaDag
