import FormulaDag.Proofs.Pool.Binding
import FormulaDag.Proofs.Pool.Reached
import FormulaDag.Proofs.Source.Substitution

/-!
# Hygiene of binding

Binding letters one after the other, with a mask that is computed anew from texts already rewritten, comes to the same as replacing all
of them at once in the texts as they were. Every occurrence of a declared letter that is left is protected, unless it is the whole text.
-/

namespace FormulaDag.Pool

section
variable {names : List Text} {letter c : Char} {i k x : Nat} {t : Text}

/-- Replacing a letter is substituting for it alone. -/
theorem replaceLetter_eq_substitute (names : List Text) (letter : Char) (s t : Text) :
    replaceLetter names letter s t = Source.substitute names (Source.single letter s) t := by
  refine List.flatMap_congr fun e _ => ?_
  obtain ⟨d, flag⟩ := e
  cases flag
  · by_cases hd : d = letter <;> simp [Source.single, hd]
  · simp

theorem eq_token_of_single {s : Text} (h : Source.single letter (Index.token i) c = some s) : c = letter ∧ s = Index.token i := by
  unfold Source.single at h
  split at h
  · exact ⟨‹_›, (Option.some.inj h).symm⟩
  · cases h

/-- The token of a letter can stand wherever the letter can. -/
theorem signs_single (letter : Char) (i : Nat) : Source.Signs (Source.single letter (Index.token i)) := by
  intro c s hs
  rw [(eq_token_of_single hs).2]
  exact ⟨Index.token_ne_nil i, fun d => Index.sign_of_mem_token⟩

/-- The token of a lowercase letter is not replaced again. -/
theorem single_of_mem_token (hlower : letter.isLower = true) {s : Text} (hs : Source.single letter (Index.token i) c = some s) :
    ∀ d ∈ s, Source.single letter (Index.token i) d = none := by
  rintro d hd
  rw [(eq_token_of_single hs).2] at hd
  refine if_neg ?_
  rintro rfl
  exact Index.not_mem_token_of_isLower hlower hd

/-- A text without the letter is left as it is. -/
theorem replaceLetter_of_not_mem (h : letter ∉ t) (s : Text) : replaceLetter names letter s t = t := by
  rw [replaceLetter_eq_substitute]
  refine Source.substitute_eq_self fun c hc => if_neg ?_
  rintro rfl
  exact h hc

/-- A letter that is replaced somewhere leaves the sign of a token. -/
theorem at_mem_replaceLetter (h : replaceLetter names letter (Index.token i) t ≠ t) : '@' ∈ replaceLetter names letter (Index.token i) t := by
  rw [replaceLetter_eq_substitute] at h ⊢
  obtain ⟨c, s, hs, hsub⟩ := Source.exists_subset_of_substitute_ne h
  rw [(eq_token_of_single hs).2] at hsub
  exact hsub (by simp [Index.token_eq])

/-- The number of Euler has no lowercase letter. -/
theorem not_mem_eulerNumber (h : c.isLower = true) : c ∉ Symbol.eulerNumber := by
  intro hc
  rcases isDigit_of_mem_eulerNumber hc with hdigit | rfl
  · have := Text.not_isAlpha_of_isDigit hdigit
    simp [Char.isAlpha, h] at this
  · simp at h

/-- The text of a cell when a letter has been bound: the cell of the letter keeps its text. -/
def boundText (names : List Text) (letter : Char) (i : Nat) (t : Text) : Text :=
  if t = letterText letter then t else replaceLetter names letter (Index.token i) t

@[simp] theorem boundText_letterText : boundText names letter i (letterText letter) = letterText letter := if_pos rfl

/-- Binding a letter in a text twice is binding it once. -/
theorem boundText_boundText (hnames : ∀ name ∈ names, name ≠ [] ∧ ∀ d ∈ name, d.isAlpha = true) (hlower : letter.isLower = true) :
    boundText names letter i (boundText names letter i t) = boundText names letter i t := by
  by_cases ht : t = letterText letter
  · rw [ht, boundText_letterText, boundText_letterText]
  · have htwice : replaceLetter names letter (Index.token i) (replaceLetter names letter (Index.token i) t) =
        replaceLetter names letter (Index.token i) t := by
      rw [replaceLetter_eq_substitute, replaceLetter_eq_substitute, Source.substitute_substitute hnames (signs_single letter i)
        fun c s => single_of_mem_token hlower]
      simp only [Option.or_self]
    rw [boundText, boundText, if_neg ht]
    split
    · rfl
    · exact htwice

/-! ### One letter -/

/-- A pool `q` after the letter has been bound in some cells of the pool `p`. -/
structure BindsIn (names : List Text) (letter : Char) (i : Nat) (p q : Pool) (done : List Nat) : Prop where
  consistent : q.Consistent
  length : q.cells.length = p.cells.length
  held : ∀ x, q.holds x = true → p.holds x = true
  cell : q.holds i = true ∧ q.text i = letterText letter
  texts : ∀ x, x < p.cells.length → q.text x = p.text x ∨ q.text x = boundText names letter i (p.text x)
  fixed : ∀ x ∈ done, q.holds x = true → boundText names letter i (q.text x) = q.text x

section
variable {p q : Pool} {done : List Nat} (hnames : ∀ name ∈ names, name ≠ [] ∧ ∀ d ∈ name, d.isAlpha = true)
  (hlower : letter.isLower = true)

/-- The pool in which a letter is to be bound has it bound nowhere yet. -/
theorem BindsIn.start (hp : p.Consistent) (hi : p.holds i = true) (htext : p.text i = letterText letter) :
    BindsIn names letter i p p [] :=
  ⟨hp, rfl, fun _ => id, ⟨hi, htext⟩, fun _ _ => .inl rfl, by simp⟩

/-- A cell that binding leaves as it is counts as done. -/
theorem BindsIn.skip (h : BindsIn names letter i p q done)
    (hx : q.holds x = true → boundText names letter i (q.text x) = q.text x) : BindsIn names letter i p q (done ++ [x]) := by
  refine { h with fixed := fun y hy hheld => ?_ }
  rcases List.mem_append.1 hy with hy | hy
  · exact h.fixed y hy hheld
  · rw [List.mem_singleton.1 hy] at hheld ⊢
    exact hx hheld

include hnames hlower

/-- A cell whose text is rewritten takes all cells along that lead to it. -/
theorem BindsIn.rewrite (h : BindsIn names letter i p q done) (hxi : x ≠ i) (hx : q.holds x = true) :
    BindsIn names letter i p (q.setText x (boundText names letter i (q.text x))) (done ++ [x]) := by
  have hlt := lt_of_holds hx
  have htext : ∀ y, y < q.cells.length → (q.setText x (boundText names letter i (q.text x))).text y =
      if q.resolve y = x then boundText names letter i (q.text y) else q.text y := by
    intro y hy
    rw [h.consistent.text_setText hx hy]
    split
    · rename_i hres
      rw [(h.consistent.leads_resolve hy).text_eq, hres]
    · rfl
  refine ⟨(h.consistent.setText hlt _).1, (length_cells_setText _ _ _).trans h.length, fun y hy => h.held y (holds_of_holds_setText hx hy),
    ⟨?_, ?_⟩, fun y hy => ?_, fun y hy hheld => ?_⟩
  · rw [holds, getElem?_setText_of_ne q _ (Ne.symm hxi)]
    exact h.cell.1
  · rw [htext i (lt_of_holds h.cell.1), resolve_of_holds h.cell.1, if_neg (Ne.symm hxi)]
    exact h.cell.2
  · rw [htext y (h.length ▸ hy)]
    split
    · rcases h.texts y hy with heq | heq
      · exact .inr (by rw [heq])
      · exact .inr (by rw [heq, boundText_boundText hnames hlower])
    · exact h.texts y hy
  · have hheld' := holds_of_holds_setText hx hheld
    rw [htext y (lt_of_holds hheld'), resolve_of_holds hheld']
    split
    · exact boundText_boundText hnames hlower
    · rename_i hyx
      rcases List.mem_append.1 hy with hy | hy
      · exact h.fixed y hy hheld'
      · exact absurd (List.mem_singleton.1 hy) hyx

/-- Binding a letter at one more index adds it to those done. -/
theorem BindsIn.bindIn (h : BindsIn names letter i p q done) (x : Nat) :
    BindsIn names letter i p (bindIn names letter i q x) (done ++ [x]) := by
  unfold Pool.bindIn
  split
  · rename_i hcond
    refine h.skip fun hx => ?_
    rw [hx] at hcond
    obtain rfl : x = i := by simpa using hcond
    rw [h.cell.2, boundText_letterText]
  · rename_i hcond
    simp only [Bool.or_eq_true, decide_eq_true_eq, Bool.not_eq_true', not_or, Bool.not_eq_false] at hcond
    obtain ⟨hxi, hx⟩ := hcond
    split
    · rename_i hsame
      refine h.skip fun _ => ?_
      unfold boundText
      split
      · rfl
      · exact hsame
    · -- no other cell holds the text of the cell of the letter
      have hother : q.text x ≠ letterText letter := by
        intro heq
        have hne := (letterText_facts hlower).1.1
        have hfx := (h.consistent.text_eq_iff (lt_of_holds hx) hne).1 heq
        rw [(h.consistent.text_eq_iff (lt_of_holds h.cell.1) hne).1 h.cell.2, resolve_of_holds hx, resolve_of_holds h.cell.1] at hfx
        exact hxi (Option.some.inj hfx).symm
      have hbound : replaceLetter names letter (Index.token i) (q.text x) = boundText names letter i (q.text x) := (if_neg hother).symm
      rw [hbound]
      exact h.rewrite hnames hlower hxi hx

/-- Binding a letter at a list of indices adds them all. -/
theorem BindsIn.foldl (l : List Nat) (h : BindsIn names letter i p q done) :
    BindsIn names letter i p (l.foldl (Pool.bindIn names letter i) q) (done ++ l) := by
  induction l generalizing q done with
  | nil => rwa [List.append_nil]
  | cons x l ih =>
    rw [List.foldl_cons, List.append_cons]
    exact ih (h.bindIn hnames hlower x)

omit hnames hlower in
/-- When all cells are done, every text has been bound. -/
theorem BindsIn.text_eq (h : BindsIn names letter i p q p.holders) (hx : x < p.cells.length) :
    q.text x = boundText names letter i (p.text x) := by
  have hleads := h.consistent.leads_resolve (h.length ▸ hx)
  have hheld := h.held _ hleads.holds
  have hfixed := h.fixed _ (List.mem_filter.2 ⟨List.mem_range.2 (lt_of_holds hheld), hheld⟩) hleads.holds
  rw [← hleads.text_eq] at hfixed
  rcases h.texts x hx with heq | heq
  · rw [← hfixed, heq]
  · exact heq

/-- A pool `q` in which a cell for the letter has been found or made. A cell that held the letter `e` in `p` holds its number now. -/
structure FindsCell (letter : Char) (i : Nat) (p q : Pool) : Prop where
  consistent : q.Consistent
  length : p.cells.length ≤ q.cells.length
  holds : q.holds i = true
  text : q.text i = letterText letter
  old : ∀ x, x < p.cells.length → q.text x = if p.text x = [letter] then letterText letter else p.text x
  new : ∀ x, p.cells.length ≤ x → x < q.cells.length → q.text x = letterText letter

omit hnames in
/-- The index of a letter holds the text of it. -/
theorem Consistent.letterIndex (h : p.Consistent) : FindsCell letter (p.letterIndex letter).2 p (p.letterIndex letter).1 := by
  have hiff : ∀ {x}, x < p.cells.length → (p.text x = [letter] ↔ p.find? [letter] = some (p.resolve x)) :=
    fun hx => h.text_eq_iff hx (by simp)
  unfold Pool.letterIndex
  split
  · rename_i i hfind
    have hcell := h.found _ i hfind
    have hheld := holds_iff.2 ⟨_, hcell⟩
    have hlt := lt_of_holds hheld
    split
    · rename_i he
      subst he
      have hlength := length_cells_setText p i Symbol.eulerNumber
      obtain ⟨hq, j, hj, hjcell⟩ := h.setText hlt Symbol.eulerNumber
      rw [hj.resolve_eq]
      refine ⟨hq, hlength.ge, hj.holds, text_of_holding hjcell, fun x hx => ?_, fun x hle hlt => absurd (hlength ▸ hlt) (Nat.not_lt.2 hle)⟩
      have hres : p.text x = ['e'] ↔ p.resolve x = i := by rw [hiff hx, hfind, Option.some.injEq, eq_comm]
      rw [h.text_setText hheld hx]
      exact if_congr hres.symm rfl rfl
    · rename_i he
      have htext : letterText letter = [letter] := if_neg he
      rw [resolve_of_holds hheld]
      refine ⟨h, Nat.le_refl _, hheld, (text_of_holding hcell).trans htext.symm, fun x hx => ?_,
        fun x hle hlt => absurd hlt (Nat.not_lt.2 hle)⟩
      split
      · rw [htext]
        assumption
      · rfl
  · rename_i hnone
    have hkept : ∀ x, x < p.cells.length → p.text x = if p.text x = [letter] then letterText letter else p.text x := by
      intro x hx
      rw [if_neg]
      rw [hiff hx, hnone]
      simp
    rcases p.intern_cases (letterText letter) with ⟨i, hfind, heq⟩ | ⟨hnew, heq⟩
    · have hcell := h.found _ i hfind
      rw [heq]
      exact ⟨h, Nat.le_refl _, holds_iff.2 ⟨_, hcell⟩, text_of_holding hcell, hkept, fun x hle hlt => absurd hlt (Nat.not_lt.2 hle)⟩
    · rw [heq]
      refine ⟨h.add hnew, by simp, holds_add.2 (.inr rfl), text_of_holding getElem?_add_length, fun x hx => ?_, fun x hle hlt => ?_⟩
      · rw [h.text_add hx]
        exact hkept x hx
      · rw [length_cells_add] at hlt
        rw [show x = p.cells.length by omega]
        exact text_of_holding getElem?_add_length

/-- A pool `q` after one letter has been bound to the cell `k` in all texts of the pool `p`. -/
structure Binds (names : List Text) (letter : Char) (k : Nat) (p q : Pool) : Prop where
  consistent : q.Consistent
  length : p.cells.length ≤ q.cells.length
  lt : k < q.cells.length
  text : q.text k = letterText letter
  old : ∀ x, x < p.cells.length →
    q.text x = if p.text x = [letter] then letterText letter else replaceLetter names letter (Index.token k) (p.text x)
  new : ∀ x, p.cells.length ≤ x → x < q.cells.length → q.text x = letterText letter

/-- Binding a letter replaces it in every text by the token of one index. -/
theorem Consistent.bindLetter (h : p.Consistent) : ∃ k, Binds names letter k p (bindLetter names p letter) := by
  have hfound := h.letterIndex hlower
  unfold Pool.bindLetter
  generalize p.letterIndex letter = found at hfound ⊢
  obtain ⟨q, k⟩ := found
  have hstart : BindsIn names letter k q q [] := .start hfound.consistent hfound.holds hfound.text
  have hrun := hstart.foldl hnames hlower q.holders
  rw [List.nil_append] at hrun
  have hlength := hrun.length
  refine ⟨k, hrun.consistent, hlength ▸ hfound.length, hlength ▸ lt_of_holds hfound.holds, hrun.cell.2, fun x hx => ?_, fun x hle hlt => ?_⟩
  · rw [hrun.text_eq (Nat.lt_of_lt_of_le hx hfound.length), hfound.old x hx]
    split
    · exact boundText_letterText
    · rename_i hne
      unfold boundText
      split
      · rename_i heq
        -- only the number that stands for `e` is the text of a letter and not the letter itself
        have hnumber : p.text x = Symbol.eulerNumber := by
          by_cases he : letter = 'e'
          · rwa [letterText, if_pos he] at heq
          · rw [letterText, if_neg he] at heq
            exact absurd heq hne
        rw [hnumber, replaceLetter_of_not_mem (not_mem_eulerNumber hlower)]
      · rfl
  · rw [hrun.text_eq (hlength ▸ hlt), hfound.new x hle (hlength ▸ hlt), boundText_letterText]

end

/-! ### All letters -/

/-- The replacement of the declared letters by the tokens of their cells. -/
def tokens (letters : List Char) (cell : Char → Nat) (c : Char) : Option Text :=
  if c ∈ letters then some (Index.token (cell c)) else none

/-- A pool `q` after letters have been bound to their cells in all texts of the pool `p`. -/
structure BindsAll (names : List Text) (letters : List Char) (cell : Char → Nat) (p q : Pool) : Prop where
  length : p.cells.length ≤ q.cells.length
  cells : ∀ l ∈ letters, cell l < q.cells.length ∧ q.text (cell l) = letterText l
  letter : ∀ x, x < p.cells.length → ∀ l ∈ letters, p.text x = [l] → q.text x = letterText l
  old : ∀ x, x < p.cells.length → (∀ l ∈ letters, p.text x ≠ [l]) → q.text x = Source.substitute names (tokens letters cell) (p.text x)
  new : ∀ x, p.cells.length ≤ x → x < q.cells.length → ∃ l ∈ letters, q.text x = letterText l

section
variable {p q : Pool} {letters : List Char} {cell : Char → Nat} (hnames : ∀ name ∈ names, name ≠ [] ∧ ∀ d ∈ name, d.isAlpha = true)
  (hletters : ∀ l ∈ letters, l.isLower = true)

theorem token_of_tokens {s : Text} (h : tokens letters cell c = some s) : c ∈ letters ∧ s = Index.token (cell c) := by
  unfold tokens at h
  split at h
  · exact ⟨‹_›, (Option.some.inj h).symm⟩
  · cases h

/-- The tokens of letters can stand wherever the letters can. -/
theorem signs_tokens (letters : List Char) (cell : Char → Nat) : Source.Signs (tokens letters cell) := by
  intro c s hs
  rw [(token_of_tokens hs).2]
  exact ⟨Index.token_ne_nil _, fun d => Index.sign_of_mem_token⟩

/-- The text of a cell of another letter stays as it is. -/
theorem BindsAll.text_eq_letterText (h : BindsAll names letters cell p q) (hlower : letter.isLower = true) (hother : letter ∉ letters)
    (hletters : ∀ l ∈ letters, l.isLower = true) (hx : x < p.cells.length) (htext : p.text x = letterText letter) :
    q.text x = letterText letter := by
  have hown := (letterText_facts hlower).2.2
  have hkept : ∀ l ∈ letters, l ∉ letterText letter := fun l hl hmem => hother (hown l hmem (hletters l hl) ▸ hl)
  have hfree : ∀ c ∈ letterText letter, tokens letters cell c = none := fun c hc => if_neg fun hmem => hkept c hmem hc
  rw [h.old x hx, htext, Source.substitute_eq_self hfree]
  intro l hl heq
  rw [htext] at heq
  exact hkept l hl (by simp [heq])

include hnames hletters

omit hnames in
/-- A text in which a letter has been bound is another letter only if it was one before: what was changed has a token in it. -/
theorem Binds.text_ne (h : Binds names letter k p q) (hx : x < p.cells.length) (hne : p.text x ≠ [letter])
    (hother : ∀ l ∈ letters, p.text x ≠ [l]) : ∀ l ∈ letters, q.text x ≠ [l] := by
  intro l hl heq
  have hold := h.old x hx
  rw [if_neg hne] at hold
  by_cases hsame : replaceLetter names letter (Index.token k) (p.text x) = p.text x
  · exact hother l hl (by rw [← heq, hold, hsame])
  · have hat := at_mem_replaceLetter hsame
    rw [← hold, heq, List.mem_singleton] at hat
    have := hletters l hl
    rw [← hat] at this
    simp at this

/-- A letter is bound before the others. -/
theorem Binds.cons {r : Pool} {cell : Char → Nat} (hlower : letter.isLower = true) (hnew : letter ∉ letters)
    (hone : Binds names letter k p r) (hrest : BindsAll names letters cell r q) :
    BindsAll names (letter :: letters) (fun c => if c = letter then k else cell c) p q := by
  have hkept : ∀ x, x < r.cells.length → r.text x = letterText letter → q.text x = letterText letter :=
    fun x hx => hrest.text_eq_letterText hlower hnew hletters hx
  constructor
  case length => exact hone.length.trans hrest.length
  case cells =>
    intro d hd
    by_cases hdl : d = letter
    · subst hdl
      rw [if_pos rfl]
      exact ⟨Nat.lt_of_lt_of_le hone.lt hrest.length, hkept k hone.lt hone.text⟩
    · rw [if_neg hdl]
      exact hrest.cells d ((List.mem_cons.1 hd).resolve_left hdl)
  case letter =>
    intro x hx d hd htext
    have hx' := Nat.lt_of_lt_of_le hx hone.length
    have hold := hone.old x hx
    by_cases hdl : d = letter
    · subst hdl
      rw [if_pos htext] at hold
      exact hkept x hx' hold
    · rw [htext, if_neg (by simpa using hdl), replaceLetter_of_not_mem (by simpa using Ne.symm hdl)] at hold
      exact hrest.letter x hx' d ((List.mem_cons.1 hd).resolve_left hdl) hold
  case old =>
    intro x hx hother
    have hstill := hone.text_ne hletters hx (hother letter (by simp)) fun l hl => hother l (List.mem_cons_of_mem _ hl)
    have hold := hone.old x hx
    rw [if_neg (hother letter (by simp))] at hold
    have hclosed : ∀ c s, Source.single letter (Index.token k) c = some s → ∀ d ∈ s, tokens letters cell d = none := by
      intro c s hs d hd
      rw [(eq_token_of_single hs).2] at hd
      exact if_neg fun hmem => Index.not_mem_token_of_isLower (hletters d hmem) hd
    rw [hrest.old x (Nat.lt_of_lt_of_le hx hone.length) hstill, hold, replaceLetter_eq_substitute,
      Source.substitute_substitute hnames (signs_single letter k) hclosed]
    congr 1
    funext c
    by_cases hcl : c = letter
    · simp [Source.single, tokens, hcl]
    · simp [Source.single, tokens, hcl]
  case new =>
    intro x hle hlt
    by_cases hx : x < r.cells.length
    · exact ⟨letter, by simp, hkept x hx (hone.new x hle hx)⟩
    · obtain ⟨d, hd, htext⟩ := hrest.new x (Nat.le_of_not_lt hx) hlt
      exact ⟨d, List.mem_cons_of_mem _ hd, htext⟩

/-- Binding distinct letters replaces each of them in every text by its own token. -/
theorem Consistent.bindLetters (h : p.Consistent) (hdistinct : letters.Nodup) :
    ∃ cell, BindsAll names letters cell p (p.bindLetters names letters) := by
  induction letters generalizing p with
  | nil =>
    refine ⟨fun _ => 0, Nat.le_refl _, by simp, by simp, fun x _ _ => ?_, fun x hle hlt => absurd hlt (Nat.not_lt.2 hle)⟩
    exact (Source.substitute_eq_self fun c _ => if_neg (by simp)).symm
  | cons l letters ih =>
    obtain ⟨hlower, hletters⟩ := List.forall_mem_cons.1 hletters
    obtain ⟨hnew, hdistinct⟩ := List.nodup_cons.1 hdistinct
    obtain ⟨k, hone⟩ : ∃ k, Binds names l k p (Pool.bindLetter names p l) := h.bindLetter hnames hlower
    obtain ⟨cell, hrest⟩ := ih hletters hone.consistent hdistinct
    exact ⟨_, hone.cons hnames hletters hlower hnew hrest⟩

/-- After binding, the declared letters that are left in a text are protected, unless one of them is the whole text. -/
theorem BindsAll.protected (h : BindsAll names letters cell p q) (hx : x < q.cells.length) {n : Nat} (hc : (q.text x)[n]? = some c)
    (hmem : c ∈ letters) : (Source.protection names (q.text x))[n]? = some true ∨ q.text x = [c] := by
  have hcell : ∀ l ∈ letters, q.text x = letterText l → q.text x = [c] := by
    intro l hl htext
    have hin : c ∈ letterText l := htext ▸ List.mem_of_getElem? hc
    have hcl := (letterText_facts (hletters l hl)).2.2 c hin (hletters c hmem)
    rw [htext, letterText, hcl]
    refine if_neg ?_
    rintro rfl
    subst hcl
    exact not_mem_eulerNumber rfl hin
  by_cases hxp : x < p.cells.length
  · by_cases hletter : ∃ l ∈ letters, p.text x = [l]
    · obtain ⟨l, hl, htext⟩ := hletter
      exact .inr (hcell l hl (h.letter x hxp l hl htext))
    · have hold := h.old x hxp fun l hl htext => hletter ⟨l, hl, htext⟩
      have hclosed : ∀ d s, tokens letters cell d = some s → ∀ d' ∈ s, tokens letters cell d' = none := by
        intro d s hs d' hd'
        rw [(token_of_tokens hs).2] at hd'
        exact if_neg fun hmem => Index.not_mem_token_of_isLower (hletters d' hmem) hd'
      rw [hold] at hc ⊢
      exact .inl (Source.protection_of_substitute hnames (signs_tokens letters cell) hclosed hc (by simp [tokens, hmem]))
  · obtain ⟨l, hl, htext⟩ := h.new x (Nat.le_of_not_lt hxp) hx
    exact .inr (hcell l hl htext)

end

/-- Binding is complete and hygienic in every pool that can be reached. The declared letters that are left in a text are protected, unless
one of them is the whole text. A text that was no declared letter is the text before with its unprotected declared letters replaced, each
by the token of a cell that holds the letter now, or the number that stands for `e`. -/
theorem Reached.bindLetters_hygienic {p : Pool} {letters : List Char} (h : p.Reached) (hletters : ∀ l ∈ letters, l.isLower = true)
    (hdistinct : letters.Nodup) (hnames : ∀ name ∈ names, name ≠ [] ∧ ∀ d ∈ name, d.isAlpha = true) :
    (∀ x, x < (p.bindLetters names letters).cells.length → ∀ n : Nat, ∀ c ∈ letters, ((p.bindLetters names letters).text x)[n]? = some c →
      (Source.protection names ((p.bindLetters names letters).text x))[n]? = some true ∨ (p.bindLetters names letters).text x = [c]) ∧
    ∃ cell : Char → Nat,
      (∀ c ∈ letters, cell c < (p.bindLetters names letters).cells.length ∧ (p.bindLetters names letters).text (cell c) = letterText c) ∧
      ∀ x, x < p.cells.length → (∀ c ∈ letters, p.text x ≠ [c]) →
        (p.bindLetters names letters).text x = Source.substitute names (tokens letters cell) (p.text x) := by
  obtain ⟨cell, hall⟩ := h.consistent.bindLetters hnames hletters hdistinct
  exact ⟨fun x hx n c hc hn => hall.protected hnames hletters hx hn hc, cell, hall.cells, hall.old⟩

/-- In `a\arctan+fab` the letter `a` is bound at the front, and neither in the command nor in the name `fab`. -/
theorem Reached.bindLetters_hygienic_arctan :
    ∃ k, ((Pool.empty.setText 0 "a\\arctan+fab".toList).bindLetters ["fab".toList] ['a']).text k = ['a'] ∧
      ((Pool.empty.setText 0 "a\\arctan+fab".toList).bindLetters ["fab".toList] ['a']).text 0 =
        Index.token k ++ "\\arctan+fab".toList := by
  have hreached : (Pool.empty.setText 0 "a\\arctan+fab".toList).Reached := .setText .empty (by decide) _
  have hletters : ∀ l ∈ ['a'], l.isLower = true := by simp
  have hnames : ∀ name ∈ ["fab".toList], name ≠ [] ∧ ∀ d ∈ name, d.isAlpha = true := by simp
  have htext : (Pool.empty.setText 0 "a\\arctan+fab".toList).text 0 = "a\\arctan+fab".toList := by decide +kernel
  obtain ⟨-, cell, hcells, hold⟩ := hreached.bindLetters_hygienic hletters (List.nodup_singleton 'a') hnames
  refine ⟨cell 'a', (hcells 'a' (by simp)).2, ?_⟩
  rw [hold 0 (by rw [length_cells_setText]; decide) (by rw [htext]; simp), htext]
  rfl

end

end FormulaDag.Pool
