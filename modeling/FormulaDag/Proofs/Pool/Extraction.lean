import FormulaDag.Proofs.Pool.Reduction
import FormulaDag.Proofs.Pool.Slack
import FormulaDag.Proofs.Rule.Cutting

/-!
# Extractions

An extraction takes a part out of the text of a cell and gives it a cell of its own, unless there is one already. It uses up characters,
and the number of characters and marks that are left bounds how many extractions can follow.
-/

namespace FormulaDag

namespace Line

/-- A line with a character has plain characters. -/
theorem charCount_pos_of_mem {s : Line} {c : Char} (h : .char c ∈ s) : 0 < s.charCount :=
  List.countP_pos_iff.2 ⟨_, h, rfl⟩

/-- A line whose text begins with a plain character has plain characters. -/
theorem charCount_pos_of_text {s : Line} {c : Char} {w : Text} (h : s.text = c :: w) (hc : c ≠ '@') : 0 < s.charCount := by
  cases s with
  | nil => cases h
  | cons m s =>
    cases m with
    | char d => exact charCount_pos_of_mem List.mem_cons_self
    | ref k =>
      rw [text_cons, Mark.text, Index.token_eq, List.cons_append, List.cons.injEq] at h
      exact absurd h.1.symm hc

end Line

/-- What a rule matches is not made of tokens alone. -/
theorem RuleSet.charCount_pos (s : RuleSet) {r : Rule} (hr : r ∈ s.rules) {t : Text} {h : Hit} (hh : h ∈ r.pattern.hits t) {m : Line}
    (hm : m.text = h.taken) : 0 < m.charCount := by
  have hbegins : ∀ {accepts : Char → Bool}, r.pattern.Begins accepts → accepts '@' = false → 0 < m.charCount := by
    intro accepts hbegins hat
    obtain ⟨c, taken, -, -, htaken, hc⟩ := hbegins t h hh
    refine Line.charCount_pos_of_text (hm.trans htaken) ?_
    rintro rfl
    rw [hat] at hc
    cases hc
  rcases List.mem_append.1 hr with hr | hr
  · obtain ⟨f, -, rfl⟩ := List.mem_map.1 hr
    exact hbegins f.begins_rule rfl
  · rcases Rule.begins_standard hr with rfl | rfl | ⟨hword, -⟩
    · rw [Rule.hits_power, List.mem_flatMap] at hh
      obtain ⟨base, -, hh⟩ := hh
      obtain ⟨k, hk, heq⟩ := List.mem_map.1 hh
      obtain ⟨sign, hsign, _, -, hkeq⟩ := Pattern.mem_hits_sequence hk
      have hcaret : '^' ∈ m.text := by
        rw [hm, ← heq, hkeq, (Pattern.mem_hits_literal hsign).2.1]
        simp
      refine Line.charCount_pos_of_mem (c := '^') (by_contra fun hnot => ?_)
      exact Line.not_mem_text (by decide) (by decide) (by decide) hnot hcaret
    · exact hbegins (.named .run) (by decide)
    · exact hbegins hword (by decide)

namespace Pool

/-- The characters of all texts, each counted as often as its text has marks. -/
def work (p : Pool) : Nat := p.total fun t => Token.plainCount t * (Token.pieces t).length

/-- A text has no more pieces than characters. -/
theorem length_pieces_le (t : Text) : (Token.pieces t).length ≤ t.length := by
  fun_induction Token.pieces t with
  | case1 t digits rest hsplit ih =>
    have := Token.length_of_split? hsplit
    rw [List.length_cons]
    omega
  | case2 => simp
  | case3 c rest hsplit ih =>
    rw [List.length_cons, List.length_cons]
    omega

/-- The work that a pool takes is within the bound on its reduction. -/
theorem work_le_reductionBound (p : Pool) : p.holders.length + 2 * p.work + 1 ≤ p.reductionBound := by
  have hsum : p.work ≤ (p.holders.map fun i => Nat.pow (2 * (p.text i).length) 2).sum := by
    refine List.sum_le_sum fun x _ => ?_
    have hproduct := Nat.mul_le_mul (Token.plainCount_le_length (p.text x)) (length_pieces_le (p.text x))
    have hsquare : Nat.pow (2 * (p.text x).length) 2 = 4 * ((p.text x).length * (p.text x).length) := by
      change (2 * (p.text x).length) ^ 2 = _
      ring
    simp only at hproduct ⊢
    omega
  rw [reductionBound, ← List.sum_eq_foldr]
  omega

/-- The work on a text is its plain characters times its pieces. -/
theorem Writes.work_eq {p : Pool} {x : Nat} {s : Line} (h : p.Writes x s) :
    Token.plainCount (p.text x) * (Token.pieces (p.text x)).length = s.charCount * s.length := by
  rw [h.text, h.within.plainCount_eq, h.within.pieces_eq, List.length_map]

/-- A pool whose texts are lines. -/
structure Written (p : Pool) : Prop where
  sound : p.Sound
  written : ∀ x, p.holds x = true → ∃ s, p.Writes x s

/-- A pool after a part of the text of a cell was given a cell of its own. -/
structure Extracted (p q : Pool) (i k : Nat) (created : Bool) (a m b : Line) : Prop where
  written : q.Written
  length : q.cells.length = p.cells.length + created.toNat
  fresh : created = true → k = p.cells.length
  found : created = false → p.Writes k m
  child : q.Writes k m
  other : k ≠ i
  target : q.Writes (q.resolve i) (a ++ .ref k :: b)
  kept : ∀ x u, x ≠ i → p.Writes x u → q.Writes x u
  before : ∀ x u, q.Writes x u → x ≠ i → p.Writes x u ∨ x = k ∧ u = m ∧ created = true
  resolve : ∀ x, x < p.cells.length → q.resolve x = if p.resolve x = i then q.resolve i else p.resolve x
  work : q.work < p.work

section
variable {p q : Pool} {i k : Nat} {created : Bool} {a m b : Line}

/-- Cutting work in two, with one more piece for the rest, makes it less. -/
theorem work_lt {n n' l l' : Nat} (hn : 0 < n) (hl : 0 < l) (hl' : 0 < l') : n * l + n' * (l' + 1) < (n + n') * (l + l') := by
  have hown : n * l + 1 ≤ n * (l + l') := by
    rw [Nat.mul_add]
    exact Nat.add_le_add_left (Nat.mul_pos hn hl') _
  have hrest : n' * (l' + 1) ≤ n' * (l + l') := Nat.mul_le_mul_left _ (by omega)
  rw [Nat.add_mul]
  omega

/-- Putting a line into a pool adds the work for it at most. -/
theorem work_intern_le (hsound : p.Sound) (hm : m.Within p.cells.length) :
    (p.intern m.text).pool.work ≤ p.work + m.charCount * m.length := by
  rcases intern_cases p m.text with ⟨k, -, heq⟩ | ⟨-, heq⟩
  · rw [heq]
    exact Nat.le_add_right _ _
  · rw [heq, work, total_add _ hsound, hm.plainCount_eq, hm.pieces_eq, List.length_map]
    exact Nat.le_refl _

/-- The index of a line is that of a new cell if one was made for it, and otherwise that of an old cell with the line. -/
theorem intern_index (hsound : p.Sound) (hm : m.Within p.cells.length) (hne : m ≠ []) :
    (p.intern m.text).pool.cells.length = p.cells.length + (p.intern m.text).created.toNat ∧
      ((p.intern m.text).created = true → (p.intern m.text).index = p.cells.length) ∧
      ((p.intern m.text).created = false → p.Writes (p.intern m.text).index m) := by
  have hholding := hsound.holding hm hne
  rcases intern_cases p m.text with ⟨k, hfound, heq⟩ | ⟨-, heq⟩
  · rw [heq] at hholding ⊢
    exact ⟨rfl, (by rintro ⟨⟩), fun _ => hholding.writes⟩
  · rw [heq]
    exact ⟨length_cells_add, fun _ => rfl, by rintro ⟨⟩⟩

/-- An index in the place of a part takes away more work than there is for the part. -/
theorem Rewritten.work_add_lt {j : Nat} (h : Rewritten p q i j (Line.text (a ++ .ref k :: b))) (hs : p.Writes i (a ++ (m ++ b)))
    (hnew : Line.Within p.cells.length (a ++ .ref k :: b)) (hm : 0 < m.charCount) (hpart : a ≠ [] ∨ b ≠ []) :
    q.work + m.charCount * m.length < p.work := by
  have hmne : m ≠ [] := by
    rintro rfl
    simp at hm
  have hlengths : 0 < a.length + b.length := by
    rcases hpart with h | h <;> have := List.length_pos_of_ne_nil h <;> omega
  have hshare := h.total_le fun t => Token.plainCount t * (Token.pieces t).length
  simp only [hs.work_eq, hnew.plainCount_eq, hnew.pieces_eq, List.length_map, Line.charCount_append, Line.charCount_ref,
    List.length_append, List.length_cons] at hshare
  have hlt := @work_lt m.charCount (a.charCount + b.charCount) m.length (a.length + b.length) hm (List.length_pos_of_ne_nil hmne)
    hlengths
  have hwhole : (a.charCount + (m.charCount + b.charCount)) * (a.length + (m.length + b.length)) =
      (m.charCount + (a.charCount + b.charCount)) * (m.length + (a.length + b.length)) := by ring
  have hrest : a.length + (b.length + 1) = a.length + b.length + 1 := by omega
  rw [hwhole, hrest] at hshare
  simp only [work]
  omega

/-- What is cut out of a written text, and is not all of it, is extracted. -/
theorem Written.extracted (h : p.Written) (hs : p.Writes i (a ++ (m ++ b))) (hm : 0 < m.charCount) (hpart : a ≠ [] ∨ b ≠ []) :
    Extracted p ((p.intern m.text).pool.setText i (Line.text (a ++ .ref (p.intern m.text).index :: b))) i (p.intern m.text).index
      (p.intern m.text).created a m b := by
  have hmne : m ≠ [] := by
    rintro rfl
    simp at hm
  have hmwithin : m.Within p.cells.length := hs.within.subset (by simp)
  have hholding := h.sound.holding hmwithin hmne
  have htotal := work_intern_le h.sound hmwithin
  obtain ⟨hlength, hfresh, hfound⟩ := intern_index h.sound hmwithin hmne
  generalize (p.intern m.text).created = created at *
  generalize (p.intern m.text).index = k at *
  generalize (p.intern m.text).pool = r at *
  have hi := hholding.kept i _ hs
  have hki : k ≠ i := by
    rintro rfl
    have hlen := congrArg List.length (hholding.writes.unique hi)
    simp only [List.length_append] at hlen
    rcases hpart with h | h <;> have := List.length_pos_of_ne_nil h <;> omega
  have hold : Line.Within r.cells.length (a ++ (m ++ b)) := hi.within
  have hnew : Line.Within r.cells.length (a ++ .ref k :: b) :=
    (hold.subset (by simp)).append (.append (s := [_]) (.ref (lt_of_holds hholding.writes.held)) (hold.subset (by simp)))
  have hne : a ++ .ref k :: b ≠ [] := by simp
  obtain ⟨j, hrewritten⟩ := hholding.sound.exists_rewritten hi.held (Line.text_ne_nil hne)
  have hreplaced := hholding.sound.replaced hi.held hnew hne
  have hwork := hrewritten.work_add_lt hi hnew hm hpart
  generalize r.setText i (Line.text (a ++ .ref k :: b)) = q at *
  constructor
  case written =>
    refine ⟨hrewritten.sound, fun x hx => ?_⟩
    by_cases hxi : x = i
    · subst hxi
      exact ⟨_, resolve_of_holds hx ▸ hreplaced.target⟩
    · rcases (hholding.held x).1 (hrewritten.held_before hx) with hx | rfl
      · obtain ⟨u, hu⟩ := h.written x hx
        exact ⟨u, hreplaced.others x u hxi (hholding.kept x u hu)⟩
      · exact ⟨m, hreplaced.others x m hxi hholding.writes⟩
  case length => exact hrewritten.length.trans hlength
  case fresh => exact hfresh
  case found => exact hfound
  case child => exact hreplaced.others k m hki hholding.writes
  case other => exact hki
  case target => exact hreplaced.target
  case kept => exact fun x u hxi hu => hreplaced.others x u hxi (hholding.kept x u hu)
  case before =>
    intro x u hu hxi
    have hru : r.Writes x u := (hrewritten.writes_iff hxi).1 hu
    rcases (hholding.held x).1 hru.held with hx | rfl
    · obtain ⟨u', hu'⟩ := h.written x hx
      exact .inl ((hholding.kept x u' hu').unique hru ▸ hu')
    · cases created with
      | true => exact .inr ⟨rfl, hru.unique hholding.writes, rfl⟩
      | false => exact .inl (hholding.writes.unique hru ▸ hfound rfl)
  case resolve =>
    intro x hx
    have hxr : x < r.cells.length := Nat.lt_of_lt_of_le hx hholding.grows.length_le
    rw [hrewritten.resolve x hxr, hrewritten.resolve_self, hholding.resolve x hx]
  case work => omega

end

end Pool

end FormulaDag
