import FormulaDag.Proofs.Pool.Occurrences
import FormulaDag.Proofs.Rule.Renaming

/-!
# Letters of words

An unprotected letter stands outside of command words: the letters right before it do not lead back to a backslash. The letters of a
name are protected where the name begins a text. Lines and what their marks are to the mask agree about this.
-/

namespace FormulaDag

namespace Command

/-- Letters lead on to what stands before them. -/
theorem isInside_concat (t : Text) (d : Char) : isInside (t ++ [d]).reverse = if d.isAlpha then isInside t.reverse else d == '\\' := by
  rw [List.reverse_append, List.reverse_singleton, List.singleton_append, isInside, List.dropWhile_cons]
  split
  · rfl
  · rfl

theorem isInside_cons (d : Char) (t : Text) : isInside (d :: t).reverse =
    if t.all Char.isAlpha then d == '\\' else isInside t.reverse := by
  rw [List.reverse_cons, isInside, List.dropWhile_append]
  by_cases ht : t.all Char.isAlpha = true
  · have hnil : t.reverse.dropWhile Char.isAlpha = [] :=
      List.dropWhile_eq_nil_iff.2 fun c hc => List.all_eq_true.1 ht c (List.mem_reverse.1 hc)
    rw [if_pos ht, hnil, List.isEmpty_nil, if_pos rfl, List.dropWhile_cons]
    split
    · rename_i hd
      have hne : d ≠ '\\' := by
        rintro rfl
        simp at hd
      simp [hne]
    · rfl
  · have hcons : t.reverse.dropWhile Char.isAlpha ≠ [] := fun hnil => ht (List.all_eq_true.2 fun c hc =>
      List.dropWhile_eq_nil_iff.1 hnil c (List.mem_reverse.2 hc))
    obtain ⟨x, u, hu⟩ := List.exists_cons_of_ne_nil hcons
    rw [if_neg ht, isInside, hu]
    rfl

end Command

namespace Source
variable {names : List Text} {name t b : Text} {c : Char}

/-- A letter is protected when it goes on with a command word. -/
theorem getElem?_commandMask (inWord : Bool) (t b : Text) (hc : c.isAlpha = true) : (commandMask inWord (t ++ c :: b))[t.length]? =
    some (Command.isInside t.reverse || (t.all Char.isAlpha && inWord)) := by
  induction t generalizing inWord with
  | nil =>
    have hne : c ≠ '\\' := by
      rintro rfl
      simp at hc
    cases inWord <;> simp [commandMask, hne, hc, Command.isInside]
  | cons d t ih =>
    rw [List.cons_append, commandMask, List.length_cons, Command.isInside_cons, List.all_cons]
    split
    · rename_i hd
      subst hd
      rw [List.getElem?_cons_succ, ih]
      by_cases hall : t.all Char.isAlpha = true
      · simp [hall]
      · simp [hall]
    · rename_i hd
      split
      · rename_i hword
        obtain ⟨rfl, hletter⟩ := Bool.and_eq_true_iff.1 hword
        rw [List.getElem?_cons_succ, ih]
        by_cases hall : t.all Char.isAlpha = true
        · simp [hall, hletter]
        · simp [hall]
      · rename_i hword
        rw [List.getElem?_cons_succ, ih]
        by_cases hall : t.all Char.isAlpha = true
        · have hout : Command.isInside t.reverse = false := by
            rw [Command.isInside, List.dropWhile_eq_nil_iff.2 fun e he => List.all_eq_true.1 hall e (List.mem_reverse.1 he)]
            rfl
          have hfalse : (d.isAlpha && inWord) = false := by rwa [Bool.and_comm, ← Bool.not_eq_true]
          simp [hall, hout, hd, hfalse]
        · simp [hall]

/-- A letter outside of the command words does not go on with one. -/
theorem isInside_of_commandMask {inWord : Bool} (hc : c.isAlpha = true) (h : (commandMask inWord (t ++ c :: b))[t.length]? = some false) :
    Command.isInside t.reverse = false ∧ (t.all Char.isAlpha = true → inWord = false) := by
  rw [getElem?_commandMask inWord t b hc, Option.some.injEq, Bool.or_eq_false_iff, Bool.and_eq_false_iff] at h
  exact ⟨h.1, fun hall => h.2.resolve_left (by simp [hall])⟩

/-- The letters of a name are protected where it begins a text. -/
theorem getElem?_protection_name (hname : name ∈ names) {i : Nat} (hi : i < name.length) :
    (protection names (name ++ b))[i]? = some true := by
  have hmask : (nameMask name 0 (name ++ b))[i]? = some true := by
    obtain ⟨c, rest, rfl⟩ := List.exists_cons_of_length_pos (Nat.zero_lt_of_lt hi)
    rw [List.cons_append, nameMask, if_pos (by simp [List.isPrefixOf_iff_prefix])]
    cases i with
    | zero => rfl
    | succ i => exact getElem?_nameMask_of_lt (by simpa using hi) (by simp at hi ⊢; omega)
  have hlength : i < (protection names (name ++ b)).length := by
    rw [length_protection, List.length_append]
    omega
  rw [List.getElem?_eq_getElem hlength]
  by_contra hne
  have hfalse : (protection names (name ++ b))[i]? = some false := by
    rw [List.getElem?_eq_getElem hlength]
    simpa using hne
  rw [(getElem?_protection_eq_false.1 hfalse).2 name hname] at hmask
  cases hmask

end Source

namespace Line
variable {names : List Text} {a b : Line} {c : Char}

theorem sameNear_shade (a : Line) : SameNear (a.map Mark.shade).reverse a.text.reverse := by
  induction a using List.reverseRecOn with
  | nil => exact .nil
  | append_singleton a m ih =>
    rw [List.map_append, List.reverse_append, text_append, List.reverse_append]
    cases m with
    | char d => exact .cons d ih
    | ref k =>
      simp only [text_cons, text_nil, Mark.text, Index.token_eq]
      simpa [Mark.shade] using SameNear.token _ _

/-- The last mark of a line leads on or not. -/
theorem isInside_concat (a : Line) (m : Mark) : Command.isInside (text (a ++ [m])).reverse =
    if m.shade.isAlpha then Command.isInside a.text.reverse else m.shade == '\\' := by
  rw [← (sameNear_shade _).isInside, ← (sameNear_shade a).isInside, List.map_append]
  exact Command.isInside_concat _ _

/-- An unprotected letter of a line is outside of command words. -/
theorem isInside_of_unprotected (hc : c.isAlpha = true) (h : (flags names (a ++ .char c :: b))[a.length]? = some false) :
    Command.isInside a.text.reverse = false := by
  rw [flags, List.map_append, List.map_cons, ← List.length_map (f := Mark.shade)] at h
  rw [← (sameNear_shade a).isInside]
  exact (Source.isInside_of_commandMask hc (Source.getElem?_protection_eq_false.1 h).1).1

end Line

end FormulaDag
