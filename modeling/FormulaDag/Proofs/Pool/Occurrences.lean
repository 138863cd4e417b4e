import FormulaDag.Proofs.Pool.Binding
import FormulaDag.Proofs.Source.Protection

/-!
# Occurrences of letters in lines

A mark of a line is protected when its characters are. A token is a sign to the mask, whatever its index, so binding a letter and giving
indices other names change marks but not which of them are protected.
-/

namespace FormulaDag

/-- The character that a mark is to the mask of its text. -/
def Mark.shade : Mark → Char
  | char c => c
  | ref _ => '@'

namespace Line

/-- For each mark of a line whether it is protected. -/
def flags (names : List Text) (s : Line) : List Bool := Source.protection names (s.map Mark.shade)

/-- The marks of a line, each with a flag that tells whether it is protected. -/
def marked (names : List Text) (s : Line) : List (Mark × Bool) := s.zip (flags names s)

/-- A line with the unprotected occurrences of a letter replaced by references to an index. -/
def bind (names : List Text) (letter : Char) (i : Nat) (s : Line) : Line :=
  (marked names s).map fun (m, isProtected) => if m = .char letter && !isProtected then .ref i else m

section
variable {names : List Text} {letter : Char} {i : Nat} {s : Line}

/-- There is a flag for every mark. -/
theorem length_flags : (flags names s).length = s.length := by rw [flags, Source.length_protection, List.length_map]

/-- Marked marks are the marks of the line. -/
theorem map_fst_marked (names : List Text) (s : Line) : (marked names s).map Prod.fst = s :=
  List.map_fst_zip (by rw [length_flags])

/-- Marked marks have the flags of the line. -/
theorem map_snd_marked (names : List Text) (s : Line) : (marked names s).map Prod.snd = flags names s :=
  List.map_snd_zip (by rw [length_flags])

/-- Giving indices other names keeps the flags. -/
theorem flags_relabel (f : Nat → Nat) : flags names (s.map (Mark.relabel f)) = flags names s := by
  have hshade : Mark.shade ∘ Mark.relabel f = Mark.shade := by
    funext m
    cases m <;> rfl
  rw [flags, List.map_map, hshade, flags]

/-- Relabelling keeps the flags. -/
theorem marked_relabel (f : Nat → Nat) :
    marked names (s.map (Mark.relabel f)) = (marked names s).map fun e => (e.1.relabel f, e.2) := by
  rw [marked, flags_relabel, List.zip_map_left, marked]
  rfl

/-- Binding by the flags is binding the letter. -/
theorem bound_bind (names : List Text) (letter : Char) (i : Nat) (s : Line) : Bound letter i s (bind names letter i s) := by
  have hmap : List.Forall₂ (fun m m' => m' = m ∨ (m = .char letter ∧ m' = .ref i)) ((marked names s).map Prod.fst)
      (bind names letter i s) := by
    rw [bind, List.forall₂_map_left_iff, List.forall₂_map_right_iff, List.forall₂_same]
    rintro ⟨m, flag⟩ -
    simp only [Bool.and_eq_true, decide_eq_true_eq]
    split
    · rename_i hcond
      exact .inr ⟨hcond.1, rfl⟩
    · exact .inl rfl
  rwa [map_fst_marked] at hmap

/-- Binding makes no line a single character that was not one. -/
theorem eq_of_bind_eq_char {d : Char} (h : bind names letter i s = [.char d]) : s = [.char d] := by
  have hbound := bound_bind names letter i s
  rw [h] at hbound
  obtain ⟨m, l, hm, hl, rfl⟩ := List.forall₂_cons_right_iff.1 hbound
  obtain rfl := List.forall₂_nil_right_iff.1 hl
  rcases hm with hm | ⟨-, hm⟩
  · rw [hm]
  · cases hm

section
variable (hnames : ∀ name ∈ names, name ≠ [] ∧ ∀ d ∈ name, d.isAlpha = true)
include hnames

/-- Every character of a mark is protected when the mark is. -/
theorem marked_text (s : Line) :
    Source.marked names (text s) = (marked names s).flatMap fun e => e.1.text.map fun c => (c, e.2) := by
  induction hn : s.length using Nat.strong_induction_on generalizing s with
  | _ n ih =>
    subst hn
    by_cases h : ∃ k, .ref k ∈ s
    · obtain ⟨k, hk⟩ := h
      obtain ⟨a, b, rfl⟩ := List.append_of_mem hk
      have htext : Source.marked names (text (a ++ .ref k :: b)) =
          Source.marked names (text a) ++ ((Index.token k).map (·, false) ++ Source.marked names (text b)) := by
        have hflags : (Index.token k).zip (List.replicate (Index.token k).length false) = (Index.token k).map (·, false) := by
          rw [← List.map_const', ← List.zip_map', List.map_id']
        rw [text_append, text_cons, Source.marked, Mark.text, Source.protection_append_signs hnames (Index.token_ne_nil k) fun _ => Index.sign_of_mem_token,
          List.zip_append (Source.length_protection _ _).symm, List.zip_append (by simp), hflags]
        rfl
      have hline : marked names (a ++ .ref k :: b) = marked names a ++ (.ref k, false) :: marked names b := by
        rw [marked, flags, List.map_append, List.map_cons, Mark.shade, Source.protection_append_sign hnames rfl (by decide),
          List.zip_append (by rw [Source.length_protection, List.length_map])]
        rfl
      rw [htext, hline, ih a.length (by simp) a rfl, ih b.length (by simp; omega) b rfl, List.flatMap_append, List.flatMap_cons]
      rfl
    · have hchars : ∀ e ∈ marked names s, (e.1.text.map fun c => (c, e.2)) = [(e.1.shade, e.2)] := by
        rintro ⟨m, flag⟩ he
        cases m with
        | char c => rfl
        | ref k => exact absurd ⟨k, List.of_mem_zip he |>.1⟩ h
      have htext : text s = s.map Mark.shade := by
        rw [text, List.map_eq_flatMap]
        refine List.flatMap_congr fun m hm => ?_
        cases m with
        | char c => rfl
        | ref k => exact absurd ⟨k, hm⟩ h
      rw [List.flatMap_congr hchars, ← List.map_eq_flatMap, htext, Source.marked, List.zip_map_left]
      rfl

/-- Replacing a letter in a text replaces its marks in the line. -/
theorem replaceLetter_text (hlower : letter.isLower = true) (i : Nat) (s : Line) :
    Pool.replaceLetter names letter (Index.token i) (text s) = text (bind names letter i s) := by
  rw [Pool.replaceLetter, marked_text hnames, List.flatMap_assoc, text, bind, List.flatMap_map]
  refine List.flatMap_congr fun e _ => ?_
  obtain ⟨m, flag⟩ := e
  cases m with
  | char c =>
    simp only [Mark.text, List.map_cons, List.map_nil, List.flatMap_cons, List.flatMap_nil, List.append_nil, Mark.char.injEq]
    split <;> rfl
  | ref k =>
    have hkept : ∀ d ∈ Index.token k, d ≠ letter := by
      rintro d hd rfl
      exact Index.not_mem_token_of_isLower hlower hd
    rw [List.flatMap_map]
    calc (Index.token k).flatMap (fun d => if d = letter && !flag then Index.token i else [d])
        = (Index.token k).flatMap fun d => [d] := List.flatMap_congr fun d hd => by simp [hkept d hd]
      _ = Mark.text (.ref k) := by rw [List.flatMap_singleton', Mark.text]

/-- Binding a letter keeps the flags. -/
theorem flags_bind (hlower : letter.isLower = true) (i : Nat) (s : Line) : flags names (bind names letter i s) = flags names s := by
  have hat : letter ≠ '@' := by
    rintro rfl
    simp at hlower
  have hveil : (bind names letter i s).map Mark.shade = Source.veil names (· == letter) (s.map Mark.shade) := by
    rw [bind, List.map_map, Source.veil, Source.marked, List.zip_map_left, List.map_map]
    refine List.map_congr_left fun e _ => ?_
    obtain ⟨m, flag⟩ := e
    cases m with
    | char c =>
      simp only [Function.comp_apply, Mark.char.injEq, Prod.map_apply, id_eq, beq_eq_decide, apply_ite Mark.shade]
      rfl
    | ref k => simp [Mark.shade, hat.symm]
  rw [flags, hveil, Source.protection_veil hnames, flags]

/-- Binding a lowercase letter keeps the flags. -/
theorem marked_bind (hlower : letter.isLower = true) (i : Nat) (s : Line) :
    marked names (bind names letter i s) =
      (marked names s).map fun e => (if e.1 = .char letter && !e.2 then .ref i else e.1, e.2) := by
  rw [marked, flags_bind hnames hlower, bind, ← map_snd_marked names s, List.zip_map']

end

end

end Line

end FormulaDag
