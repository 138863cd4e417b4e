import FormulaDag.Proofs.Source.Protection

/-!
# Substitution for unprotected characters

The texts that are put in place of unprotected characters consist of signs: neither letters nor backslashes. So the mask of a text shows
again in the text after a substitution, with the new signs unprotected, and substitutions that are made one after the other are one
substitution.
-/

namespace FormulaDag.Source

/-- A text with some of its unprotected characters replaced. -/
def substitute (names : List Text) (σ : Char → Option Text) (t : Text) : Text :=
  (marked names t).flatMap fun (c, isProtected) => if isProtected then [c] else (σ c).getD [c]

/-- What a character of a text becomes in a substitution, with the flags that it has then. -/
def put (σ : Char → Option Text) : Char × Bool → List (Char × Bool)
  | (c, true) => [(c, true)]
  | (c, false) => ((σ c).getD [c]).map (·, false)

/-- Every replacement is a text of signs. -/
def Signs (σ : Char → Option Text) : Prop := ∀ c s, σ c = some s → s ≠ [] ∧ ∀ d ∈ s, d.isAlpha = false ∧ d ≠ '\\'

/-- The replacement of one character. -/
def single (letter : Char) (s : Text) (c : Char) : Option Text := if c = letter then some s else none

section
variable {names : List Text} {σ τ : Char → Option Text} {t : Text}

/-- The marked characters are those of the text. -/
theorem map_fst_marked (names : List Text) (t : Text) : (marked names t).map Prod.fst = t := by
  rw [marked, List.map_fst_zip (by rw [length_protection])]

theorem map_fst_put (e : Char × Bool) : (put σ e).map Prod.fst = if e.2 then [e.1] else (σ e.1).getD [e.1] := by
  obtain ⟨c, flag⟩ := e
  cases flag <;> simp [put, Function.comp_def]

/-- Substituting puts a text for every character that is not flagged. -/
theorem substitute_eq_map_put (names : List Text) (σ : Char → Option Text) (t : Text) :
    substitute names σ t = ((marked names t).flatMap (put σ)).map Prod.fst := by
  rw [List.map_flatMap]
  exact List.flatMap_congr fun e _ => (map_fst_put e).symm

/-- A character without a text stays. -/
theorem put_of_eq_none {e : Char × Bool} (h : σ e.1 = none) : put σ e = [e] := by
  obtain ⟨c, flag⟩ := e
  cases flag
  · simp [put, show σ c = none from h]
  · rfl

/-- A text in which no unprotected character is replaced stays as it is. -/
theorem flatMap_put_eq_self {l : List (Char × Bool)} (h : ∀ e ∈ l, e.2 = false → σ e.1 = none) : l.flatMap (put σ) = l := by
  have hput : ∀ e ∈ l, put σ e = [e] := by
    intro e he
    obtain ⟨c, flag⟩ := e
    cases flag
    · exact put_of_eq_none (h _ he rfl)
    · rfl
  rw [List.flatMap_congr hput, List.flatMap_singleton']

/-- A text without characters to substitute stays. -/
theorem substitute_eq_self (h : ∀ c ∈ t, σ c = none) : substitute names σ t = t := by
  have hkept : ∀ e ∈ marked names t, e.2 = false → σ e.1 = none := fun e he _ => h e.1 (List.of_mem_zip he).1
  rw [substitute_eq_map_put, flatMap_put_eq_self hkept, map_fst_marked]

/-- A substitution that changes a text puts something in. -/
theorem exists_subset_of_substitute_ne (h : substitute names σ t ≠ t) : ∃ c s, σ c = some s ∧ s ⊆ substitute names σ t := by
  by_contra hnone
  refine h ?_
  rw [substitute_eq_map_put, flatMap_put_eq_self fun e he hflag => ?_, map_fst_marked]
  refine Option.eq_none_iff_forall_ne_some.2 fun s hs => hnone ⟨e.1, s, hs, fun d hd => ?_⟩
  obtain ⟨c, flag⟩ := e
  obtain rfl : flag = false := hflag
  exact List.mem_flatMap.2 ⟨_, he, by simpa [show σ c = some s from hs] using hd⟩

variable (hnames : ∀ name ∈ names, name ≠ [] ∧ ∀ d ∈ name, d.isAlpha = true)
include hnames

/-- The mask of a text is also that of the text after a substitution, except that the new signs are unprotected. -/
theorem marked_substitute (hσ : Signs σ) (t : Text) : marked names (substitute names σ t) = (marked names t).flatMap (put σ) := by
  rw [substitute_eq_map_put]
  induction hn : t.length using Nat.strong_induction_on generalizing t with
  | _ n ih =>
    subst hn
    by_cases h : ∃ a c b s, t = a ++ c :: b ∧ (protection names t)[a.length]? = some false ∧ σ c = some s
    · -- the replaced character cuts the mask before the substitution, its signs cut it afterwards
      obtain ⟨a, c, b, s, rfl, hflag, hs⟩ := h
      obtain ⟨hne, hsigns⟩ := hσ c s hs
      have hput : put σ (c, false) = s.map (·, false) := by rw [put, hs, Option.getD_some]
      have hflags : s.zip (List.replicate s.length false) = s.map (·, false) := by
        rw [← List.map_const', ← List.zip_map', List.map_id']
      have hcut : ∀ a' b' : Text, marked names (a' ++ (s ++ b')) = marked names a' ++ (s.map (·, false) ++ marked names b') := by
        intro a' b'
        rw [marked, protection_append_signs hnames hne hsigns, List.zip_append (length_protection _ _).symm, List.zip_append (by simp),
          hflags]
        rfl
      rw [marked_append hflag, List.flatMap_append, List.flatMap_cons, List.map_append, List.map_append, hput, List.map_map,
        show Prod.fst ∘ (fun d : Char => (d, false)) = id from rfl, List.map_id, hcut, ih a.length (by simp) a rfl,
        ih b.length (by simp; omega) b rfl]
    · have hkept : ∀ e ∈ marked names t, e.2 = false → σ e.1 = none := by
        intro e he hflag
        obtain ⟨i, hi, rfl⟩ := List.mem_iff_getElem.1 he
        simp only [marked, List.length_zip, length_protection, Nat.min_self] at hi
        simp only [marked, List.getElem_zip] at hflag ⊢
        refine Option.eq_none_iff_forall_ne_some.2 fun s hs => h ⟨t.take i, t[i], t.drop (i + 1), s, by simp, ?_, hs⟩
        rw [List.length_take, Nat.min_eq_left (Nat.le_of_lt hi), List.getElem?_eq_getElem (by rwa [length_protection]), hflag]
      rw [flatMap_put_eq_self hkept, map_fst_marked]

/-- Two substitutions, the second of which leaves the signs of the first alone, are one. -/
theorem substitute_substitute (hσ : Signs σ) (hτ : ∀ c s, σ c = some s → ∀ d ∈ s, τ d = none) (t : Text) :
    substitute names τ (substitute names σ t) = substitute names (fun c => (σ c).or (τ c)) t := by
  rw [substitute_eq_map_put, marked_substitute hnames hσ, List.flatMap_assoc, substitute_eq_map_put]
  refine congrArg _ (List.flatMap_congr fun e _ => ?_)
  obtain ⟨c, flag⟩ := e
  cases flag
  · cases hc : σ c with
    | none => simp [put, hc]
    | some s =>
      have hkept : ∀ d ∈ s.map (·, false), put τ d = [d] := by
        intro d hd
        obtain ⟨d', hd', rfl⟩ := List.mem_map.1 hd
        exact put_of_eq_none (hτ c s hc d' hd')
      simp only [put, hc, Option.getD_some, Option.some_or]
      rw [List.flatMap_congr hkept, List.flatMap_singleton']
  · rfl

/-- After a substitution the characters that it replaces occur as protected characters only. -/
theorem protection_of_substitute (hσ : Signs σ) (hnew : ∀ c s, σ c = some s → ∀ d ∈ s, σ d = none) {n : Nat} {c : Char}
    (hc : (substitute names σ t)[n]? = some c) (hreplaced : σ c ≠ none) : (protection names (substitute names σ t))[n]? = some true := by
  have hlt : n < (protection names (substitute names σ t)).length := by
    rw [length_protection]
    exact (List.getElem?_eq_some_iff.1 hc).1
  have hmem : (c, (protection names (substitute names σ t))[n]) ∈ marked names (substitute names σ t) := by
    refine List.mem_of_getElem? (i := n) ?_
    rw [marked, List.getElem?_zip_eq_some]
    exact ⟨hc, List.getElem?_eq_getElem hlt⟩
  rw [List.getElem?_eq_getElem hlt]
  generalize (protection names (substitute names σ t))[n] = flag at hmem ⊢
  rw [marked_substitute hnames hσ] at hmem
  obtain ⟨⟨d, flag'⟩, -, hmem⟩ := List.mem_flatMap.1 hmem
  cases flag'
  · obtain ⟨d', hd', heq⟩ := List.mem_map.1 hmem
    obtain ⟨rfl, rfl⟩ := Prod.mk.inj heq
    cases hd : σ d with
    | none =>
      rw [hd, Option.getD_none, List.mem_singleton] at hd'
      exact absurd (hd' ▸ hd) hreplaced
    | some s =>
      rw [hd] at hd'
      exact absurd (hnew d s hd d' hd') hreplaced
  · obtain ⟨rfl, rfl⟩ := Prod.mk.inj (List.mem_singleton.1 hmem)
    rfl

end

end FormulaDag.Source
