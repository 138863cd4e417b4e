import FormulaDag.Proofs.Evaluation.Locality
import FormulaDag.Proofs.Pool.OfSource
import FormulaDag.Proofs.Rule.Forms

/-!
# No line breaks in contexts

Contexts can be any text, but those that have a value are made of the characters of the notation: a variable is a lowercase letter, a
rule takes in letters, digits and marks only, and a leaf splits into lexemes. So there is no line break in a context that has a value.
-/

namespace FormulaDag

namespace Pattern

/-- Whether a pattern never takes in a character. -/
def omits (c : Char) : Pattern → Bool
  | literal word => !word.contains c
  | oneOf accepts => !accepts c
  | run accepts => !accepts c
  | sequence first second => omits c first && omits c second
  | either first second => omits c first && omits c second
  | optional inner => omits c inner
  | named _ inner => omits c inner

/-- A pattern that omits a character does not take it. -/
theorem not_mem_of_mem_hits {c : Char} {p : Pattern} (hp : p.omits c = true) {t : Text} {h : Hit} (hh : h ∈ hits p t) : c ∉ h.taken := by
  induction p generalizing t h with
  | literal word =>
    rw [(mem_hits_literal hh).2.1]
    simpa [omits] using hp
  | oneOf accepts =>
    obtain ⟨d, hd, htaken, -⟩ := mem_hits_oneOf hh
    rw [htaken, List.mem_singleton]
    rintro rfl
    simp [omits, hd] at hp
  | run accepts =>
    intro hc
    have hd := forall_mem_of_mem_hits_run hh c hc
    simp [omits, hd] at hp
  | sequence first second ihfirst ihsecond =>
    rw [omits, Bool.and_eq_true] at hp
    obtain ⟨k, hk, l, hl, htaken⟩ := exists_taken_sequence hh
    rw [htaken, List.mem_append]
    exact not_or.2 ⟨ihfirst hp.1 hk, ihsecond hp.2 hl⟩
  | either first second ihfirst ihsecond =>
    rw [omits, Bool.and_eq_true] at hp
    rw [hits, List.mem_append] at hh
    exact hh.elim (ihfirst hp.1) (ihsecond hp.2)
  | optional inner ih =>
    rcases mem_hits_optional hh with hh | rfl
    · exact ih hp hh
    · simp
  | named name inner ih =>
    obtain ⟨k, hk, htaken⟩ := exists_taken_named hh
    rw [htaken]
    exact ih hp hk

end Pattern

namespace RuleSet

/-- No rule takes a line break. -/
theorem omits_of_mem_rules {s : RuleSet} : ∀ r ∈ s.rules, r.pattern.omits '\n' = true := by
  have standard : ∀ r ∈ Rule.standard, r.pattern.omits '\n' = true := by decide +kernel
  intro r hr
  rcases List.mem_append.1 hr with hr | hr
  · obtain ⟨f, -, rfl⟩ := List.mem_map.1 hr
    have hname : f.name.contains '\n' = false := by
      refine Bool.eq_false_iff.2 fun hmem => ?_
      exact absurd (List.all_eq_true.1 f.letters _ (List.contains_iff_mem.1 hmem)) (by decide)
    have hname' : Pattern.omits '\n' (.literal f.name) = true := by rw [Pattern.omits, hname]; rfl
    have hpattern : f.rule.pattern =
        .sequence (.sequence (.optional (.word "\\")) (.literal f.name)) (.named "parameter" .token) := rfl
    rw [hpattern, Pattern.omits, Pattern.omits, hname']
    decide +kernel
  · exact standard r hr

/-- A text that a rule describes has no line break. -/
theorem newline_not_mem_of_resolve {s : RuleSet} {t : Text} {o : Occurrence} (h : s.resolve t = .ok (some o)) : '\n' ∉ t := by
  obtain ⟨id, r, hmem, hfind⟩ := resolveWith_eq_some h
  obtain ⟨hit, hfirst, htaken, -, -⟩ := Rule.findWhole_eq_some (s.isAligned r (mem_of_numbered hmem)) hfind
  rw [← htaken]
  exact Pattern.not_mem_of_mem_hits (omits_of_mem_rules r (mem_of_numbered hmem)) (List.mem_of_mem_head? hfirst)

end RuleSet

namespace Lexeme

/-- What stands before the rest of a text after its first lexeme has no line break. -/
theorem exists_append_of_first {c : Char} {rest after : Text} {lexeme : Lexeme} (h : first c rest = .ok (lexeme, after)) :
    ∃ taken, c :: rest = taken ++ after ∧ '\n' ∉ taken := by
  have split : ∀ (p : Char → Bool), p '\n' = false → c ≠ '\n' →
      c :: rest = (c :: rest.takeWhile p) ++ rest.dropWhile p ∧ '\n' ∉ c :: rest.takeWhile p := by
    intro p hp hc
    refine ⟨by rw [List.cons_append, List.takeWhile_append_dropWhile], fun hmem => ?_⟩
    rcases List.mem_cons.1 hmem with rfl | hmem
    · exact hc rfl
    · exact absurd (List.mem_takeWhile_imp hmem) (by simp [hp])
  rw [first] at h
  split at h
  · rename_i hc
    rw [number?] at h
    split at h
    · obtain ⟨-, rfl⟩ := Prod.mk.inj (Except.ok.inj h)
      exact ⟨_, split inNumber rfl (by rintro rfl; cases hc)⟩
    · cases h
  · split at h
    · rw [token?] at h
      split at h
      · cases h
      · rename_i digits after' hsplit
        split at h
        · obtain ⟨-, rfl⟩ := Prod.mk.inj (Except.ok.inj h)
          refine ⟨'@' :: '/' :: digits ++ ['/', '@'], by simpa using Token.split?_eq_some hsplit, ?_⟩
          have hdigits : '\n' ∉ digits := fun hmem => absurd ((Token.digits_of_split? hsplit).2 _ hmem) (by decide)
          simpa using hdigits
        · cases h
    · split at h
      · rename_i hc
        rw [command?] at h
        split at h
        · obtain ⟨-, rfl⟩ := Prod.mk.inj (Except.ok.inj h)
          exact ⟨_, split Char.isAlpha rfl (by rintro rfl; cases hc)⟩
        · cases h
      · split at h
        · rename_i hchar
          obtain ⟨-, rfl⟩ := Prod.mk.inj (Except.ok.inj h)
          refine ⟨[c], rfl, fun hmem => ?_⟩
          obtain rfl := List.mem_singleton.1 hmem
          cases hchar
        · cases h

/-- A text that is scanned breaks no line. -/
theorem newline_not_mem_of_scanAll {t : Text} {lexemes : List Lexeme} (h : scanAll t = .ok lexemes) : '\n' ∉ t := by
  induction hn : t.length using Nat.strong_induction_on generalizing t lexemes with
  | _ n ih =>
    subst hn
    cases t with
    | nil => simp
    | cons c rest =>
      rw [scanAll_cons] at h
      obtain ⟨⟨lexeme, after⟩, hfirst, h⟩ := bind_eq_ok.1 h
      obtain ⟨more, hmore, -⟩ := map_eq_ok.1 h
      obtain ⟨taken, heq, htaken⟩ := exists_append_of_first hfirst
      have hlength : after.length < (c :: rest).length := Nat.lt_succ_of_le (length_of_first hfirst)
      rw [heq, List.mem_append]
      exact not_or.2 ⟨htaken, ih _ hlength hmore rfl⟩

end Lexeme

namespace Evaluation

/-- The context of a node that has a value has no line break. -/
theorem newline_not_mem_of_nodeBranches {s : RuleSet} {letters : List Char} (hletters : '\n' ∉ letters) {t : Text} {n : Node}
    (hn : Dag.nodeOf s letters t = .ok n) {precision : Nat} {values : List Float} {i : Nat} {lookup : Nat → Option Branches}
    {result : Branches} (h : nodeBranches s precision values i n lookup = .ok result) : '\n' ∉ n.context := by
  obtain ⟨hcontext, -, hkind⟩ := Dag.nodeOf_eq_ok hn
  obtain ⟨raw, hraw, -⟩ := map_eq_ok.1 h
  rw [rawBranches] at hraw
  cases hk : n.kind with
  | «variable» position =>
    rw [hk, Dag.kindOf] at hkind
    rw [hcontext]
    split at hkind
    · rename_i position' hposition
      unfold Dag.letterPosition? at hposition
      split at hposition
      · rename_i c
        obtain ⟨hc, -⟩ := Option.ite_none_right_eq_some.1 hposition
        rw [List.mem_singleton]
        rintro rfl
        exact hletters hc
      · cases hposition
    · split at hkind <;> cases hkind
  | rule o =>
    rw [hcontext]
    exact RuleSet.newline_not_mem_of_resolve (Dag.resolve_of_nodeOf hn hk)
  | sum =>
    rw [hk] at hraw
    simp only [Leaf.branches] at hraw
    split at hraw
    · cases hraw
    · rename_i lexemes hscan
      rw [Lexeme.scan] at hscan
      split at hscan
      · cases hscan
      · exact Lexeme.newline_not_mem_of_scanAll hscan

end Evaluation

end FormulaDag
