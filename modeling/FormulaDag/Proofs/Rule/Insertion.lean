import FormulaDag.Proofs.Evaluation.Recursion
import FormulaDag.Proofs.Source.Absence

/-!
# A further function in a rule set

A function whose name does not occur in a text is found nowhere in it. Registered at any place among others, it moves the rules behind it
on by one number and changes nothing else about which rule describes the text.
-/

namespace FormulaDag

/-- The occurrence under another number of its rule. -/
def Occurrence.renumber (φ : Nat → Nat) (o : Occurrence) : Occurrence := { o with rule := φ o.rule }

/-- The located occurrence under another number of its rule. -/
def Located.renumber (φ : Nat → Nat) (l : Located) : Located := { l with occurrence := l.occurrence.renumber φ }

namespace Rule

variable (φ : Nat → Nat) (r : Rule) (id : Nat)

theorem occurrence_renumber (behind : Text) (h : Hit) :
    r.occurrence (φ id) behind h = (r.occurrence id behind h).map (Occurrence.renumber φ) := by
  rw [occurrence_eq, occurrence_eq]
  cases r.selected h with
  | error fault => rfl
  | ok selector => cases r.slots.mapM (Slot.operand r.name h.parts) <;> rfl

/-- Where a rule occurs does not depend on its number. -/
theorem locate_renumber (t : Text) : r.locate (φ id) t = (r.locate id t).map (Option.map (Located.renumber φ)) := by
  rw [locate, locate]
  cases r.search [] t with
  | none => rfl
  | some found =>
    obtain ⟨behind, h⟩ := found
    simp only [occurrence_renumber φ r id]
    cases r.occurrence id behind h <;> rfl

theorem findWhole_renumber (t : Text) : r.findWhole (φ id) t = (r.findWhole id t).map (Option.map (Occurrence.renumber φ)) := by
  rw [findWhole, findWhole, find, find, locate_renumber φ r id]
  cases r.locate id t with
  | error fault => rfl
  | ok found =>
    cases found with
    | none => rfl
    | some l =>
      have hwhole : (l.occurrence.renumber φ).isWhole t = l.occurrence.isWhole t := rfl
      simp only [Except.map, Option.map_some, Located.renumber, Option.filter, hwhole]
      rw [apply_ite (Option.map (Occurrence.renumber φ)), Option.map_some, Option.map_none]

variable {r}

/-- A pattern that matches nowhere is not found. -/
theorem search_eq_none {behind t : Text} (h : ∀ v, v <:+ t → r.pattern.first? v = none) : r.search behind t = none := by
  induction t generalizing behind with
  | nil => rw [search, h [] List.suffix_rfl]
  | cons c rest ih =>
    rw [search, h _ List.suffix_rfl]
    exact ih fun v hv => h v (hv.trans (List.suffix_cons c rest))

end Rule

namespace UserFunction

theorem isName (f : UserFunction) : f.name.IsName := ⟨f.nonempty, List.all_eq_true.1 f.letters⟩

/-- A function is not found in a text that lacks its name. -/
theorem locate_of_lacks (f : UserFunction) (id : Nat) {t : Text} (h : f.name.Lacks t) : f.rule.locate id t = .ok none := by
  have hfirst : ∀ v, v <:+ t → f.rule.pattern.first? v = none := by
    intro v hv
    rw [Pattern.first?, List.head?_eq_none_iff, List.eq_nil_iff_forall_not_mem]
    intro hit hmem
    obtain ⟨k, hk, -⟩ := Pattern.mem_hits_sequence hmem
    obtain ⟨m, hm, l, hl, -⟩ := Pattern.mem_hits_sequence hk
    have hslash : (Pattern.optional (.word "\\")).IsAligned := .optional (.literal (by decide))
    obtain ⟨hv', -, -⟩ := hslash.hit hm
    obtain ⟨hname, -, -⟩ := Pattern.mem_hits_literal hl
    exact h (List.IsInfix.trans ⟨m.taken, l.rest, by rw [hv', hname, List.append_assoc]⟩ hv.isInfix)
  rw [Rule.locate, Rule.search_eq_none hfirst]

end UserFunction

namespace RuleSet

theorem resolveWith_renumber (φ : Nat → Nat) (t : Text) (l : List (Nat × Rule)) :
    resolveWith t (l.map (Prod.map φ id)) = (resolveWith t l).map (Option.map (Occurrence.renumber φ)) := by
  induction l with
  | nil => rfl
  | cons e rest ih =>
    obtain ⟨id, r⟩ := e
    rw [List.map_cons, Prod.map_apply, resolveWith, resolveWith, id_eq, r.findWhole_renumber φ id]
    cases r.findWhole id t with
    | error fault => rfl
    | ok found =>
      cases found with
      | none => exact ih
      | some o => rfl

/-- A rule that does not describe the text may be left out. -/
theorem resolveWith_skip {t : Text} {id : Nat} {r : Rule} (h : r.findWhole id t = .ok none) (l l' : List (Nat × Rule)) :
    resolveWith t (l ++ (id, r) :: l') = resolveWith t (l ++ l') := by
  induction l with
  | nil => rw [List.nil_append, List.nil_append, resolveWith, h]
  | cons e rest ih =>
    obtain ⟨id', r'⟩ := e
    rw [List.cons_append, List.cons_append, resolveWith, resolveWith, ih]

/-- The number of a rule once a further one has taken the given number. -/
def shift (n : Nat) (id : Nat) : Nat := if id < n then id else id + 1

section
variable {s s' : RuleSet} {f : UserFunction} {before after : List UserFunction} (hs : s.functions = before ++ after)
  (hs' : s'.functions = before ++ f :: after)
include hs hs'

theorem rules_insert : ∃ first last, s.rules = first ++ last ∧ s'.rules = first ++ f.rule :: last ∧ first.length = before.length :=
  ⟨before.map UserFunction.rule, after.map UserFunction.rule ++ Rule.standard, by simp [rules, hs], by simp [rules, hs'], List.length_map _⟩

/-- The rules keep their order and are found under their new numbers. -/
theorem get?_shift (id : Nat) : s'.get? (shift before.length id) = s.get? id := by
  obtain ⟨first, last, hrules, hrules', hlength⟩ := rules_insert hs hs'
  rw [get?, get?, hrules, hrules', ← hlength, shift]
  split
  · rename_i hlt
    rw [List.getElem?_append_left hlt, List.getElem?_append_left hlt]
  · rename_i hle
    rw [List.getElem?_append_right (by omega), List.getElem?_append_right (by omega),
      show id + 1 - first.length = (id - first.length) + 1 from by omega, List.getElem?_cons_succ]

/-- The rules with their new numbers, and the further one among them. -/
theorem numbered_insert : ∃ first last, s.numbered = first ++ last ∧
    s'.numbered = first.map (Prod.map (shift before.length) id) ++
      (before.length, f.rule) :: last.map (Prod.map (shift before.length) id) := by
  obtain ⟨first, last, hrules, hrules', hlength⟩ := rules_insert hs hs'
  have hswap : ∀ s : RuleSet, s.numbered = s.rules.zipIdx.map Prod.swap := fun _ => rfl
  refine ⟨first.zipIdx.map Prod.swap, (last.zipIdx first.length).map Prod.swap, ?_, ?_⟩
  · rw [hswap, hrules, List.zipIdx_append, List.map_append, Nat.zero_add]
  · have hfirst : ∀ e ∈ first.zipIdx, shift first.length e.2 = e.2 := fun e he =>
      if_pos (by have := List.snd_lt_of_mem_zipIdx he; omega)
    have hlast : ∀ e ∈ last.zipIdx first.length, shift first.length e.2 = e.2 + 1 := fun e he =>
      if_neg (by have := List.le_snd_of_mem_zipIdx he; omega)
    rw [hswap, hrules', ← hlength, List.zipIdx_append, List.map_append, List.zipIdx_cons, List.map_cons, List.map_map, List.map_map,
      Nat.zero_add, List.zipIdx_succ, List.map_map]
    congr 1
    · exact List.map_congr_left fun e he => Prod.ext (hfirst e he).symm rfl
    · congr 1
      exact List.map_congr_left fun e he => Prod.ext (hlast e he).symm rfl

/-- The same rule describes a text that lacks the name of the further function. -/
theorem resolve_insert {t : Text} (h : f.name.Lacks t) :
    s'.resolve t = (s.resolve t).map (Option.map (Occurrence.renumber (shift before.length))) := by
  obtain ⟨first, last, hnumbered, hnumbered'⟩ := numbered_insert hs hs'
  have hnone : f.rule.findWhole before.length t = .ok none := by
    rw [Rule.findWhole, Rule.find, f.locate_of_lacks _ h]
    rfl
  rw [resolve, resolve, hnumbered', resolveWith_skip hnone, ← List.map_append, ← hnumbered, resolveWith_renumber]

end

end RuleSet

end FormulaDag
