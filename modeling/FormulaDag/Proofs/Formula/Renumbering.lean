import FormulaDag.Proofs.Contexts.Renumbering
import FormulaDag.Proofs.Evaluation.Renaming
import FormulaDag.Proofs.Formula.History

/-!
# Formulas of renumbered contexts

The numbers of contexts are names and nothing else. Contexts that correspond to each other have dags that do, whatever the order of their
indices, so they are compiled or refused together and the formulas answer alike.
-/

namespace FormulaDag

open Contexts (Copies Renumbered)

namespace Dag

section
variable {ρ : Nat → Nat → Prop} {s : RuleSet} {letters : List Char} {c c' : Contexts} {d d' : Dag}

/-- Copies of contexts that have nodes have nodes. -/
theorem exists_build_of_copies (h : Copies ρ c c') (hbuild : ∃ d, build s letters c = .ok d) : ∃ d', build s letters c' = .ok d' := by
  rw [exists_build_iff] at hbuild ⊢
  intro j t' ht'
  obtain ⟨i, t, -, ht, hrenamed⟩ := h.back j t' ht'
  obtain ⟨n, hn⟩ := hbuild i t ht
  obtain ⟨kind, hkind⟩ := (kindOf_renamed s letters hrenamed).exists_ok_iff.1 ⟨n.kind, (nodeOf_eq_ok hn).2.2⟩
  exact ⟨_, map_eq_ok.2 ⟨kind, hkind, rfl⟩⟩

/-- The dags of dense contexts that correspond to each other do so too. -/
theorem renamedDag_of_build (h : Renumbered ρ c c') (hdense : c.isDense = true) (hdense' : c'.isDense = true)
    (hbuild : build s letters c = .ok d) (hbuild' : build s letters c' = .ok d') : RenamedDag ρ d d' := by
  refine ⟨h.unique, fun i j hij => ?_⟩
  have hnode := node?_of_build hdense hbuild i
  have hnode' := node?_of_build hdense' hbuild' j
  cases ht : c.get? i with
  | none =>
    have ht' : c'.get? j = none := by
      by_contra hsome
      obtain ⟨t', ht'⟩ := Option.ne_none_iff_exists'.1 hsome
      obtain ⟨t, hsome, -⟩ := h.symm.get? hij ht'
      cases ht.symm.trans hsome
    rw [ht, Option.map_none, Option.map_eq_none_iff] at hnode
    rw [ht', Option.map_none, Option.map_eq_none_iff] at hnode'
    rw [hnode, hnode']
    exact .none
  | some t =>
    obtain ⟨t', ht', hrenamed⟩ := h.get? hij ht
    rw [ht, Option.map_some, Option.map_eq_some_iff] at hnode
    rw [ht', Option.map_some, Option.map_eq_some_iff] at hnode'
    obtain ⟨n, hn, hnode⟩ := hnode
    obtain ⟨n', hn', hnode'⟩ := hnode'
    have halike := nodeOf_renamed s letters h.unique hrenamed
    rw [← hnode, ← hnode'] at halike
    rw [hn, hn']
    cases halike with
    | ok hrenamed => exact .some hrenamed

end

end Dag

namespace Evaluation

/-- On contexts that correspond to each other, evaluation of the root answers alike. -/
theorem evaluate_renumbered {ρ : Nat → Nat → Prop} {rules : RuleSet} {letters : List Char} {c c' : Contexts} {d d' : Dag}
    (h : Renumbered ρ c c') (hc : c.WellShaped) (hdense : c.isDense = true) (hdense' : c'.isDense = true)
    (hbuild : Dag.build rules letters c = .ok d) (hbuild' : Dag.build rules letters c' = .ok d') (precision : Nat)
    (values : List Float) :
    Alike Eq (evaluate ⟨d, rules, precision⟩ (.ofValues values) Index.root (.empty d.size)).1
      (evaluate ⟨d', rules, precision⟩ (.ofValues values) Index.root (.empty d'.size)).1 := by
  obtain ⟨hcomputes, -⟩ := computes_evaluate (Contexts.validate_eq_ok.2 hc) hdense hbuild precision values Index.root
  obtain ⟨-, hunique⟩ := computes_evaluate (Contexts.validate_eq_ok.2 (h.wellShaped hc)) hdense' hbuild' precision values Index.root
  have hdag := Dag.renamedDag_of_build h hdense hdense' hbuild hbuild'
  obtain ⟨r', hr', halike⟩ := @Computes.renamed ρ ⟨d, rules, precision⟩ ⟨d', rules, precision⟩ rfl rfl hdag _ _ _ hcomputes _ h.root
  exact hunique r' hr' ▸ halike

end Evaluation

namespace Formula

section
variable {rules : RuleSet} {names : List Text} {c : Contexts}

/-- Valid contexts are compiled exactly when the variables can be declared and every context has a node. -/
theorem ofContexts_eq_ok_iff (hc : c.WellShaped) {f : Formula} : ofContexts rules names c = .ok f ↔
    ∃ letters dag, Source.declare rules names = .ok letters ∧ Dag.build rules letters c.compact = .ok dag ∧
      f = ⟨letters, rules, c.compact, dag, Memo.empty dag.size, Settings.standard⟩ := by
  obtain ⟨ρ, hcompact⟩ := Contexts.exists_renumbered_compact hc
  obtain ⟨order, horder⟩ := Contexts.exists_order_iff.2 (hcompact.wellShaped hc).acyclic
  constructor
  · intro h
    obtain ⟨letters, hletters, h⟩ := bind_eq_ok.1 h
    obtain ⟨_, -, h⟩ := bind_eq_ok.1 h
    obtain ⟨_, dag, -, hbuild, hf⟩ := ofParts_eq_ok h
    exact ⟨letters, dag, mapError_eq_ok.1 hletters, hbuild, hf⟩
  · rintro ⟨letters, dag, hletters, hbuild, rfl⟩
    exact bind_eq_ok.2 ⟨letters, mapError_eq_ok.2 hletters, bind_eq_ok.2 ⟨(), mapError_eq_ok.2 (Contexts.validate_eq_ok.2 hc),
      ofParts_eq horder hbuild _⟩⟩

end

/-- Formulas whose roots evaluate alike answer alike. -/
theorem call_alike {f g : Formula} (hletters : f.letters = g.letters)
    (hroot : ∀ values, Alike Eq (f.evaluation.evaluate (.ofValues values) Index.root f.memo).1
      (g.evaluation.evaluate (.ofValues values) Index.root g.memo).1) (arguments : List (Text × Argument)) (places : Nat) :
    Alike Eq (f.call arguments places).1 (g.call arguments places).1 := by
  rw [call, call, root, root, hletters]
  cases Argument.bind arguments g.letters with
  | error fault => exact .error _ _
  | ok values =>
    have halike := hroot values
    simp only
    generalize f.evaluation.evaluate (.ofValues values) Index.root f.memo = found at halike
    generalize g.evaluation.evaluate (.ofValues values) Index.root g.memo = found' at halike
    obtain ⟨answer, memo⟩ := found
    obtain ⟨answer', memo'⟩ := found'
    cases halike with
    | error => exact .error _ _
    | ok heq => exact .ok (by rw [heq])

/-- Contexts that correspond to each other are compiled together, and the formulas answer alike. -/
theorem call_renumbered {ρ : Nat → Nat → Prop} {rules : RuleSet} {names : List Text} {c c' : Contexts} (h : Renumbered ρ c c')
    (hc : c.WellShaped) {f : Formula} (hf : ofContexts rules names c = .ok f) :
    ∃ g, ofContexts rules names c' = .ok g ∧
      ∀ arguments places, Alike Eq (f.call arguments places).1 (g.call arguments places).1 := by
  obtain ⟨letters, d, hletters, hbuild, rfl⟩ := (ofContexts_eq_ok_iff hc).1 hf
  have hc' := h.wellShaped hc
  obtain ⟨σ, hcompact⟩ := Contexts.exists_renumbered_compact hc
  obtain ⟨σ', hcompact'⟩ := Contexts.exists_renumbered_compact hc'
  have hdag := hcompact.symm.trans (h.trans hcompact')
  obtain ⟨d', hbuild'⟩ := Dag.exists_build_of_copies hdag.copies ⟨d, hbuild⟩
  refine ⟨_, (ofContexts_eq_ok_iff hc').2 ⟨letters, d', hletters, hbuild', rfl⟩, call_alike rfl fun values => ?_⟩
  exact Evaluation.evaluate_renumbered hdag (hcompact.wellShaped hc) c.isDense_compact c'.isDense_compact hbuild hbuild' _ values

/-- Results do not depend on the numbers of contexts. Valid contexts stay valid under any injective renumbering that keeps the root; both
are compiled or none is; and under all arguments both formulas answer the same, or both fail. Compaction is the renumbering from zero on
in the same order, unless the contexts are numbered so already. -/
theorem call_renumber {c : Contexts} {f : Nat → Nat} (hvalid : c.validate = .ok ())
    (hinjective : ∀ i ∈ c.indices, ∀ j ∈ c.indices, f i = f j → i = j) (hroot : f Index.root = Index.root)
    (hbound : ∀ i ∈ c.indices, f i < Index.bound) (rules : RuleSet) (names : List Text) :
    (c.renumber f).validate = .ok () ∧
      ((∃ g, ofContexts rules names c = .ok g) ↔ ∃ g, ofContexts rules names (c.renumber f) = .ok g) ∧
      (∀ g g', ofContexts rules names c = .ok g → ofContexts rules names (c.renumber f) = .ok g' →
        ∀ arguments places answer, (g.call arguments places).1 = .ok answer ↔ (g'.call arguments places).1 = .ok answer) ∧
      c.indices.map c.compactIndex = List.range c.size ∧
      c.compact = if c.isDense then c else c.renumber c.compactIndex := by
  have hc := Contexts.validate_eq_ok.1 hvalid
  have hrenumbered := Contexts.renumbered_renumber hc hinjective hroot fun i hi _ => hbound i hi
  have hc' := hrenumbered.wellShaped hc
  refine ⟨Contexts.validate_eq_ok.2 hc', ⟨?_, ?_⟩, ?_, c.map_compactIndex, ?_⟩
  · rintro ⟨g, hg⟩
    obtain ⟨g', hg', -⟩ := call_renumbered hrenumbered hc hg
    exact ⟨g', hg'⟩
  · rintro ⟨g', hg'⟩
    obtain ⟨g, hg, -⟩ := call_renumbered hrenumbered.symm hc' hg'
    exact ⟨g, hg⟩
  · intro g g' hg hg' arguments places answer
    obtain ⟨g'', hg'', halike⟩ := call_renumbered hrenumbered hc hg
    obtain rfl := Except.ok.inj (hg'.symm.trans hg'')
    exact (halike arguments places).eq_ok_iff
  · split
    · rename_i hdense
      rw [Contexts.compact, if_pos hdense]
    · rename_i hdense
      exact Contexts.compact_eq_renumber (Bool.not_eq_true _ ▸ hdense)

/-- The contexts of a variable divided by two, with gaps in their numbers. -/
def half : Contexts := .ofList [(0, "@/3/@/@/5/@".toList), (3, "x".toList), (5, "2".toList)]

/-- A renumbering of these contexts that turns their order around. -/
def turned (i : Nat) : Nat := if i = 3 then 9 else if i = 5 then 4 else i

/-- A variable divided by two gives the same whichever of the two comes first. -/
theorem call_renumber_half : ∃ g g', ofContexts .standard ["x".toList] half = .ok g ∧
    ofContexts .standard ["x".toList] (half.renumber turned) = .ok g' ∧
      ∀ arguments places answer, (g.call arguments places).1 = .ok answer ↔ (g'.call arguments places).1 = .ok answer := by
  have hvalid : half.validate = .ok () := by cbv
  have hcompact : half.compact = .ofTexts ["@/1/@/@/2/@".toList, "x".toList, "2".toList] := by
    apply Contexts.ext_entries
    decide +kernel
  obtain ⟨-, hcompiled, hcall, -⟩ := call_renumber hvalid (f := turned) (by decide) rfl (by decide) .standard ["x".toList]
  have hg : ∃ g, ofContexts .standard ["x".toList] half = .ok g := by
    have hbuild : ∃ d, Dag.build .standard ['x'] half.compact = .ok d := by
      rw [hcompact]
      exact ⟨_, rfl⟩
    obtain ⟨d, hbuild⟩ := hbuild
    exact ⟨_, (ofContexts_eq_ok_iff (Contexts.validate_eq_ok.1 hvalid)).2 ⟨['x'], d, rfl, hbuild, rfl⟩⟩
  obtain ⟨g, hg⟩ := hg
  obtain ⟨g', hg'⟩ := hcompiled.1 ⟨g, hg⟩
  exact ⟨g, g', hg, hg', hcall g g' hg hg'⟩

end Formula

end FormulaDag
