import FormulaDag.Proofs.Contexts.Splitting
import FormulaDag.Proofs.Evaluation.Single
import FormulaDag.Proofs.Formula.Reconfiguration
import FormulaDag.Proofs.Formula.Renumbering

/-!
# Sharing does not show

Where every index has a single value, it does not matter whether a context is shared. Giving an index a second copy changes the numbers
of the contexts, the dependencies of the nodes and the axes of their products; the value of the root is the same.
-/

namespace FormulaDag

open Contexts (Copies)
open Evaluation (CopiedDag)

/-- The dag of dense copies has copies of the nodes. -/
theorem Dag.copiedDag_of_build {ρ : Nat → Nat → Prop} {s : RuleSet} {letters : List Char} {c c' : Contexts} {d d' : Dag}
    (h : Copies ρ c c') (hdense : c.isDense = true) (hdense' : c'.isDense = true) (hbuild : build s letters c = .ok d)
    (hbuild' : build s letters c' = .ok d') : CopiedDag ρ d d' := by
  refine ⟨h.unique, fun i j hij n hn => ?_⟩
  have hnode := node?_of_build hdense hbuild i
  rw [hn, Option.map_some] at hnode
  obtain ⟨t, ht, hnode⟩ := Option.map_eq_some_iff.1 hnode.symm
  obtain ⟨t', ht', hrenamed⟩ := h.forth i j hij t ht
  have hnode' := node?_of_build hdense' hbuild' j
  rw [ht', Option.map_some] at hnode'
  obtain ⟨n', hn', hnode'⟩ := Option.map_eq_some_iff.1 hnode'
  obtain ⟨hcontext, hdeps, hkind⟩ := nodeOf_eq_ok hnode
  obtain ⟨hcontext', hdeps', hkind'⟩ := nodeOf_eq_ok hnode'.symm
  have halike := kindOf_renamed s letters hrenamed
  rw [hkind, hkind'] at halike
  refine ⟨n', hn', ?_, by rwa [hcontext, hcontext'], fun k' hk' => ?_⟩
  · cases halike with
    | ok hkinds => exact hkinds
  · rw [hdeps'] at hk'
    rw [hdeps]
    exact hrenamed.exists_reference hk'

namespace Formula

/-- Copies of valid contexts are compiled with them, and the root has the same value wherever every index has a single value. -/
theorem call_copies {ρ : Nat → Nat → Prop} {rules : RuleSet} {names : List Text} {c c' : Contexts} (h : Copies ρ c c')
    (hc : c.WellShaped) {f : Formula} (hf : ofContexts rules names c = .ok f) : ∃ g, ofContexts rules names c' = .ok g ∧
      ∀ arguments values places, Argument.bind arguments f.letters = .ok values →
        (∀ i < f.dag.size, ∃ x, (f.evaluation.evaluate (.ofValues values) i f.memo).1 = .ok [x]) →
          ∃ answer, (f.call arguments places).1 = .ok answer ∧ (g.call arguments places).1 = .ok answer := by
  obtain ⟨letters, d, hletters, hbuild, rfl⟩ := (ofContexts_eq_ok_iff hc).1 hf
  have hc' := h.wellShaped hc
  obtain ⟨σ, hcompact⟩ := Contexts.exists_renumbered_compact hc
  obtain ⟨σ', hcompact'⟩ := Contexts.exists_renumbered_compact hc'
  have hcopies := hcompact.symm.copies.trans (h.trans hcompact'.copies)
  have hvalid := Contexts.validate_eq_ok.2 (hcompact.wellShaped hc)
  have hvalid' := Contexts.validate_eq_ok.2 (hcompact'.wellShaped hc')
  obtain ⟨d', hbuild'⟩ := Dag.exists_build_of_copies hcopies ⟨d, hbuild⟩
  have hdag := Dag.copiedDag_of_build hcopies c.isDense_compact c'.isDense_compact hbuild hbuild'
  obtain ⟨rank, hrank⟩ := Dag.exists_ranked_of_validate hvalid c.isDense_compact hbuild
  refine ⟨_, (ofContexts_eq_ok_iff hc').2 ⟨letters, d', hletters, hbuild', rfl⟩, fun arguments values places hvalues hsingle => ?_⟩
  choose! value hvalue using hsingle
  have hroot : Index.root < d.size := by
    have hindices : c.compact.indices = List.range d.size := by
      rw [Dag.size_of_build hbuild]
      simpa [Contexts.isDense] using c.isDense_compact
    exact List.mem_range.1 (hindices ▸ (hcompact.wellShaped hc).rooted)
  have hcomputes : ∀ i, i < d.size → Evaluation.Computes ⟨d, rules, Settings.standard.precision⟩ values i (.ok [value i]) ∧
      ∀ r, Evaluation.Computes ⟨d, rules, Settings.standard.precision⟩ values i r → r = .ok [value i] := fun i hi => by
    have hevaluate : (Evaluation.evaluate ⟨d, rules, Settings.standard.precision⟩ (.ofValues values) i (.empty d.size)).1 =
        .ok [value i] := hvalue i hi
    have hcomputed := (Evaluation.computes_evaluate hvalid c.isDense_compact hbuild Settings.standard.precision values i).1
    rw [hevaluate] at hcomputed
    exact ⟨hcomputed, fun r hr => (hr.evaluate_eq hvalid c.isDense_compact hbuild).symm.trans hevaluate⟩
  have hcopied : Evaluation.Computes ⟨d', rules, Settings.standard.precision⟩ values Index.root (.ok [value Index.root]) := by
    refine Evaluation.Computes.copied (e := ⟨d, rules, Settings.standard.precision⟩) ?_ ?_ hdag hrank hcomputes hroot hcopies.root
    · rfl
    · rfl
  have hroot' := hcopied.evaluate_eq hvalid' c'.isDense_compact hbuild'
  exact ⟨_, call_of_evaluate hvalues (hvalue _ hroot) places,
    call_of_evaluate (f := ⟨letters, rules, c'.compact, d', .empty d'.size, .standard⟩) hvalues hroot' places⟩

/-- Sharing does not show where every index has a single value. Giving any index of valid contexts a second copy under a new index, with
any of the references to the one redirected to the other, leaves them valid; the formula is compiled again; and for all arguments under
which every index has a single value it answers the same. -/
theorem call_split {c c' : Contexts} {j k : Nat} (hvalid : c.validate = .ok ()) (hj : j ∈ c.indices) (hk : k ∉ c.indices)
    (hbound : k < Index.bound) (hsplit : Contexts.Split j k c c') :
    c'.validate = .ok () ∧ ∀ rules names f, ofContexts rules names c = .ok f → ∃ g, ofContexts rules names c' = .ok g ∧
      ∀ arguments values places, Argument.bind arguments f.letters = .ok values →
        (∀ i < f.dag.size, ∃ x, (f.evaluation.evaluate (.ofValues values) i f.memo).1 = .ok [x]) →
          ∃ answer, (f.call arguments places).1 = .ok answer ∧ (g.call arguments places).1 = .ok answer := by
  have hc := Contexts.validate_eq_ok.1 hvalid
  have hcopies := hsplit.copies hc hj hk hbound
  exact ⟨Contexts.validate_eq_ok.2 (hcopies.wellShaped hc), fun rules names f hf => call_copies hcopies hc hf⟩

/-- The contexts of a variable divided by itself, with a copy of the variable in the denominator. -/
def ratioOfCopies : Contexts := .ofList [(0, "@/1/@/@/7/@".toList), (1, "x".toList), (7, "x".toList)]

theorem split_ratio : Contexts.Split 1 7 Evaluation.ratio ratioOfCopies := by
  have hentries : Evaluation.ratio.entries = [(0, "@/1/@/@/1/@".toList), (1, "x".toList)] := rfl
  have hentries' : ratioOfCopies.entries = [(0, "@/1/@/@/7/@".toList), (1, "x".toList), (7, "x".toList)] := by cbv
  refine ⟨by rw [Contexts.get?, Contexts.get?, hentries, hentries']; rfl, fun i hi => ?_⟩
  rw [Contexts.get?, Contexts.get?, hentries, hentries']
  rcases i with _ | _ | i
  · have hfirst : Token.split? "@/1/@/@/1/@".toList = some ("1".toList, "/@/1/@".toList) := by cbv
    have hsecond : Token.split? "@/1/@".toList = some ("1".toList, []) := by cbv
    exact .some (.kept hfirst (.plain (by cbv) (.moved hsecond (by cbv) .nil)))
  · exact .some (.refl 1 7 "x".toList)
  · have hlast : ((i + 2 : Nat) == 7) = false := beq_false_of_ne hi
    simp [List.lookup_cons, hlast]

/-- A variable divided by itself gives one, whether it is stored once or twice. -/
theorem call_split_ratio : ratioOfCopies.validate = .ok () ∧ ∃ f g, ofContexts .standard ["x".toList] Evaluation.ratio = .ok f ∧
    ofContexts .standard ["x".toList] ratioOfCopies = .ok g ∧
      ∃ answer, (f.call [("x".toList, .number 1.5)] 5).1 = .ok answer ∧ (g.call [("x".toList, .number 1.5)] 5).1 = .ok answer := by
  have hvalid : Evaluation.ratio.validate = .ok () := by cbv
  obtain ⟨hvalid', hcall⟩ := call_split hvalid (j := 1) (k := 7) (by decide) (by decide) (by decide) split_ratio
  have hcompact : Evaluation.ratio.compact = Evaluation.ratio := by rw [Contexts.compact, if_pos (by decide)]
  have hf : ofContexts .standard ["x".toList] Evaluation.ratio =
      .ok ⟨['x'], .standard, Evaluation.ratio.compact, Evaluation.ratioDag, .empty 2, .standard⟩ :=
    (ofContexts_eq_ok_iff (Contexts.validate_eq_ok.1 hvalid)).2
      ⟨['x'], Evaluation.ratioDag, rfl, hcompact.symm ▸ Evaluation.build_ratio, rfl⟩
  obtain ⟨g, hg, hanswer⟩ := hcall _ _ _ hf
  refine ⟨hvalid', _, g, hf, hg, hanswer _ [1.5] 5 (bind_x (by decide +kernel)) fun i hi => ?_⟩
  obtain ⟨hx, hroot⟩ := Evaluation.computes_ratio_nonzero
  rcases i with _ | _ | i
  · exact ⟨_, hroot.evaluate_eq hvalid (by decide) Evaluation.build_ratio⟩
  · exact ⟨_, hx.evaluate_eq hvalid (by decide) Evaluation.build_ratio⟩
  · exact absurd (show i + 2 < 2 from hi) (by omega)

end Formula

end FormulaDag
