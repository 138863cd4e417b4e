import FormulaDag.Proofs.Decimal.Written
import FormulaDag.Proofs.Evaluation.Direct

/-!
# Evaluation with a memo

A memo is sound when every result in it is that of plain recursion and the dependencies of a node with a result have results too.
Evaluating a target keeps a memo sound, also when it fails, and answers what plain recursion answers. Since results are kept under
the written values of the variables, this needs values that are told apart by how they are written. Finite values are.
-/

namespace FormulaDag

namespace Memo

/-- An inserted result is found under its key, and any other as before. -/
theorem get?_insert {m : Memo} {i : Nat} {key : Key} {result : Branches} (hi : i < m.slots) (j : Nat) (k : Key) :
    (m.insert i key result).get? j k = if j = i ∧ k = key then some result else m.get? j k := by
  simp only [insert, hi, if_true, get?]
  by_cases h : j = i ∧ k = key
  · obtain ⟨rfl, rfl⟩ := h
    simp
  · have hne : ((j, k) == (i, key)) = false := by
      rw [beq_eq_false_iff_ne, ne_eq, Prod.mk.injEq]
      exact h
    rw [List.lookup_cons, hne, if_neg h]
    change (m.entries.filter fun entry => entry.1 != (i, key)).lookup (j, k) = m.entries.lookup (j, k)
    induction m.entries with
    | nil => rfl
    | cons entry rest ih =>
      obtain ⟨⟨j', k'⟩, b⟩ := entry
      by_cases hentry : (j', k') = (i, key)
      · rw [List.filter_cons_of_neg (by simp [hentry]), ih, List.lookup_cons, hentry, hne]
      · rw [List.filter_cons_of_pos (by simpa using hentry), List.lookup_cons, List.lookup_cons, ih]

/-- A memo contains a key when it has a result for it. -/
theorem contains_iff {m : Memo} {i : Nat} {key : Key} : m.contains i key = true ↔ ∃ b, m.get? i key = some b := by
  rw [contains, Option.isSome_iff_exists]

theorem contains_insert {m : Memo} {i : Nat} {key : Key} {result : Branches} (hi : i < m.slots) (j : Nat) (k : Key) :
    (m.insert i key result).contains j k = true ↔ j = i ∧ k = key ∨ m.contains j k = true := by
  rw [contains, get?_insert hi]
  split
  · rename_i h
    exact ⟨fun _ => .inl h, fun _ => rfl⟩
  · rename_i h
    exact ⟨.inr, fun h' => h'.resolve_left h⟩

theorem slots_insert (m : Memo) (i : Nat) (key : Key) (result : Branches) : (m.insert i key result).slots = m.slots := by
  rw [Memo.insert]
  split <;> rfl

/-- Every result that is kept for the given inputs is the one that recursion gives, and so are those of the nodes it was made
from. -/
structure Sound (m : Memo) (d : Dag) (nodes : Nat → Prop) (inputs : List Float → Prop)
    (results : List Float → Nat → Except EvaluationFault Branches) : Prop where
  slots : m.slots = d.size
  kept : ∀ values, inputs values → ∀ i b, m.get? i (Key.ofValues values) = some b →
    nodes i ∧ results values i = .ok b ∧ ∀ j ∈ d.dependencies i, m.contains j (Key.ofValues values) = true

/-- The empty memo is sound. -/
theorem Sound.empty (d : Dag) (nodes : Nat → Prop) (inputs : List Float → Prop)
    (results : List Float → Nat → Except EvaluationFault Branches) : (Memo.empty d.size).Sound d nodes inputs results where
  slots := rfl
  kept := by
    intro values hv i b hb
    simp [get?, Memo.empty] at hb

end Memo

/-- The assignments in a set are told apart by how they are written. -/
def Key.Separates (inputs : List Float → Prop) : Prop :=
  ∀ v w, inputs v → inputs w → Key.ofValues v = Key.ofValues w → v = w

/-- Finite values are told apart by their key. -/
theorem Key.eq_of_ofValues {v w : List Float} (hv : ∀ x ∈ v, x.isFinite = true) (hw : ∀ x ∈ w, x.isFinite = true)
    (h : Key.ofValues v = Key.ofValues w) : v = w := by
  induction v generalizing w with
  | nil => exact (List.map_eq_nil_iff.1 h.symm).symm
  | cons x v ih =>
    cases w with
    | nil => simp [Key.ofValues] at h
    | cons y w =>
      simp only [Key.ofValues, List.map_cons, List.cons.injEq] at h
      obtain ⟨hx, hv⟩ := List.forall_mem_cons.1 hv
      obtain ⟨hy, hw⟩ := List.forall_mem_cons.1 hw
      rw [Decimal.eq_of_plain hx hy h.1, ih hv hw h.2]

/-- Finite assignments are told apart by how they are written. -/
theorem Key.separates_of_finite {inputs : List Float → Prop} (h : ∀ values, inputs values → ∀ x ∈ values, x.isFinite = true) :
    Key.Separates inputs := fun v w hv hw => Key.eq_of_ofValues (h v hv) (h w hw)

section
variable {d : Dag} {nodes : Nat → Prop} {inputs : List Float → Prop}
  {results : List Float → Nat → Except EvaluationFault Branches} {m : Memo} {values : List Float}

/-- Keeping the result of a node whose dependencies have results leaves a memo sound. -/
theorem Memo.Sound.insert (hm : m.Sound d nodes inputs results) (hkeys : Key.Separates inputs) (hv : inputs values)
    {i : Nat} (hi : nodes i) (hsize : i < d.size) {b : Branches} (hb : results values i = .ok b)
    (hdeps : ∀ j ∈ d.dependencies i, m.contains j (Key.ofValues values) = true) :
    (m.insert i (Key.ofValues values) b).Sound d nodes inputs results := by
  have hslot : i < m.slots := hm.slots ▸ hsize
  have grows : ∀ j k, m.contains j k = true → (m.insert i (Key.ofValues values) b).contains j k = true := fun j k h =>
    (Memo.contains_insert hslot j k).2 (.inr h)
  constructor
  · exact (m.slots_insert _ _ _).trans hm.slots
  · intro w hw j c hc
    rw [Memo.get?_insert hslot] at hc
    split at hc
    · rename_i h
      obtain ⟨rfl, hkey⟩ := h
      obtain rfl := hkeys w values hw hv hkey
      rw [Option.some.injEq] at hc
      exact ⟨hi, hc ▸ hb, fun k hk => grows k _ (hdeps k hk)⟩
    · obtain ⟨hj, hres, hclosed⟩ := hm.kept w hw j c hc
      exact ⟨hj, hres, fun k hk => grows k _ (hclosed k hk)⟩

/-- A result that is kept is that of recursion. -/
theorem Memo.Sound.toOption_eq (hm : m.Sound d nodes inputs results) (hv : inputs values) {i : Nat}
    (h : m.contains i (Key.ofValues values) = true) :
    ∃ b, m.get? i (Key.ofValues values) = some b ∧ results values i = .ok b := by
  obtain ⟨b, hb⟩ := Memo.contains_iff.1 h
  exact ⟨b, hb, (hm.kept values hv i b hb).2.1⟩

end

namespace Evaluation

section
variable {e : Evaluation} {nodes : Nat → Prop} {rank : Nat → Nat} {inputs : List Float → Prop}
  {results : List Float → Nat → Except EvaluationFault Branches} {values : List Float}

/-- With its dependencies in the memo, a node is computed from what recursion gives. -/
theorem nodeBranches_eq (hlocal : ∀ n ∈ e.dag.nodes, IsLocal e.rules n) (hresults : e.Follows values nodes (results values))
    (hv : inputs values) {m : Memo} (hm : m.Sound e.dag nodes inputs results) {i : Nat} {n : Node} (hi : nodes i)
    (hn : e.dag.node? i = some n) (hdeps : ∀ j ∈ n.dependencies, m.contains j (Key.ofValues values) = true) :
    results values i = nodeBranches e.rules e.precision values i n fun j => m.get? j (Key.ofValues values) := by
  have hnone : firstFault? (results values) n.dependencies = none := by
    rw [firstFault?_eq_none]
    intro j hj
    obtain ⟨b, -, hb⟩ := hm.toOption_eq hv (hdeps j hj)
    exact ⟨b, hb⟩
  obtain ⟨found, hfound⟩ := (mapM_of_firstFault? _ _).2 hnone
  rw [hresults i hi, step, hn]
  simp only [hfound]
  refine hlocal n (List.mem_of_getElem? hn) _ _ _ _ _ fun j hj => ?_
  obtain ⟨b, hget, hb⟩ := hm.toOption_eq hv (hdeps j hj)
  rw [hget, hb]
  rfl

/-- Computing nodes in order keeps their results up to the first fault, which is the answer. -/
theorem computeAll_sound (hlocal : ∀ n ∈ e.dag.nodes, IsLocal e.rules n)
    (hresults : e.Follows values nodes (results values)) (hkeys : Key.Separates inputs) (hv : inputs values)
    {l : List Nat} {m : Memo} (hm : m.Sound e.dag nodes inputs results) (hl : ∀ i ∈ l, nodes i)
    (ho : e.dag.Ordered (fun i => m.contains i (Key.ofValues values)) l) :
    (e.computeAll (.ofValues values) l m).2.Sound e.dag nodes inputs results ∧
      (∀ i k, m.contains i k = true → (e.computeAll (.ofValues values) l m).2.contains i k = true) ∧
      (∀ fault, firstFault? (results values) l = some fault →
        (e.computeAll (.ofValues values) l m).1 = .error fault) ∧
      (firstFault? (results values) l = none → (e.computeAll (.ofValues values) l m).1 = .ok () ∧
        ∀ i ∈ l, (e.computeAll (.ofValues values) l m).2.contains i (Key.ofValues values) = true) := by
  induction l generalizing m with
  | nil => exact ⟨hm, fun _ _ h => h, by simp [firstFault?], fun _ => ⟨rfl, by simp⟩⟩
  | cons i l ih =>
    have hi := hl i (by simp)
    obtain ⟨hsize, hdeps⟩ := ho.head
    obtain ⟨n, hn⟩ : ∃ n, e.dag.node? i = some n := ⟨_, List.getElem?_eq_getElem hsize⟩
    have hn' : e.dag.dependencies i = n.dependencies := by simp [Dag.dependencies, hn]
    have hvalue := nodeBranches_eq hlocal hresults hv hm hi hn fun j hj => hdeps j (hn' ▸ hj)
    rw [computeAll]
    simp only [hn, Valuation.ofValues]
    rw [← hvalue]
    cases hres : results values i with
    | error fault =>
      rw [firstFault?_cons_error hres]
      exact ⟨hm, fun _ _ h => h, fun f hf => by rw [Option.some.inj hf], by simp⟩
    | ok b =>
      rw [firstFault?_cons_ok hres]
      have hslot : i < m.slots := hm.slots ▸ hsize
      have hm' := hm.insert hkeys hv hi hsize hres hdeps
      have grows : ∀ j k, j = i ∧ k = Key.ofValues values ∨ m.contains j k = true →
          (m.insert i (Key.ofValues values) b).contains j k = true := fun j k => (Memo.contains_insert hslot j k).2
      have ho' := ho.tail (grows i _ (.inl ⟨rfl, rfl⟩)) fun j h => grows j _ (.inr h)
      obtain ⟨hsound, hgrow, herror, hok⟩ := ih hm' (fun j hj => hl j (List.mem_cons_of_mem _ hj)) ho'
      refine ⟨hsound, fun j k h => hgrow j k (grows j k (.inr h)), herror, fun hnone => ?_⟩
      refine ⟨(hok hnone).1, fun j hj => ?_⟩
      rcases List.mem_cons.1 hj with rfl | hj
      · exact hgrow j _ (grows j _ (.inl ⟨rfl, rfl⟩))
      · exact (hok hnone).2 j hj

/-- Evaluating a node answers what recursion answers and leaves the memo sound; when it succeeds, the node has a result. -/
theorem evaluate_sound (hlocal : ∀ n ∈ e.dag.nodes, IsLocal e.rules n) (hrank : e.dag.Ranked nodes rank)
    (hresults : e.Follows values nodes (results values)) (hkeys : Key.Separates inputs) (hv : inputs values)
    {m : Memo} (hm : m.Sound e.dag nodes inputs results) {target : Nat} (htarget : nodes target) :
    (e.evaluate (.ofValues values) target m).1 = results values target ∧
      (e.evaluate (.ofValues values) target m).2.Sound e.dag nodes inputs results ∧
      ∀ b, results values target = .ok b →
        (e.evaluate (.ofValues values) target m).2.contains target (Key.ofValues values) = true := by
  rw [evaluate]
  simp only [Valuation.ofValues]
  cases hfound : m.get? target (Key.ofValues values) with
  | some b =>
    obtain ⟨-, hb, -⟩ := hm.kept values hv target b hfound
    exact ⟨hb.symm, hm, fun _ _ => Memo.contains_iff.2 ⟨b, hfound⟩⟩
  | none =>
    obtain ⟨l, hl⟩ : ∃ l, e.dag.demandFrom (fun i => m.contains i (Key.ofValues values)) [] [] [target] = .ok l :=
      hrank.exists_demandFrom (by simpa using htarget)
    obtain ⟨-, hordered, hcover⟩ := Dag.ordered_of_demandFrom hl .nil
    have hin : target ∈ l := (hcover target (by simp)).resolve_left (by simp [Memo.contains, hfound])
    have hnodes : ∀ i ∈ l, nodes i := hrank.of_mem_demandFrom (by simp) (by simpa using htarget) hl
    have hfault : firstFault? (results values) l = firstFault? (results values) [target] :=
      hresults.firstFault?_demandFrom (fun i hi j hj => ((hrank i hi).2 j hj).1)
        (fun i h => (hm.toOption_eq hv h).imp fun _ h => h.2) (by simpa using htarget) hl
    obtain ⟨hsound, -, herror, hok⟩ := computeAll_sound hlocal hresults hkeys hv hm hnodes hordered
    have hdemand : e.dag.demand (fun i => m.contains i (Key.ofValues values)) target = .ok l := hl
    simp only [hdemand]
    cases hres : results values target with
    | error fault =>
      have hanswer := herror fault (by rw [hfault, firstFault?_cons_error hres])
      simp only [Valuation.ofValues] at hanswer hsound
      generalize e.computeAll ⟨values, Key.ofValues values⟩ l m = computed at hanswer hsound
      obtain ⟨answer, kept⟩ := computed
      simp only at hanswer
      subst hanswer
      exact ⟨rfl, hsound, by simp⟩
    | ok b =>
      obtain ⟨hanswer, hall⟩ := hok (by rw [hfault, firstFault?_cons_ok hres]; rfl)
      have hkept := hall target hin
      simp only [Valuation.ofValues] at hanswer hsound hkept
      generalize e.computeAll ⟨values, Key.ofValues values⟩ l m = computed at hanswer hsound hkept
      obtain ⟨answer, kept⟩ := computed
      simp only at hanswer
      subst hanswer
      obtain ⟨c, hc, hb⟩ := hsound.toOption_eq hv hkept
      rw [hres, Except.ok.injEq] at hb
      simp only [hc, hb]
      exact ⟨trivial, hsound, fun _ _ => hkept⟩

/-- A target has one answer for every input, whatever was evaluated before: there are results that every evaluation answers, and
the memo stays sound for them. When the first walk from the target fails, so does every later one, and nothing is ever kept. -/
theorem exists_results (hlocal : ∀ n ∈ e.dag.nodes, IsLocal e.rules n) (hkeys : Key.Separates inputs) (target : Nat) :
    ∃ nodes results, ∀ values, inputs values → ∀ m : Memo, m.Sound e.dag nodes inputs results →
      (e.evaluate (.ofValues values) target m).1 = results values target ∧
        (e.evaluate (.ofValues values) target m).2.Sound e.dag nodes inputs results ∧
        ∀ b, results values target = .ok b →
          (e.evaluate (.ofValues values) target m).2.contains target (Key.ofValues values) = true := by
  cases hd : e.dag.demand (fun _ => false) target with
  | error fault =>
    refine ⟨fun _ => False, fun _ _ => .error fault, fun values hv m hm => ?_⟩
    have hnone : ∀ i, m.get? i (Key.ofValues values) = none := by
      intro i
      cases hi : m.get? i (Key.ofValues values) with
      | none => rfl
      | some b => exact (hm.kept values hv i b hi).1.elim
    have hknown : (fun i => m.contains i (Key.ofValues values)) = fun _ => false := by
      funext i
      rw [Memo.contains, hnone i, Option.isSome_none]
    have heval : e.evaluate (.ofValues values) target m = (.error fault, m) := by
      rw [evaluate]
      simp only [Valuation.ofValues, hnone target, hknown, hd]
    rw [heval]
    exact ⟨rfl, hm, by simp⟩
  | ok l =>
    obtain ⟨-, hordered, hcover⟩ := Dag.ordered_of_demandFrom hd .nil
    have hrank := hordered.ranked
    have hfollows : ∀ values, e.Follows values (· ∈ l) (e.direct values l.length) := fun values =>
      follows_direct values hlocal hrank fun i hi => List.idxOf_lt_length_of_mem hi
    refine ⟨(· ∈ l), fun values => e.direct values l.length, fun values hv m hm => ?_⟩
    exact evaluate_sound hlocal hrank (hfollows values) hkeys hv hm ((hcover target (by simp)).resolve_left (by simp))

end

end Evaluation

end FormulaDag
