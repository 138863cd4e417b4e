import FormulaDag.Proofs.Evaluation.Recursion
import FormulaDag.Proofs.Formula.Reached

/-!
# What a formula has kept

A formula keeps results of the root and of the nodes that the root depends on, and of these it keeps all or none for an assignment
that was evaluated with success. So the number of kept results tells how many assignments there were.
-/

namespace FormulaDag

namespace Formula

/-- The key under which results for arguments are kept, if these bind the variables. -/
def key? (letters : List Char) (arguments : List (Text × Argument)) : Option Key :=
  (Argument.bind arguments letters).toOption.map Key.ofValues

/-- An answer without a failure. -/
def Answer.Succeeds : Answer → Prop
  | .branches answer => ∃ values, answer = .ok values
  | .each answers => ∀ answer ∈ answers, ∃ values, answer = .ok values
  | .outline answer => ∃ text, answer = .ok text

/-- A formula that was compiled, after operations that succeeded and changes of its settings, with the keys of the assignments that it
was evaluated for. -/
inductive Succeeded : Formula → List Key → Prop where
  | compiled {f : Formula} (h : Compiled f) : Succeeded f []
  | operation {f : Formula} {keys : List Key} (hf : Succeeded f keys) (op : Operation) (h : (op.run f).1.Succeeds) :
      Succeeded (op.run f).2 (keys ++ op.arguments.filterMap (key? f.letters))
  | settings {f g : Formula} {keys : List Key} {settings : Settings} (hf : Succeeded f keys)
      (h : f.withSettings settings = .ok g) : Succeeded g keys

/-- A state behind operations that succeeded is one that the formula reaches. -/
theorem Succeeded.reached {f : Formula} {keys : List Key} (h : Succeeded f keys) : Reached f := by
  induction h with
  | compiled h => exact .compiled h
  | operation _ op _ ih => exact .operation ih op
  | settings _ h ih => exact .settings ih h

/-- A formula that has kept the results of all the nodes it needs under each of the given keys, and no others. -/
structure Covers (f : Formula) (keys : List Key) : Prop where
  complete : f.memo.Complete f.dag Index.root
  kept : ∀ i key, f.memo.contains i key = true ↔ i ∈ f.dag.span Index.root ∧ key ∈ keys

section
variable {f g : Formula} {keys : List Key} {arguments : List (Text × Argument)}

/-- A successful evaluation of the root adds the key of its assignment. -/
theorem Covers.root (hf : Covers f keys) {found : Evaluation.Valuation × Branches} (h : (f.root arguments).1 = .ok found) :
    ∃ key, key? f.letters arguments = some key ∧ Covers (f.root arguments).2 (keys ++ [key]) := by
  obtain ⟨a, result⟩ := found
  obtain ⟨values, hvalues, rfl, hsame, hroot, hother⟩ := root_eq_ok (g := (f.root arguments).2) (Prod.ext h rfl)
  have hcomplete := complete_root hf.complete arguments
  have hdag : (f.root arguments).2.dag = f.dag := by rw [hsame]
  refine ⟨Key.ofValues values, by rw [key?, hvalues]; rfl, hcomplete, fun i key => ?_⟩
  rw [List.mem_append, List.mem_singleton]
  by_cases heq : key = Key.ofValues values
  · subst heq
    have hspan := hcomplete.contains_of_mem_span (i := i) (Memo.contains_iff.2 ⟨result, hroot⟩)
    exact ⟨fun hi => ⟨hcomplete.reached i _ hi, .inr rfl⟩, fun hi => hspan hi.1⟩
  · have hold := hf.kept i key
    rw [Memo.contains] at hold ⊢
    rw [hother key heq, hold, hdag, or_iff_left heq]

/-- A call that succeeds covers its key as well. -/
theorem Covers.call (hf : Covers f keys) {places : Nat} {values : Branches} (h : (f.call arguments places).1 = .ok values) :
    ∃ key, key? f.letters arguments = some key ∧ Covers (f.call arguments places).2 (keys ++ [key]) := by
  rw [call_snd]
  rw [Formula.call] at h
  split at h
  · cases h
  · rename_i a result g heq
    exact hf.root (by rw [heq])

/-- A batch that succeeds covers the keys of all its assignments. -/
theorem Covers.callEach (hf : Covers f keys) {places : Nat} {assignments : List (List (Text × Float))}
    (h : ∀ answer ∈ (f.callEach places assignments).1, ∃ values, answer = .ok values) :
    Covers (f.callEach places assignments).2
      (keys ++ ((Operation.callEach places assignments).arguments.filterMap (key? f.letters))) := by
  induction assignments generalizing f keys with
  | nil => simpa [Operation.arguments, Formula.callEach] using hf
  | cons assignment rest ih =>
    rw [Formula.callEach] at h ⊢
    obtain ⟨values, hvalues⟩ := h _ List.mem_cons_self
    obtain ⟨key, hkey, hfirst⟩ := hf.call hvalues
    have hrest := ih hfirst fun answer hanswer => h answer (List.mem_cons_of_mem _ hanswer)
    rw [(f.touched_call _ places).letters, List.append_assoc] at hrest
    rw [Operation.arguments, List.map_cons, List.filterMap_cons_some hkey]
    exact hrest

/-- An operation that succeeds covers the keys of its arguments. -/
theorem Covers.run (hf : Covers f keys) {op : Operation} (h : (op.run f).1.Succeeds) :
    Covers (op.run f).2 (keys ++ op.arguments.filterMap (key? f.letters)) := by
  have single : ∀ {g arguments}, (∃ key, key? f.letters arguments = some key ∧ Covers g (keys ++ [key])) →
      Covers g (keys ++ [arguments].filterMap (key? f.letters)) := by
    rintro g arguments ⟨key, hkey, hg⟩
    rwa [List.filterMap_cons_some hkey, List.filterMap_nil]
  cases op with
  | call arguments places =>
    obtain ⟨values, hvalues⟩ := h
    exact single (hf.call hvalues)
  | callRounded arguments =>
    obtain ⟨values, hvalues⟩ := h
    exact single (hf.call hvalues)
  | callEach places assignments => exact hf.callEach h
  | outline arguments =>
    obtain ⟨text, htext⟩ := h
    rw [Operation.run, outline_snd]
    rw [Formula.outline] at htext
    split at htext
    · cases htext
    · rename_i a result g heq
      exact single (hf.root (by rw [heq]))

end

/-- Behind any operations that succeeded, the memo covers their keys. -/
theorem Succeeded.covers {f : Formula} {keys : List Key} (h : Succeeded f keys) : Covers f keys := by
  induction h with
  | compiled h =>
    have hempty := h.fresh.1
    refine ⟨hempty ▸ Memo.complete_empty _ _, fun i key => ?_⟩
    rw [hempty]
    simp [Memo.contains, Memo.get?, Memo.empty]
  | operation _ op h ih => exact ih.run h
  | settings _ h ih =>
    obtain ⟨_, -, h⟩ := bind_eq_ok.1 h
    rw [← Except.ok.inj h]
    exact ⟨ih.complete, ih.kept⟩

/-- The number of kept results is that of the different assignments times that of the nodes that are needed. -/
theorem Covers.keptResults {f : Formula} {keys : List Key} (h : Covers f keys) :
    f.keptResults = keys.toFinset.card * (f.dag.span Index.root).card := by
  have hentries : (f.memo.entries.map Prod.fst).toFinset = f.dag.span Index.root ×ˢ keys.toFinset := by
    ext ⟨i, key⟩
    rw [List.mem_toFinset, ← Memo.contains_iff_mem, h.kept, Finset.mem_product, List.mem_toFinset]
  calc f.keptResults = (f.memo.entries.map Prod.fst).length := by rw [List.length_map]; rfl
    _ = (f.memo.entries.map Prod.fst).toFinset.card := (List.toFinset_card_of_nodup h.complete.once).symm
    _ = keys.toFinset.card * (f.dag.span Index.root).card := by rw [hentries, Finset.card_product, Nat.mul_comm]

/-- A formula keeps exactly what was needed. After operations that all succeeded, in any order and under any settings, the number of kept
results is the number of different assignments times that of the root and the nodes it reaches. After any operations, failed ones
included, nothing is kept for other nodes. -/
theorem keptResults_eq (f : Formula) :
    (∀ keys, Succeeded f keys →
      f.keptResults = keys.toFinset.card * (insert Index.root (f.dag.reach Index.root).toFinset).card) ∧
    (Reached f → ∀ entry ∈ f.memo.entries, entry.1.1 = Index.root ∨ entry.1.1 ∈ f.dag.reach Index.root) := by
  refine ⟨fun keys h => h.covers.keptResults, fun h entry hentry => ?_⟩
  have hmem := h.complete.reached entry.1.1 entry.1.2 (Memo.contains_iff_mem.2 (List.mem_map_of_mem hentry))
  rw [Dag.mem_reach_iff]
  exact Dag.mem_span_iff.1 hmem

/-- The contexts of a variable times its double. Two contexts refer to the variable. -/
def sharedContexts : Contexts := .ofTexts ["@/1/@*@/2/@".toList, "@/2/@+@/2/@".toList, "x".toList]

/-- The dag of a variable times its double. -/
def sharedDag : Dag :=
  ⟨[⟨.sum, "@/1/@*@/2/@".toList, [1, 2]⟩, ⟨.sum, "@/2/@+@/2/@".toList, [2]⟩, ⟨.variable 0, "x".toList, []⟩]⟩

/-- The formula of a variable times its double. -/
def shared : Formula where
  letters := ['x']
  rules := .standard
  contexts := sharedContexts
  dag := sharedDag
  memo := .empty 3
  settings := .standard

theorem build_shared : Dag.build .standard ['x'] sharedContexts = .ok sharedDag := by
  have hbuild : Dag.build .standard ['x'] sharedContexts = .ok ⟨[
    ⟨.sum, "@/1/@*@/2/@".toList, Token.references "@/1/@*@/2/@".toList⟩,
    ⟨.sum, "@/2/@+@/2/@".toList, Token.references "@/2/@+@/2/@".toList⟩,
    ⟨.variable 0, "x".toList, Token.references "x".toList⟩]⟩ := rfl
  have hproduct : Token.references "@/1/@*@/2/@".toList = [1, 2] := by decide +kernel
  have hsum : Token.references "@/2/@+@/2/@".toList = [2] := by decide +kernel
  have hx : Token.references "x".toList = [] := by decide +kernel
  rw [hbuild, hproduct, hsum, hx]
  rfl

/-- The root of the shared dag needs both other nodes. -/
theorem reach_shared : sharedDag.reach Index.root = [1, 2] := by cbv

/-- The contexts with a shared dependency are a formula. -/
theorem ofContexts_shared : ofContexts .standard ["x".toList] sharedContexts = .ok shared := by
  have hvalid : sharedContexts.validate = .ok () := by cbv
  have hcompact : sharedContexts.compact = sharedContexts := by rw [Contexts.compact, if_pos (by decide)]
  have horder : sharedContexts.compact.order = .ok [2, 1, 0] := by
    rw [hcompact]
    cbv
  exact bind_eq_ok.2 ⟨['x'], rfl, bind_eq_ok.2 ⟨(), mapError_eq_ok.2 hvalid, ofParts_eq horder (hcompact.symm ▸ build_shared) _⟩⟩

/-- At 1.5, the root of the shared dag has the value 4.5. -/
theorem computes_shared : Evaluation.Computes ⟨sharedDag, .standard, 15⟩ [1.5] Index.root (.ok [4.5]) := by
  let value : Nat → Branches := fun i => if i = 1 then [3.0] else [1.5]
  have hx : Evaluation.nodeValue ⟨sharedDag, .standard, 15⟩ [1.5] (fun _ => []) 2 ⟨.variable 0, "x".toList, []⟩ = .ok [1.5] := by
    simp only [Evaluation.nodeValue, List.getElem?_cons_zero, Except.map, Branches.normalForm, List.map_cons, List.map_nil,
      List.mergeSort_singleton]
    decide +kernel
  have hsum : Evaluation.nodeValue ⟨sharedDag, .standard, 15⟩ [1.5] value 1 ⟨.sum, "@/2/@+@/2/@".toList, [2]⟩ = .ok [3.0] := by
    have hscan : Lexeme.scan "@/2/@+@/2/@".toList = .ok [.index 2, .op .plus, .index 2] := by decide +kernel
    have hvalue : Evaluation.sumValue value 1 "@/2/@+@/2/@".toList = .ok [3.0] := by
      rw [Evaluation.sumValue, hscan]
      decide +kernel
    simp only [Evaluation.nodeValue, hvalue, Except.map, Branches.normalForm, List.map_cons, List.map_nil, List.mergeSort_singleton]
    decide +kernel
  have hproduct : Evaluation.nodeValue ⟨sharedDag, .standard, 15⟩ [1.5] value 0 ⟨.sum, "@/1/@*@/2/@".toList, [1, 2]⟩ =
      .ok [4.5] := by
    have hscan : Lexeme.scan "@/1/@*@/2/@".toList = .ok [.index 1, .op .times, .index 2] := by decide +kernel
    have hvalue : Evaluation.sumValue value 0 "@/1/@*@/2/@".toList = .ok [4.5] := by
      rw [Evaluation.sumValue, hscan]
      decide +kernel
    simp only [Evaluation.nodeValue, hvalue, Except.map, Branches.normalForm, List.map_cons, List.map_nil, List.mergeSort_singleton]
    decide +kernel
  have hcomputesx : Evaluation.Computes ⟨sharedDag, .standard, 15⟩ [1.5] 2 (.ok (value 2)) := hx ▸ .value rfl (by simp)
  have hcomputes : Evaluation.Computes ⟨sharedDag, .standard, 15⟩ [1.5] 1 (.ok (value 1)) :=
    hsum ▸ .value rfl (by simpa using hcomputesx)
  exact hproduct ▸ .value rfl (by simpa using ⟨hcomputes, hcomputesx⟩)

theorem call_shared (places : Nat) :
    (shared.call [("x".toList, .number 1.5)] places).1 = .ok [Branches.toPlaces places 4.5] := by
  have hvalid : sharedContexts.validate = .ok () := by cbv
  have hroot : (shared.evaluation.evaluate (.ofValues [1.5]) Index.root shared.memo).1 = .ok [4.5] :=
    computes_shared.evaluate_eq hvalid (by decide) build_shared
  exact call_of_evaluate (bind_x (by decide +kernel)) hroot places

/-- A variable times its double, evaluated twice for one assignment under different settings: the results of the three nodes are
kept once. -/
theorem keptResults_eq_shared : ∃ (f : Formula) (key : Key), Succeeded f [key, key] ∧
    f.keptResults = [key, key].toFinset.card * (insert Index.root (f.dag.reach Index.root).toFinset).card ∧
    (∀ entry ∈ f.memo.entries, entry.1.1 = Index.root ∨ entry.1.1 ∈ f.dag.reach Index.root) ∧ f.keptResults = 3 := by
  have hcall := call_shared 5
  let op : Operation := .call [("x".toList, .number 1.5)] 5
  have hkey : ∀ letters, letters = ['x'] → op.arguments.filterMap (key? letters) = [Key.ofValues [1.5]] := by
    rintro letters rfl
    exact List.filterMap_cons_some (by rw [key?, bind_x (by decide +kernel)]; rfl)
  have hfirst := (Succeeded.compiled (.contexts ofContexts_shared)).operation op ⟨_, hcall⟩
  rw [hkey shared.letters rfl] at hfirst
  have hchanged := hfirst.settings (withSettings_eq _ (show oneDigit.validate = .ok () from rfl))
  have hagain := hchanged.operation op ⟨_, call_withSettings_of_ok (Prod.ext hcall rfl) _⟩
  have hletters : ({ (op.run shared).2 with settings := oneDigit } : Formula).letters = ['x'] := (touched_call _ _ _).letters
  rw [hkey _ hletters] at hagain
  have hcount := (keptResults_eq _).1 _ hagain
  have hnodes : ∀ d, d = sharedDag → (insert Index.root (Dag.reach d Index.root).toFinset).card = 3 := by
    rintro d rfl
    rw [reach_shared]
    decide
  have hassignments : [Key.ofValues [1.5], Key.ofValues [1.5]].toFinset.card = 1 := by decide +kernel
  refine ⟨_, _, hagain, hcount, (keptResults_eq _).2 hagain.reached, hcount.trans ?_⟩
  exact congrArg₂ (· * ·) hassignments (hnodes _ ((touched_call _ _ _).dag.trans (touched_call _ _ _).dag))

end Formula

end FormulaDag
