import Mathlib
import FormulaDag.Registry

/-!
# Registering functions

However functions are offered to the standard rules, those that are accepted stand before the standard rules in the order of their
acceptance, no two of them share a name, and none is called by a reserved word. A function is refused exactly when its name is taken
already, and that changes nothing. The number that an accepted function got names it from then on, although every later registration
inserts a rule in the middle and moves the standard rules.

A registry does this with a list, a count and an insertion in the middle of the list. Step by step it is the registry of a rule set that
keeps its functions apart, which is where the order and the distinct names come from.
-/

namespace FormulaDag

namespace UserFunction

/-- Every function of the user is accepted at its creation, so the type has those that creation accepts and no others. -/
theorem create_self (f : UserFunction) : create f.name f.document f.apply = .ok f := by
  unfold create
  rw [dif_neg f.nonempty, dif_pos f.letters, dif_neg (by simp [f.notReserved])]

end UserFunction

namespace RuleSet

/-- Offers functions one after the other: the answers, and the rules after them. A function that is refused leaves the rules alone. -/
def registerEach (s : RuleSet) : List UserFunction → List (Except FunctionFault Nat) × RuleSet
  | [] => ([], s)
  | f :: rest =>
    match s.register f with
    | .error fault => (.error fault :: (registerEach s rest).1, (registerEach s rest).2)
    | .ok (id, larger) => (.ok id :: (registerEach larger rest).1, (registerEach larger rest).2)

/-- The functions that were accepted, by their answers. -/
def accepted : List UserFunction → List (Except FunctionFault Nat) → List UserFunction
  | f :: rest, .ok _ :: answers => f :: accepted rest answers
  | _ :: rest, .error _ :: answers => accepted rest answers
  | _, _ => []

section
variable {s larger : RuleSet} {f : UserFunction}

/-- The name of a function is a command when a function has it, since it is not reserved. -/
theorem isCommand_name : s.isCommand f.name = true ↔ f.name ∈ s.functionNames := by
  unfold isCommand isFunction
  rw [f.notReserved, Bool.false_or, List.contains_iff_mem]

/-- A function is refused when its name is taken, and stands behind those before it otherwise. -/
theorem register_cases (s : RuleSet) (f : UserFunction) :
    (f.name ∈ s.functionNames ∧ s.register f = .error (.alreadyRegistered f.name)) ∨
      (f.name ∉ s.functionNames ∧ ∃ larger, s.register f = .ok (s.functions.length, larger) ∧
        larger.functions = s.functions ++ [f]) := by
  unfold register
  split
  · rename_i htaken
    exact .inl ⟨isCommand_name.1 htaken, rfl⟩
  · rename_i hfree
    exact .inr ⟨fun hmem => hfree (isCommand_name.2 hmem), _, rfl, rfl⟩

theorem insertIdx_append {rules standard : List Rule} {r : Rule} :
    (rules ++ standard).insertIdx rules.length r = rules ++ r :: standard := by
  induction rules with
  | nil => exact List.insertIdx_zero
  | cons r' rules ih => rw [List.cons_append, List.length_cons, List.insertIdx_succ_cons, ih, List.cons_append]

/-- A registration inserts the rule of the function behind those of the functions before it and moves the standard rules by one. -/
theorem rules_of_functions (h : larger.functions = s.functions ++ [f]) :
    larger.rules = s.rules.insertIdx s.functions.length f.rule := by
  have hlength : (s.functions.map UserFunction.rule).length = s.functions.length := List.length_map _
  unfold rules
  rw [h, ← hlength, insertIdx_append, List.map_append, List.append_assoc]
  rfl

/-- The rule of a function has the place of the function. -/
theorem get?_of_functions {id : Nat} (h : s.functions[id]? = some f) : s.get? id = some f.rule := by
  unfold get? rules
  rw [List.getElem?_append_left, List.getElem?_map, h, Option.map_some]
  rw [List.length_map]
  exact (List.getElem?_eq_some_iff.1 h).1

theorem registerEach_append (s : RuleSet) (fs gs : List UserFunction) :
    s.registerEach (fs ++ gs) =
      ((s.registerEach fs).1 ++ ((s.registerEach fs).2.registerEach gs).1, ((s.registerEach fs).2.registerEach gs).2) := by
  induction fs generalizing s with
  | nil => rfl
  | cons f fs ih =>
    rcases s.register_cases f with ⟨-, hrefused⟩ | ⟨-, larger, haccepted, -⟩
    · simp only [List.cons_append, registerEach, hrefused, ih]
    · simp only [List.cons_append, registerEach, haccepted, ih]

theorem length_registerEach (s : RuleSet) (fs : List UserFunction) : (s.registerEach fs).1.length = fs.length := by
  induction fs generalizing s with
  | nil => rfl
  | cons f fs ih =>
    rcases s.register_cases f with ⟨-, hrefused⟩ | ⟨-, larger, haccepted, -⟩
    · simp only [registerEach, hrefused, List.length_cons, ih]
    · simp only [registerEach, haccepted, List.length_cons, ih]

/-- The accepted functions stand behind those that were there, in the order in which they were offered. -/
theorem functions_registerEach (s : RuleSet) (fs : List UserFunction) :
    (s.registerEach fs).2.functions = s.functions ++ accepted fs (s.registerEach fs).1 := by
  induction fs generalizing s with
  | nil => simp [registerEach, accepted]
  | cons f fs ih =>
    rcases s.register_cases f with ⟨-, hrefused⟩ | ⟨-, larger, haccepted, hlarger⟩
    · simp only [registerEach, hrefused, accepted, ih]
    · simp only [registerEach, haccepted, accepted, ih, hlarger, List.append_assoc, List.singleton_append]

/-- A name is taken once a function of that name has been offered. -/
theorem mem_functionNames_registerEach {name : Text} (s : RuleSet) (fs : List UserFunction) :
    name ∈ (s.registerEach fs).2.functionNames ↔ name ∈ s.functionNames ∨ ∃ f ∈ fs, f.name = name := by
  induction fs generalizing s with
  | nil => simp [registerEach]
  | cons f fs ih =>
    rcases s.register_cases f with ⟨htaken, hrefused⟩ | ⟨-, larger, haccepted, hlarger⟩
    · simp only [registerEach, hrefused, ih, List.mem_cons, exists_eq_or_imp]
      constructor
      · exact fun h => h.imp id .inr
      · rintro (h | rfl | h)
        · exact .inl h
        · exact .inl htaken
        · exact .inr h
    · have hnames : name ∈ larger.functionNames ↔ name ∈ s.functionNames ∨ f.name = name := by
        unfold functionNames
        simp [hlarger, eq_comm]
      simp only [registerEach, haccepted, ih, hnames, List.mem_cons, exists_eq_or_imp, or_assoc]

/-- A function keeps its place when further ones are offered. -/
theorem getElem?_functions_registerEach {id : Nat} (h : s.functions[id]? = some f) (fs : List UserFunction) :
    (s.registerEach fs).2.functions[id]? = some f := by
  rw [functions_registerEach, List.getElem?_append_left (List.getElem?_eq_some_iff.1 h).1, h]

end

/-- A function that is offered among others: if its name is taken by then, it is refused and the rules stay as they were. Otherwise its
rule is inserted behind those of the functions accepted before it and keeps its number. -/
theorem offered_cases (s : RuleSet) (before after : List UserFunction) (f : UserFunction) :
    let t := (s.registerEach before).2
    let answer := (s.registerEach (before ++ f :: after)).1[before.length]?
    (f.name ∈ t.functionNames ∧ answer = some (.error (.alreadyRegistered f.name)) ∧ (s.registerEach (before ++ [f])).2 = t) ∨
      (f.name ∉ t.functionNames ∧ ∃ id, answer = some (.ok id) ∧
        (s.registerEach (before ++ [f])).2.rules = t.rules.insertIdx id f.rule ∧
        (s.registerEach (before ++ f :: after)).2.get? id = some f.rule) := by
  intro t answer
  -- the answer at the place of the function is the one that the rules before it give
  have hanswer : answer = (t.registerEach (f :: after)).1.head? := by
    have hlength := length_registerEach s before
    simp only [answer, t, registerEach_append, ← hlength]
    rw [List.getElem?_append_right (Nat.le_refl _), Nat.sub_self, List.head?_eq_getElem?]
  have hlater : ∀ gs, (s.registerEach (before ++ gs)).2 = (t.registerEach gs).2 := by
    intro gs
    rw [registerEach_append]
  rw [hanswer, hlater, hlater]
  rcases t.register_cases f with ⟨htaken, hrefused⟩ | ⟨hfree, larger, haccepted, hlarger⟩
  · simp only [registerEach, hrefused]
    exact .inl ⟨htaken, rfl, trivial⟩
  · simp only [registerEach, haccepted]
    refine .inr ⟨hfree, t.functions.length, rfl, rules_of_functions hlarger, ?_⟩
    refine get?_of_functions (getElem?_functions_registerEach ?_ after)
    rw [hlarger]
    exact List.getElem?_concat_length

end RuleSet

namespace Registry

/-- Offers functions to a registry one after the other: the answers, and the registry after them. A function that is refused leaves the
registry alone. -/
def registerEach (r : Registry) : List UserFunction → List (Except FunctionFault Nat) × Registry
  | [] => ([], r)
  | f :: rest =>
    match r.register f with
    | .error fault => (.error fault :: (registerEach r rest).1, (registerEach r rest).2)
    | .ok (id, larger) => (.ok id :: (registerEach larger rest).1, (registerEach larger rest).2)

section
variable (s : RuleSet)

/-- The counted rules of the registry of a set are those of its functions. -/
theorem functionNames_registry : s.registry.functionNames = s.functionNames.map String.ofList := by
  have hlength : s.functions.length = (s.functions.map UserFunction.rule).length := (List.length_map _).symm
  rw [functionNames, RuleSet.registry, RuleSet.rules, hlength, List.take_left, RuleSet.functionNames, List.map_map, List.map_map]
  rfl

/-- The registry of a set takes the words for commands that the set takes for them. -/
theorem isCommand_registry (word : Text) : s.registry.isCommand word = s.isCommand word := by
  have hnames : s.registry.isFunction word = s.isFunction word := by
    rw [isFunction, functionNames_registry, RuleSet.isFunction, List.any_map, List.contains_eq_any_beq]
    refine congrArg (List.any _) (funext fun name => ?_)
    rw [Function.comp_apply, Bool.eq_iff_iff, beq_iff_eq, beq_iff_eq, String.ofList_inj, eq_comm]
  rw [isCommand, RuleSet.isCommand, hnames]

/-- Registering with a set and with its registry has the same answer and leads to a set and its registry. -/
theorem register_registry (f : UserFunction) :
    s.registry.register f = (s.register f).map fun answer => (answer.1, answer.2.registry) := by
  rw [register, isCommand_registry]
  rcases s.register_cases f with ⟨htaken, hrefused⟩ | ⟨hfree, larger, haccepted, hlarger⟩
  · rw [if_pos (RuleSet.isCommand_name.2 htaken), hrefused]
    rfl
  · rw [if_neg fun h => hfree (RuleSet.isCommand_name.1 h), haccepted, Except.map, RuleSet.registry, RuleSet.registry,
      RuleSet.rules_of_functions hlarger, hlarger, List.length_append]
    rfl

/-- A run of registrations with a set and one with its registry have the same answers and end with a set and its registry. -/
theorem registerEach_registry (fs : List UserFunction) :
    s.registry.registerEach fs = ((s.registerEach fs).1, (s.registerEach fs).2.registry) := by
  induction fs generalizing s with
  | nil => rfl
  | cons f fs ih =>
    rw [registerEach, register_registry, RuleSet.registerEach]
    cases s.register f with
    | error fault => simp only [Except.map, ih]
    | ok answer => simp only [Except.map, ih]

end

/-- Functions offered to the registry of the standard rules, in six parts.
1. Every one of them was accepted at its creation.
2. The rules are those of the accepted functions, in the order of their acceptance, and then the seven standard ones; the count is the
   number of the accepted functions.
3. No two counted rules have the same name, and none has a reserved one.
4. The names that are taken when a function is offered are those of the functions offered before it.
5. If its name is taken, the function is refused and the registry stays as it was. Otherwise its rule is inserted behind those of the
   functions accepted before it, and the number it gets is that of this rule after all later registrations.
6. A rule set that the functions are offered to has the same answers and the same rules. -/
theorem registerEach_standard (offered before after : List UserFunction) (f : UserFunction) :
    let answers := (standard.registerEach offered).1
    let r := (standard.registerEach offered).2
    let t := (standard.registerEach before).2
    let answer := (standard.registerEach (before ++ f :: after)).1[before.length]?
    (∀ g ∈ offered, UserFunction.create g.name g.document g.apply = .ok g) ∧
    (r.rules = (RuleSet.accepted offered answers).map UserFunction.rule ++ Rule.standard ∧
      r.count = (RuleSet.accepted offered answers).length ∧
      Rule.standard.map Rule.name =
        ["Sqrt", "Fraction", "Logarithm", "Trigonometry", "InverseTrigonometry", "Exponentiation", "Constant"]) ∧
    (r.functionNames.Nodup ∧ ∀ name ∈ r.functionNames, Command.isReserved name.toList = false) ∧
    (String.ofList f.name ∈ t.functionNames ↔ ∃ g ∈ before, g.name = f.name) ∧
    ((String.ofList f.name ∈ t.functionNames ∧ answer = some (.error (.alreadyRegistered f.name)) ∧
        (standard.registerEach (before ++ [f])).2 = t) ∨
      (String.ofList f.name ∉ t.functionNames ∧ ∃ id, answer = some (.ok id) ∧
        (standard.registerEach (before ++ [f])).2.rules = t.rules.insertIdx id f.rule ∧
        (standard.registerEach (before ++ f :: after)).2.get? id = some f.rule)) ∧
    ((RuleSet.standard.registerEach offered).1 = answers ∧ (RuleSet.standard.registerEach offered).2.rules = r.rules) := by
  intro answers r t answer
  have hrun : ∀ fs, standard.registerEach fs = ((RuleSet.standard.registerEach fs).1, (RuleSet.standard.registerEach fs).2.registry) :=
    registerEach_registry RuleSet.standard
  have hr : r = (RuleSet.standard.registerEach offered).2.registry := congrArg Prod.snd (hrun offered)
  have ht : t = (RuleSet.standard.registerEach before).2.registry := congrArg Prod.snd (hrun before)
  have hanswers : answers = (RuleSet.standard.registerEach offered).1 := congrArg Prod.fst (hrun offered)
  have hmem : ∀ (s : RuleSet) (word : Text), String.ofList word ∈ s.registry.functionNames ↔ word ∈ s.functionNames := by
    intro s word
    rw [functionNames_registry, List.mem_map_of_injective fun _ _ => String.ofList_inj.1]
  have hfunctions := RuleSet.functions_registerEach RuleSet.standard offered
  rw [← hanswers] at hfunctions
  refine ⟨fun g _ => g.create_self, ⟨?_, ?_, by decide⟩, ⟨?_, ?_⟩, ?_, ?_, hanswers.symm, by rw [hr]; rfl⟩
  · rw [hr]
    exact congrArg (fun fs => List.map UserFunction.rule fs ++ Rule.standard) hfunctions
  · rw [hr]
    exact congrArg List.length hfunctions
  · rw [hr, functionNames_registry]
    exact (RuleSet.distinct _).map fun _ _ => String.ofList_inj.1
  · rw [hr, functionNames_registry]
    intro name hname
    obtain ⟨word, hword, rfl⟩ := List.mem_map.1 hname
    obtain ⟨g, -, rfl⟩ := List.mem_map.1 hword
    rw [String.toList_ofList]
    exact g.notReserved
  · rw [ht, hmem, RuleSet.mem_functionNames_registerEach]
    simp [RuleSet.functionNames, RuleSet.standard]
  · have hanswer : answer = (RuleSet.standard.registerEach (before ++ f :: after)).1[before.length]? := by
      simp only [answer, hrun]
    rw [hanswer, ht, hmem, hrun, hrun]
    rcases RuleSet.offered_cases RuleSet.standard before after f with ⟨htaken, hrefused, hsame⟩ | ⟨hfree, id, haccepted, hlarger, hget⟩
    · exact .inl ⟨htaken, hrefused, by rw [hsame]⟩
    · exact .inr ⟨hfree, id, haccepted, hlarger, hget⟩

example : (standard.registerEach [.fibonacci, .fibonacci]).1 = [.ok 0, .error (.alreadyRegistered "fib".toList)] := by rfl

end Registry

end FormulaDag
