import FormulaDag.Argument
import FormulaDag.Contexts.Json
import FormulaDag.Contexts.OfSource
import FormulaDag.Evaluation.Basic
import FormulaDag.Manual
import FormulaDag.Outline
import FormulaDag.Settings

/-!
# Formulas

A formula is compiled once, from a source text or from contexts, and then evaluated for as many arguments as one likes. Results of
all its nodes are kept, so an operation gives back the formula with what it has computed besides its answer.
-/

namespace FormulaDag

/-- A compiled formula with the results kept so far. -/
structure Formula where
  letters : List Char
  rules : RuleSet
  contexts : Contexts
  dag : Dag
  memo : Memo
  settings : Settings

namespace Formula

/-- The formula of contexts whose variables have been declared. -/
def ofParts (rules : RuleSet) (letters : List Char) (contexts : Contexts) (settings : Settings) :
    Except Failure Formula := do
  let _ ← contexts.order.mapError fun i => Failure.evaluation (.cycle i)
  let dag ← (Dag.build rules letters contexts).mapError Failure.operand
  return ⟨letters, rules, contexts, dag, Memo.empty dag.size, settings⟩

/-- The formula of a source text. -/
def compileWith (rules : RuleSet) (settings : Settings) (names : List Text) (source : Text) : Except Failure Formula := do
  settings.validate.mapError Failure.source
  let letters ← (Source.declare rules names).mapError Failure.source
  let contexts ← Contexts.ofSource rules letters source
  ofParts rules letters contexts settings

/-- The formula of a source text with the standard settings. -/
def compile (rules : RuleSet) (names : List Text) (source : Text) : Except Failure Formula :=
  compileWith rules Settings.standard names source

/-- The formula of given contexts. -/
def ofContexts (rules : RuleSet) (names : List Text) (contexts : Contexts) : Except Failure Formula := do
  let letters ← (Source.declare rules names).mapError Failure.source
  contexts.validate.mapError Failure.contexts
  ofParts rules letters contexts.compact Settings.standard

/-- The formula of contexts written as JSON. -/
def ofJson (rules : RuleSet) (names : List Text) (json : Text) : Except Failure Formula := do
  let contexts ← (Contexts.ofJson json).mapError Failure.contexts
  ofContexts rules names contexts

/-- The formula under other settings. Results that were kept stay. -/
def withSettings (f : Formula) (settings : Settings) : Except Failure Formula := do
  settings.validate.mapError Failure.source
  return { f with settings := settings }

/-- What is needed to evaluate the nodes of a formula. -/
def evaluation (f : Formula) : Evaluation := ⟨f.dag, f.rules, f.settings.precision⟩

/-- The branches of the root for the given arguments, with the assignment made from them. -/
def root (f : Formula) (arguments : List (Text × Argument)) :
    Except Failure (Evaluation.Valuation × Branches) × Formula :=
  match Argument.bind arguments f.letters with
  | .error fault => (.error (.user fault), f)
  | .ok values =>
    match f.evaluation.evaluate (.ofValues values) Index.root f.memo with
    | (.error fault, memo) => (.error (.evaluation fault), { f with memo := memo })
    | (.ok result, memo) => (.ok (.ofValues values, result), { f with memo := memo })

/-- The branches of a formula for the given arguments, ascending, rounded to a number of places in the end. -/
def call (f : Formula) (arguments : List (Text × Argument)) (places : Nat) : Except Failure Branches × Formula :=
  match f.root arguments with
  | (.error fault, g) => (.error fault, g)
  | (.ok (_, result), g) => (.ok (result.map (Branches.toPlaces places)), g)

/-- The branches of a formula, rounded as its settings say. -/
def callRounded (f : Formula) (arguments : List (Text × Argument)) : Except Failure Branches × Formula :=
  f.call arguments f.settings.places

/-- The branches of a formula for several assignments of numbers, each on its own. -/
def callEach (f : Formula) (places : Nat) : List (List (Text × Float)) → List (Except Failure Branches) × Formula
  | [] => ([], f)
  | assignment :: rest =>
    let (answer, g) := f.call (assignment.map fun (name, x) => (name, .number x)) places
    let (answers, last) := callEach g places rest
    (answer :: answers, last)

/-- The outline of the root with the values it has for the given arguments. -/
def outline (f : Formula) (arguments : List (Text × Argument)) : Except Failure String × Formula :=
  match f.root arguments with
  | (.error fault, g) => (.error fault, g)
  | (.ok (a, _), g) => (.ok (Outline.render g.dag g.rules g.memo a.key Index.root), g)

/-- The table of the constructs that the source may use. -/
def manual (f : Formula) : Except Failure String := (Manual.render f.rules).mapError Failure.user

/-- The number of results that are kept. -/
def keptResults (f : Formula) : Nat := f.memo.size

/-- The indices of a formula, dependencies before what depends on them. -/
def order (f : Formula) : Except Failure (List Nat) :=
  f.contexts.order.mapError fun i => Failure.evaluation (.cycle i)

end Formula

end FormulaDag
