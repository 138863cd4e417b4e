import FormulaDag.Failure

/-!
# Sums

The value of a list of terms. Products and quotients bind tighter than sums and differences, a number or a group directly after an
operand is a factor, and operators of one kind are taken from left to right. The terms are read one by one: the state holds, for
the group being read and for each group around it, what has been computed and which operator waits for its right operand. So every
operation is carried out as soon as its right operand is known, and the first fault from the left is the one reported.
-/

namespace FormulaDag.Sum

/-- What waits for the next operand of a group: the sum before the current product with a flag that the product is to be
subtracted, the product so far with a flag that the operand divides it, and the number of minus signs before the operand. -/
structure Pending where
  total : Option (Float × Bool)
  product : Option (Float × Bool)
  negations : Nat
deriving DecidableEq

/-- Either an operand has to come, or a product is known and an operator, a further factor or an end may come. The groups around
the current one are kept from the innermost out. -/
inductive State where
  | expecting (here : Pending) (around : List Pending)
  | reached (total : Option (Float × Bool)) (product : Float) (around : List Pending)
deriving DecidableEq

/-- Why a list of terms has no value. -/
inductive Fault where
  | grammatical (fault : GrammarFault)
  | divisionByZero (numerator : Float)
deriving DecidableEq

/-- The beginning of a group. -/
def Pending.fresh : Pending := ⟨none, none, 0⟩

/-- The state at the beginning. -/
def start : State := .expecting .fresh []

/-- The value with the given number of minus signs before it. -/
def negate : Nat → Float → Float
  | 0, x => x
  | n + 1, x => -negate n x

/-- The sum before a product together with the product. -/
def addTo (total : Option (Float × Bool)) (product : Float) : Float :=
  match total with
  | none => product
  | some (sum, false) => sum + product
  | some (sum, true) => sum - product

/-- Gives the operand that was waited for. -/
def supply (here : Pending) (around : List Pending) (operand : Float) : Except Fault State :=
  let factor := negate here.negations operand
  match here.product with
  | none => .ok (.reached here.total factor around)
  | some (product, false) => .ok (.reached here.total (product * factor) around)
  | some (product, true) =>
    if factor == 0.0 then .error (.divisionByZero product) else .ok (.reached here.total (product / factor) around)

/-- Reads one term. -/
def step : State → Term → Except Fault State
  | .expecting here around, .number value => supply here around value
  | .expecting here around, .opening => .ok (.expecting .fresh (here :: around))
  | .expecting here around, .op .plus => .ok (.expecting here around)
  | .expecting here around, .op .minus => .ok (.expecting { here with negations := here.negations + 1 } around)
  | .expecting _ _, term => .error (.grammatical (.unexpected term))
  | .reached total product around, .op .plus => .ok (.expecting ⟨some (addTo total product, false), none, 0⟩ around)
  | .reached total product around, .op .minus => .ok (.expecting ⟨some (addTo total product, true), none, 0⟩ around)
  | .reached total product around, .op .times => .ok (.expecting ⟨total, some (product, false), 0⟩ around)
  | .reached total product around, .op .divide => .ok (.expecting ⟨total, some (product, true), 0⟩ around)
  | .reached total product around, .number value => supply ⟨total, some (product, false), 0⟩ around value
  | .reached total product around, .opening =>
    .ok (.expecting .fresh (⟨total, some (product, false), 0⟩ :: around))
  | .reached total product (here :: around), .closing => supply here around (addTo total product)
  | .reached _ _ [], .closing => .error (.grammatical (.unexpected .closing))

/-- The value at the end of the terms. -/
def finish : State → Except Fault Float
  | .expecting _ _ => .error (.grammatical .unexpectedEnd)
  | .reached total product [] => .ok (addTo total product)
  | .reached _ _ (_ :: _) => .error (.grammatical .missingClose)

/-- Reads terms from a state on. -/
def run (state : State) : List Term → Except Fault Float
  | [] => finish state
  | term :: terms =>
    match step state term with
    | .error fault => .error fault
    | .ok next => run next terms

/-- The value of a list of terms. -/
def value (terms : List Term) : Except Fault Float := run start terms

end FormulaDag.Sum
