import FormulaDag.Rule.Pattern
import FormulaDag.Failure
import FormulaDag.Decimal.Reading
import FormulaDag.Command
import FormulaDag.Elementary

/-!
# Rules

A rule recognises one construct: its pattern says how the construct is written, its slots which parts of it are operands, its guard
where it may stand, and its function what value it has. `Rule.find` gives the leftmost occurrence of a rule in a text.
-/

namespace FormulaDag

/-- An operand of a rule: a number, a reference to another subexpression, or text that is neither. -/
inductive Operand where
  | literal (value : Float)
  | index (i : Nat)
  | raw (text : Text)
deriving DecidableEq

namespace Operand

/-- The index that an operand refers to, if it does. -/
def index? : Operand → Option Nat
  | index i => some i
  | _ => none

end Operand

/-- The place of an operand: the name of the part that holds it, what may stand there besides a number, the number that an absent
part stands for, and whether the part may be absent without one. -/
structure Slot where
  name : String
  takesIndex : Bool := true
  takesText : Bool := false
  absent : Option Float := none
  required : Bool := true
deriving DecidableEq

/-- How a rule presents itself to users. -/
structure Document where
  title : String
  sample : String
  summary : String
deriving DecidableEq

/-- The part that names the function to apply, with the names it may have. -/
structure Selector where
  group : String
  choices : List String
deriving DecidableEq

/-- One combination of operand values for a rule. -/
structure Arguments where
  selector : Option String
  values : List (Option Float)
deriving DecidableEq

namespace Arguments

/-- The value of an operand, if it is present. -/
def get? (a : Arguments) (i : Nat) : Option Float := a.values[i]?.join

/-- The value of an operand that is always present. -/
def value (a : Arguments) (i : Nat) : Float := (a.get? i).getD Elementary.undefinedValue

/-- The name of the function to apply, empty when the rule has only one. -/
def function (a : Arguments) : String := a.selector.getD ""

end Arguments

/-- A construct: how it is written, where it may stand, and what it computes. The guard sees the text before the place with the
nearest character first, and the text from the place on. -/
structure Rule where
  name : String
  pattern : Pattern
  admits : Text → Text → Bool := fun _ _ => true
  selector : Option Selector := none
  slots : List Slot
  apply : Arguments → Except EvaluationFault Float
  document : Document

/-- An occurrence of a rule in a text, with the byte positions of its two ends. The rule is named by its position in a rule set. -/
structure Occurrence where
  rule : Nat
  start : Nat
  stop : Nat
  text : Text
  selector : Option String
  operands : List (Option Operand)
deriving DecidableEq

namespace Occurrence

/-- Whether an occurrence takes up all of a text. -/
def isWhole (o : Occurrence) (t : Text) : Bool := o.start == 0 && o.stop == t.byteSize

/-- The indices that the operands refer to, in the order of the slots. -/
def references (o : Occurrence) : List Nat := o.operands.filterMap fun operand => operand.bind Operand.index?

end Occurrence

/-- An occurrence with the text before it and the text after it. -/
structure Located where
  before : Text
  occurrence : Occurrence
  after : Text
deriving DecidableEq

namespace Slot

/-- The number that a text is: a numeral or a symbol with a single value. -/
def literal? (t : Text) : Option Float :=
  if t ≠ [] ∧ t.all (fun c => c.isDigit || c == '.') then Decimal.read? t else Symbol.constant? t

/-- The operand written in a slot. -/
def read (slot : Slot) (written : Text) : Except OperandFault Operand :=
  match literal? written with
  | some value => .ok (.literal value)
  | none =>
    match if slot.takesIndex then Token.only? written else none with
    | some i => .ok (.index i)
    | none => if slot.takesText then .ok (.raw written) else .error (.badArgument slot.name written)

/-- The operand in a slot of a rule, given the parts of a match. -/
def operand (rule : String) (parts : List (String × Text)) (slot : Slot) : Except OperandFault (Option Operand) :=
  match parts.lookup slot.name with
  | some written => (slot.read written).map some
  | none =>
    if slot.required && slot.absent.isNone then .error (.missing slot.name rule)
    else .ok (slot.absent.map Operand.literal)

end Slot

namespace Selector

/-- The function that a match names. -/
def read (s : Selector) (parts : List (String × Text)) : Except OperandFault String :=
  let word := (parts.lookup s.group).getD []
  match s.choices.find? fun choice => choice.toList == word with
  | some choice => .ok choice
  | none => .error (.badChoice s.group word)

end Selector

namespace Rule

/-- The leftmost place from the given one on where the pattern matches and the guard agrees, with the preferred match there. The
place is given by the text before it, nearest character first, and the text from it on. -/
def search (r : Rule) (behind : Text) : Text → Option (Text × Hit)
  | [] =>
    match r.pattern.first? [] with
    | some h => if r.admits behind [] then some (behind, h) else none
    | none => none
  | c :: rest =>
    match r.pattern.first? (c :: rest) with
    | some h => if r.admits behind (c :: rest) then some (behind, h) else search r (c :: behind) rest
    | none => search r (c :: behind) rest

/-- The occurrence that a match is, or the fault of the first part that is refused: the function name comes before the operands. -/
def occurrence (r : Rule) (id : Nat) (behind : Text) (h : Hit) : Except OperandFault Occurrence := do
  let selector ← match r.selector with
    | some s => (s.read h.parts).map some
    | none => .ok none
  let operands ← r.slots.mapM (Slot.operand r.name h.parts)
  let start := Text.byteSize behind
  return ⟨id, start, start + Text.byteSize h.taken, h.taken, selector, operands⟩

/-- The leftmost occurrence of a rule in a text, with the text before and after it. -/
def locate (r : Rule) (id : Nat) (t : Text) : Except OperandFault (Option Located) :=
  match r.search [] t with
  | none => .ok none
  | some (behind, h) => (r.occurrence id behind h).map fun o => some ⟨behind.reverse, o, h.rest⟩

/-- The leftmost occurrence of a rule in a text. -/
def find (r : Rule) (id : Nat) (t : Text) : Except OperandFault (Option Occurrence) :=
  (r.locate id t).map fun found => found.map Located.occurrence

/-- The leftmost occurrence, if it takes up the whole text. -/
def findWhole (r : Rule) (id : Nat) (t : Text) : Except OperandFault (Option Occurrence) :=
  (r.find id t).map fun found => found.filter fun o => o.isWhole t

end Rule

end FormulaDag
