import FormulaDag.Decimal.Rounding
import FormulaDag.Text.Basic

/-!
# JSON values

The members of an object are kept in the order in which they are written, duplicates included; `Json.members` is the view in which
the last member of a name wins and the names ascend.
-/

namespace FormulaDag

/-- A value of a JSON text. A number is its decimal, with a flag that it was written as a bare integer. -/
inductive Json where
  | null
  | bool (value : Bool)
  | number (value : Decimal) (bare : Bool)
  | string (value : Text)
  | array (items : List Json)
  | object (items : List (Text × Json))

namespace Json

/-- What a value is called in messages. -/
def kind : Json → String
  | null => "null"
  | bool _ => "a boolean"
  | number _ _ => "a number"
  | string _ => "a string"
  | array _ => "an array"
  | object _ => "an object"

/-- The natural number that a value is, when it is written as one. -/
def toNat? : Json → Option Nat
  | number value true => if value.negative then none else some value.coefficient
  | _ => none

/-- Whether one text comes before another in the order of their code points, which is the order of their bytes in UTF-8. -/
def precedes : Text → Text → Bool
  | _, [] => false
  | [], _ :: _ => true
  | c :: s, d :: t => c.toNat < d.toNat || (c == d && precedes s t)

/-- Puts a member into a list with ascending names, in the place of a member of the same name if there is one. -/
def insertMember {α : Type} (name : Text) (value : α) : List (Text × α) → List (Text × α)
  | [] => [(name, value)]
  | (other, kept) :: rest =>
    if precedes name other then (name, value) :: (other, kept) :: rest
    else if name = other then (name, value) :: rest
    else (other, kept) :: insertMember name value rest

/-- The members of an object in ascending order of their names, the last one of each name. -/
def members {α : Type} (items : List (Text × α)) : List (Text × α) :=
  items.foldl (fun sorted item => insertMember item.1 item.2 sorted) []

end Json

end FormulaDag
