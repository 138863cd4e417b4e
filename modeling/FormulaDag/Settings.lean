import FormulaDag.Failure
import FormulaDag.Json.Reader

/-!
# Settings of an evaluation

How many places results are rounded to when nothing else is asked for, and to how many significant digits every intermediate
result is normalized.
-/

namespace FormulaDag

/-- The settings of an evaluation. -/
structure Settings where
  places : Nat := 5
  precision : Nat := 15
deriving DecidableEq

namespace Settings

/-- The settings that hold unless others are given. -/
def standard : Settings := {}

/-- The greatest precision: doubles have no more significant decimal digits. -/
def greatestPrecision : Nat := 17

/-- Accepts settings with a precision in range. -/
def validate (s : Settings) : Except SourceFault Unit :=
  if s.precision = 0 ∨ greatestPrecision < s.precision then .error (.badSettings (.precision s.precision)) else .ok ()

/-- Reads a setting: a natural number that fits 32 bits. -/
def number? (value : Json) : Option Nat := value.toNat?.filter (· < 0x100000000)

/-- Reads settings from the items of an array, in the order of the fields; missing ones keep their standard. -/
def ofItems : List Json → Option Settings
  | [] => some {}
  | [places] => (number? places).map fun n => { places := n }
  | [places, precision] => do return ⟨← number? places, ← number? precision⟩
  | _ => none

/-- Reads settings from the members of an object; each may occur once, and there are no others. -/
def ofMembers (items : List (Text × Json)) : Option Settings :=
  if (items.map Prod.fst).eraseDups.length < items.length then none
  else
    items.foldlM (fun s (name, value) =>
      if name = "round_digits".toList then (number? value).map fun n => { s with places := n }
      else if name = "precision".toList then (number? value).map fun n => { s with precision := n }
      else none) standard

/-- The settings that a JSON value holds. -/
def ofValue? : Json → Option Settings
  | .array items => ofItems items
  | .object items => ofMembers items
  | _ => none

/-- The settings that a JSON text holds, validated. -/
def ofJson (t : Text) : Except SourceFault Settings := do
  match (Json.read? t).bind ofValue? with
  | none => .error (.badSettings .unreadable)
  | some s =>
    s.validate
    return s

end Settings

end FormulaDag
