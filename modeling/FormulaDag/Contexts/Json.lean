import FormulaDag.Contexts.Order
import FormulaDag.Json.Reader
import FormulaDag.Json.Writer

/-!
# Contexts as JSON

Contexts are written as an object from decimal indices to contexts, in ascending order of the index, and read back from such an
object. Members are looked at in ascending order of their names as texts; of two names for one index the later one counts.
-/

namespace FormulaDag.Contexts

/-- The written form of contexts. -/
def toJson (c : Contexts) : Text := Json.writeObject (c.entries.map fun e => (Text.ofNat e.1, e.2))

/-- Adds the members of an object to contexts, up to the first whose name is no index or whose value is no string. -/
def addMembers (c : Contexts) : List (Text × Json) → Except ContextsFault Contexts
  | [] => .ok c
  | (name, value) :: rest =>
    match Index.read? name with
    | none => .error (.notIndex name)
    | some i =>
      match value with
      | .string t => addMembers (c.insert i t) rest
      | other => .error (.notText i other.kind)

/-- The contexts that a JSON value holds, before they are validated. -/
def ofValue : Json → Except ContextsFault Contexts
  | .null => .error .notDefined
  | .object items => addMembers empty (Json.members items)
  | other => .error (.notObject other.kind)

/-- The contexts that a JSON text holds, validated. -/
def ofJson (t : Text) : Except ContextsFault Contexts := do
  match Json.read? t with
  | none => .error .unreadable
  | some value =>
    let c ← ofValue value
    c.validate
    return c

end FormulaDag.Contexts
