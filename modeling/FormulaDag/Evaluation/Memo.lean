import FormulaDag.Branches

/-!
# Memos

Results that were computed are kept, for each node under the written values of the variables. A memo has a slot for each node it
was made for and keeps nothing for others.
-/

namespace FormulaDag

/-- The written values of the variables, in the order of their declaration. -/
abbrev Key := List Text

namespace Key

/-- The key of the values of the variables. -/
def ofValues (values : List Float) : Key := values.map Decimal.plain

end Key

/-- Results by node and key. -/
structure Memo where
  slots : Nat
  entries : List ((Nat × Key) × Branches)

namespace Memo

/-- A memo without results for the given number of nodes. -/
def empty (slots : Nat) : Memo := ⟨slots, []⟩

/-- The result of a node under a key. -/
def get? (m : Memo) (i : Nat) (key : Key) : Option Branches := m.entries.lookup (i, key)

/-- Whether there is a result of a node under a key. -/
def contains (m : Memo) (i : Nat) (key : Key) : Bool := (m.get? i key).isSome

/-- Keeps a result, in the place of an earlier one. -/
def insert (m : Memo) (i : Nat) (key : Key) (result : Branches) : Memo :=
  if i < m.slots then ⟨m.slots, ((i, key), result) :: m.entries.filter fun e => e.1 != (i, key)⟩ else m

/-- The number of results. -/
def size (m : Memo) : Nat := m.entries.length

end Memo

end FormulaDag
