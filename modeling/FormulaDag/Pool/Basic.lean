import FormulaDag.Index

/-!
# Pools of texts

While a source text is taken apart, its subexpressions live in a pool: a list of cells, numbered by index. A text that is already
there is shared. Replacing the text of a cell may make it equal to that of another; then the cell points to the other one instead.
The table finds the index of a text.
-/

namespace FormulaDag

/-- A cell of a pool: a text, or a pointer to the cell with the same text. -/
inductive Cell where
  | holding (text : Text)
  | pointing (into : Nat)
deriving DecidableEq

/-- Numbered texts with a table from texts to numbers. -/
structure Pool where
  cells : List Cell
  table : List (Text × Nat)
deriving DecidableEq

namespace Pool

/-- A pool with an empty root that is not in the table yet. -/
def empty : Pool := ⟨[.holding []], []⟩

/-- The index of a text. -/
def find? (p : Pool) (t : Text) : Option Nat := p.table.lookup t

/-- Whether an index holds a text of its own. -/
def holds (p : Pool) (i : Nat) : Bool :=
  match p.cells[i]? with
  | some (.holding _) => true
  | _ => false

/-- The indices that hold texts of their own, in ascending order. -/
def holders (p : Pool) : List Nat := (List.range p.cells.length).filter p.holds

/-- Follows at most the given number of pointers. -/
def follow (p : Pool) : Nat → Nat → Nat
  | 0, i => i
  | steps + 1, i =>
    match p.cells[i]? with
    | some (.pointing into) => follow p steps into
    | _ => i

/-- The index at the end of the pointers from an index. No chain of pointers is longer than the pool. -/
def resolve (p : Pool) (i : Nat) : Nat := p.follow p.cells.length i

/-- The text of an index, behind its pointers. -/
def text (p : Pool) (i : Nat) : Text :=
  match p.cells[p.resolve i]? with
  | some (.holding t) => t
  | _ => []

/-- A text put into a pool: the pool after that, the index of the text, and whether the index is new. -/
structure Interned where
  pool : Pool
  index : Nat
  created : Bool

/-- Finds a text in the pool or adds it at the end. -/
def intern (p : Pool) (t : Text) : Interned :=
  match p.find? t with
  | some i => ⟨p, i, false⟩
  | none => ⟨⟨p.cells ++ [.holding t], (t, p.cells.length) :: p.table⟩, p.cells.length, true⟩

/-- The table without the text of an index. -/
def tableWithout (p : Pool) (i : Nat) : List (Text × Nat) :=
  match p.cells[i]? with
  | some (.holding old) => if p.find? old = some i then p.table.filter fun entry => entry.1 != old else p.table
  | _ => p.table

/-- Replaces the text of an index. When another index holds the new text, the index becomes a pointer to that one. -/
def setText (p : Pool) (i : Nat) (t : Text) : Pool :=
  match (p.tableWithout i).lookup t with
  | some other =>
    if other = i then ⟨p.cells.set i (.holding t), p.tableWithout i⟩
    else ⟨p.cells.set i (.pointing other), p.tableWithout i⟩
  | none => ⟨p.cells.set i (.holding t), (t, i) :: p.tableWithout i⟩

end Pool

end FormulaDag
