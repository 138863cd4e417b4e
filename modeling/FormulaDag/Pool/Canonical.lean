import FormulaDag.Pool.Basic
import FormulaDag.Contexts.Basic

/-!
# Canonical pools

After two cells have been merged, texts may still refer to the one that became a pointer. Making a pool canonical replaces such
references. That may make further texts equal, whose cells are merged in turn, so the sweep is repeated as long as it merges
something; a sweep without a merge leaves no reference to a pointer behind. A canonical pool is frozen into contexts by numbering
the cells with texts from zero on, the root first.
-/

namespace FormulaDag.Pool

/-- The text of an index with its references replaced by what they point to. -/
def resolved (p : Pool) (i : Nat) : Text := Token.mapIndices p.resolve (p.text i)

/-- Replaces the references in the text of one index. -/
def tidy (p : Pool) (i : Nat) : Pool :=
  if p.holds i && p.resolved i != p.text i then p.setText i (p.resolved i) else p

/-- Replaces the references in every text once. -/
def sweep (p : Pool) : Pool := p.holders.foldl tidy p

/-- Repeats the sweep until it merges nothing. -/
def canonical (p : Pool) : Pool :=
  if p.sweep.holders.length < p.holders.length then canonical p.sweep else p.sweep
termination_by p.holders.length

/-- The indices with texts of their own, that of the whole expression first. -/
def numbering (p : Pool) : List Nat :=
  p.resolve Index.root :: p.holders.filter (· != p.resolve Index.root)

/-- The contexts of a canonical pool. -/
def toContexts (p : Pool) : Contexts :=
  Contexts.ofTexts (p.numbering.map fun i => Token.mapIndices (fun j => p.numbering.idxOf (p.resolve j)) (p.text i))

/-- The contexts that a pool stands for. -/
def freeze (p : Pool) : Contexts := p.canonical.toContexts

end FormulaDag.Pool
