import FormulaDag.Pool.Basic
import FormulaDag.RuleSet

/-!
# Reduction by rules

Every occurrence of a rule that is not a whole text becomes an index of its own. Indices wait in a queue. For the one in front the
rules are tried in order, each until it occurs no more or takes up the whole text. An index whose text changed waits again, for an
earlier rule may occur in the new text; so do the indices created on the way. Each extraction takes characters outside of tokens out
of a text and leaves a token, so the process comes to an end; its length is bounded in advance.
-/

namespace FormulaDag.Pool

/-- The state while one index is reduced: the pool, the indices created so far, and whether the text of the index changed. -/
structure Progress where
  pool : Pool
  created : List Nat
  changed : Bool

namespace Progress

/-- Replaces an occurrence in the text of an index by the token of the index that holds it. -/
def extract (s : Progress) (i : Nat) (l : Located) : Progress :=
  match s.pool.intern l.occurrence.text with
  | ⟨pool, child, created⟩ =>
    ⟨pool.setText i (l.before ++ Index.token child ++ l.after), if created then s.created ++ [child] else s.created, true⟩

end Progress

/-- Extracts occurrences of one rule from the text of an index until none is left but one that takes up the whole text, at most the
given number of times. -/
def exhaust (i : Nat) (id : Nat) (r : Rule) : Nat → Progress → Except OperandFault Progress
  | 0, s => .ok s
  | turns + 1, s =>
    if s.pool.holds i then
      match r.locate id (s.pool.text i) with
      | .error fault => .error fault
      | .ok none => .ok s
      | .ok (some l) =>
        if l.occurrence.isWhole (s.pool.text i) then .ok s else exhaust i id r turns (s.extract i l)
    else .ok s

/-- Tries the rules in order on the text of an index. No rule extracts more occurrences than the text has characters. -/
def reduceIndex (rules : List (Nat × Rule)) (p : Pool) (i : Nat) : Except OperandFault Progress :=
  rules.foldlM (fun s (id, r) => exhaust i id r ((s.pool.text i).length + 1) s) ⟨p, [], false⟩

/-- Reduces the indices of a queue, at most the given number of them. -/
def reduceQueue (rules : List (Nat × Rule)) : Nat → Pool → List Nat → Except OperandFault Pool
  | 0, p, _ => .ok p
  | _, p, [] => .ok p
  | turns + 1, p, i :: queue =>
    match reduceIndex rules p i with
    | .error fault => .error fault
    | .ok s =>
      reduceQueue rules turns s.pool
        (queue ++ s.created ++ if s.changed && s.pool.holds i then [i] else [])

/-- A bound on the number of indices that reduction takes from its queue: each is there from the beginning, or was created or put
back by an extraction, and the sum of the squares of the lengths, counted twice, bounds the number of extractions. -/
def reductionBound (p : Pool) : Nat :=
  p.holders.length + 2 * (p.holders.map fun i => Nat.pow (2 * (p.text i).length) 2).foldr (· + ·) 0 + 1

/-- Reduces every text of a pool by the rules. -/
def reduce (s : RuleSet) (p : Pool) : Except OperandFault Pool :=
  reduceQueue s.numbered p.reductionBound p p.holders

end FormulaDag.Pool
