/-!
# Combinations

One choice from each of several lists is a combination. Combinations are visited as an odometer turns: the last position fastest.
`all` is the list of all of them in that order, `next?` the single turn, and `fold` visits them one after the other without ever
holding the list.
-/

namespace FormulaDag.Combination

/-- Every vector of positions below the given lengths, in lexicographic order. -/
def all : List Nat → List (List Nat)
  | [] => [[]]
  | length :: lengths => (List.range length).flatMap fun i => (all lengths).map (i :: ·)

/-- The number of combinations. -/
def count (lengths : List Nat) : Nat := lengths.foldr (· * ·) 1

/-- The combination after the given one: the last position that can still grow does so, and those after it start again. -/
def next? : List Nat → List Nat → Option (List Nat)
  | length :: lengths, i :: cursor =>
    match next? lengths cursor with
    | some turned => some (i :: turned)
    | none => if i + 1 < length then some ((i + 1) :: cursor.map fun _ => 0) else none
  | _, _ => none

variable {σ ε α β : Type}

/-- Visits at most `turns` combinations from `cursor` on, and stops at the first failure. -/
def foldFrom (lengths : List Nat) (visit : σ → List Nat → Except ε σ) : Nat → List Nat → σ → Except ε σ
  | 0, _, state => .ok state
  | turns + 1, cursor, state =>
    match visit state cursor with
    | .error e => .error e
    | .ok reached =>
      match next? lengths cursor with
      | none => .ok reached
      | some turned => foldFrom lengths visit turns turned reached

/-- Visits every combination in order and stops at the first failure. There is one combination of no lists, and none when some
list is empty. -/
def fold (lengths : List Nat) (visit : σ → List Nat → Except ε σ) (state : σ) : Except ε σ :=
  foldFrom lengths visit (count lengths) (lengths.map fun _ => 0) state

/-- The elements that a vector of positions picks from the lists. -/
def pick (choices : List (List α)) (cursor : List Nat) : List α :=
  (choices.zip cursor).filterMap fun (list, i) => list[i]?

/-- The value of `f` on every choice of one element from each list, in order, up to the first failure. -/
def mapChoices (choices : List (List α)) (f : List α → Except ε β) : Except ε (List β) :=
  (fold (choices.map List.length) (fun found cursor => (f (pick choices cursor)).map (· :: found)) []).map List.reverse

example : all [2, 1, 2] = [[0, 0, 0], [0, 0, 1], [1, 0, 0], [1, 0, 1]] := by decide
example : next? [2, 3] [0, 2] = some [1, 0] := by decide

end FormulaDag.Combination
