import FormulaDag.Text.Basic

/-!
# Redundant parentheses

A pair of parentheses around a whole text changes nothing about it. `unwrap` takes such pairs off as long as there are any. The
pair has to match: in `(a)(b)` the first parenthesis closes before the last one opens, and nothing is taken off.
-/

namespace FormulaDag.Text

/-- Whether, from a number of open parentheses on, none closes that is not open and none is left open at the end. -/
def balancedFrom : Nat → Text → Bool
  | depth, [] => depth == 0
  | depth, c :: rest =>
    if c = '(' then balancedFrom (depth + 1) rest
    else if c = ')' then
      match depth with
      | 0 => false
      | shallower + 1 => balancedFrom shallower rest
    else balancedFrom depth rest

/-- Whether the parentheses of a text match. -/
def balanced (t : Text) : Bool := balancedFrom 0 t

/-- What stands inside a pair of matching parentheses around the whole text, if there is such a pair. -/
def inside? : Text → Option Text
  | [] => none
  | c :: rest =>
    if c = '(' ∧ rest.getLast? = some ')' ∧ balanced rest.dropLast = true then some rest.dropLast else none

/-- What stands inside a pair is shorter than the text. -/
theorem length_of_inside? {t inner : Text} (h : inside? t = some inner) : inner.length < t.length := by
  cases t with
  | nil => simp [inside?] at h
  | cons c rest =>
    simp only [inside?, Option.ite_none_right_eq_some, Option.some.injEq] at h
    rw [← h.2, List.length_dropLast, List.length_cons]
    omega

/-- The text without the pairs of parentheses around it. -/
def unwrap (t : Text) : Text :=
  match _inside : inside? t with
  | some inner => unwrap inner
  | none => t
termination_by t.length
decreasing_by exact length_of_inside? _inside

end FormulaDag.Text
