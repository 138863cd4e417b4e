import FormulaDag.Text.Blank

/-!
# Spacing

White space in a source text has one meaning: after a command word it separates the word from a letter that follows. Taking the
white space away puts that letter into braces. When the letters begin the name of a function of the user that is applied to a
group, the whole call goes into the braces.
-/

namespace FormulaDag.Source

/-- The number of characters up to the delimiter that closes the group, when so many are open already. -/
def closingLength (opener closer : Char) : Nat → Text → Option Nat
  | _, [] => none
  | depth, c :: rest =>
    if c = opener then (closingLength opener closer (depth + 1) rest).map (· + 1)
    else if c = closer then
      if depth ≤ 1 then some 1 else (closingLength opener closer (depth - 1) rest).map (· + 1)
    else (closingLength opener closer depth rest).map (· + 1)

/-- The length of the group that a text begins with. -/
def groupLength : Text → Option Nat
  | '(' :: rest => closingLength '(' ')' 0 ('(' :: rest)
  | '{' :: rest => closingLength '{' '}' 0 ('{' :: rest)
  | _ => none

/-- The length of the call of a function that a text begins with. -/
def callLength (t name : Text) : Option Nat :=
  match name.isPrefixOf? t with
  | some rest => (groupLength rest).map (name.length + ·)
  | none => none

/-- The length of the operand that a text begins with: the longest call, and otherwise a single character. -/
def operandLength (names : List Text) (t : Text) : Nat := (names.filterMap (callLength t)).max?.getD 1

/-- The operand that begins after a command word and white space, with the text after it; none when the word is empty, when there
is no white space, or when no letter follows. -/
def separated? (names : List Text) (word after : Text) : Option (Text × Text) :=
  let next := after.dropWhile Text.isBlank
  if word ≠ [] ∧ next.length < after.length ∧ next.head?.any Char.isAlpha = true then
    some (next.take (operandLength names next), next.drop (operandLength names next))
  else none

/-- What is separated and what remains are shorter than the text. -/
theorem length_of_separated? {names : List Text} {word after operand rest : Text}
    (h : separated? names word after = some (operand, rest)) :
    operand.length < after.length ∧ rest.length < after.length := by
  simp only [separated?, Option.ite_none_right_eq_some, Option.some.injEq, Prod.mk.injEq] at h
  obtain ⟨⟨_, hlt, _⟩, rfl, rfl⟩ := h
  simp only [List.length_take, List.length_drop]
  omega

/-- The text without its white space. -/
def stripBlanks (names : List Text) (t : Text) : Text :=
  match t with
  | [] => []
  | c :: rest =>
    if Text.isBlank c then stripBlanks names rest
    else if c = '\\' then
      match _separated : separated? names (rest.takeWhile Char.isAlpha) (rest.dropWhile Char.isAlpha) with
      | some (operand, after) =>
        c :: rest.takeWhile Char.isAlpha ++ '{' :: stripBlanks names operand ++ '}' :: stripBlanks names after
      | none => c :: rest.takeWhile Char.isAlpha ++ stripBlanks names (rest.dropWhile Char.isAlpha)
    else c :: stripBlanks names rest
termination_by t.length
decreasing_by
  · simp
  · have shorter := (List.dropWhile_suffix (l := rest) Char.isAlpha).length_le
    have := (length_of_separated? _separated).1
    simp only [List.length_cons]
    omega
  · have shorter := (List.dropWhile_suffix (l := rest) Char.isAlpha).length_le
    have := (length_of_separated? _separated).2
    simp only [List.length_cons]
    omega
  · have shorter := (List.dropWhile_suffix (l := rest) Char.isAlpha).length_le
    simp only [List.length_cons]
    omega
  · simp

end FormulaDag.Source
