import FormulaDag.Text.DecimalDigit

/-!
# Indices and their tokens

Subexpressions are numbered. Inside a text, `@/7/@` stands for the subexpression of index 7. `pieces` splits any text into such
tokens and single characters, from left to right and without overlap; reading the references of a text and replacing them are maps
over the pieces. A token whose number is no index is kept as it is written.
-/

namespace FormulaDag

namespace Index

/-- Indices are below this bound: they fit 32 bits. -/
def bound : Nat := 0x100000000

/-- The index of the whole expression. -/
def root : Nat := 0

/-- The text without a plus sign in front. -/
def withoutPlus : Text → Text
  | '+' :: rest => rest
  | t => t

/-- The index that a nonempty run of ASCII digits writes, if its value is below the bound. -/
def ofDigits? (digits : Text) : Option Nat :=
  if digits ≠ [] ∧ digits.all Char.isDigit ∧ Text.digitsValue digits < bound then some (Text.digitsValue digits) else none

/-- Reads an index: digits after an optional plus sign, with a value below the bound. -/
def read? (t : Text) : Option Nat := ofDigits? (withoutPlus t)

/-- The token that stands for an index inside a text. -/
def token (i : Nat) : Text := "@/".toList ++ Text.ofNat i ++ "/@".toList

end Index

/-- A part of a text: a token, given by the digits written in it, or a character outside of tokens. -/
inductive Piece where
  | token (digits : Text)
  | plain (c : Char)
deriving DecidableEq, Repr

namespace Token

/-- Splits a token off the front of a text: its digits and what follows it. -/
def split? : Text → Option (Text × Text)
  | '@' :: '/' :: t =>
    match t.takeWhile Text.isDecimalDigit, t.dropWhile Text.isDecimalDigit with
    | d :: ds, '/' :: '@' :: rest => some (d :: ds, rest)
    | _, _ => none
  | _ => none

/-- What is split off is the digits between two marks. -/
theorem split?_eq_some {t digits rest : Text} (h : split? t = some (digits, rest)) :
    t = '@' :: '/' :: digits ++ '/' :: '@' :: rest := by
  match t with
  | '@' :: '/' :: u =>
    simp only [split?] at h
    split at h
    · rename_i d ds rest' hd hr
      simp only [Option.some.injEq, Prod.mk.injEq] at h
      obtain ⟨rfl, rfl⟩ := h
      have := List.takeWhile_append_dropWhile (p := Text.isDecimalDigit) (l := u)
      rw [hd, hr] at this
      simp [← this]
    · simp at h
  | [] => simp [split?] at h
  | [_] => simp [split?] at h
  | a :: b :: u =>
    unfold split? at h
    split at h
    · rename_i t' heq
      simp only [List.cons.injEq] at heq
      obtain ⟨rfl, rfl, rfl⟩ := heq
      split at h
      · rename_i d ds rest' hd hr
        simp only [Option.some.injEq, Prod.mk.injEq] at h
        obtain ⟨rfl, rfl⟩ := h
        have := List.takeWhile_append_dropWhile (p := Text.isDecimalDigit) (l := u)
        rw [hd, hr] at this
        simp [← this]
      · simp at h
    · simp at h

/-- What remains behind a token is shorter than the text. -/
theorem length_of_split? {t digits rest : Text} (h : split? t = some (digits, rest)) : rest.length < t.length := by
  rw [split?_eq_some h]
  simp
  omega

/-- The tokens and the characters between them, from left to right. -/
def pieces (t : Text) : List Piece :=
  match _split : split? t with
  | some (digits, rest) => .token digits :: pieces rest
  | none =>
    match t with
    | [] => []
    | c :: rest => .plain c :: pieces rest
termination_by t.length
decreasing_by
  · exact length_of_split? _split
  · simp

/-- The digits of every token of a text, in order. -/
def numerals (t : Text) : List Text :=
  (pieces t).filterMap fun
    | .token digits => some digits
    | .plain _ => none

/-- The indices that a text refers to, each once, in order of first appearance. -/
def references (t : Text) : List Nat := ((numerals t).filterMap Index.read?).eraseDups

/-- The index of a text that is one token and nothing else. -/
def only? (t : Text) : Option Nat :=
  match split? t with
  | some (digits, []) => Index.read? digits
  | _ => none

/-- The text of a piece with its index, if it has one, replaced. -/
def mapPiece (f : Nat → Nat) : Piece → Text
  | .plain c => [c]
  | .token digits =>
    match Index.read? digits with
    | some i => Index.token (f i)
    | none => "@/".toList ++ digits ++ "/@".toList

/-- The text with every index in it replaced. -/
def mapIndices (f : Nat → Nat) (t : Text) : Text := (pieces t).flatMap (mapPiece f)

end Token

end FormulaDag
