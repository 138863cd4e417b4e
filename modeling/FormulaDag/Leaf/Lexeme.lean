import FormulaDag.Failure
import FormulaDag.Decimal.Reading

/-!
# Lexemes of a leaf

A leaf is a context that no rule describes: a sum over numbers, index tokens and symbols. `Lexeme.scan` splits it, from left to
right, and reports the first character that begins nothing.
-/

namespace FormulaDag

/-- A symbol of a leaf as it is written. -/
inductive Lexeme where
  | number (value : Float)
  | index (i : Nat)
  | symbol (choices : List Choice)
  | op (operator : Operator)
  | opening
  | closing
deriving DecidableEq

namespace Lexeme

/-- Whether a character may stand in a number. -/
def inNumber (c : Char) : Bool := c.isDigit || c == '.'

/-- The lexeme of a command: a product sign or a symbol. -/
def ofCommand? (command : Text) : Option Lexeme :=
  if command = "\\cdot".toList ∨ command = "\\times".toList then some (op .times)
  else (Symbol.choices? command).map symbol

/-- The lexeme of a single character. -/
def ofChar? (c : Char) : Option Lexeme :=
  if c = '(' ∨ c = '[' then some opening
  else if c = ')' ∨ c = ']' then some closing
  else (Operator.ofChar? c).map op

/-- Splits a number off a text that begins with a character of one: it takes every digit and point that follows. -/
def number? (c : Char) (rest : Text) : Except LexicalFault (Lexeme × Text) :=
  match Decimal.read? (c :: rest.takeWhile inNumber) with
  | some value => .ok (number value, rest.dropWhile inNumber)
  | none => .error (.malformedNumber (c :: rest.takeWhile inNumber))

/-- Splits an index token off a text that begins with its first character. -/
def token? (c : Char) (rest : Text) : Except LexicalFault (Lexeme × Text) :=
  match Token.split? (c :: rest) with
  | none => .error .strayAt
  | some (digits, after) =>
    match Index.read? digits with
    | some i => .ok (index i, after)
    | none => .error (.badToken ("@/".toList ++ digits ++ "/@".toList))

/-- Splits a command off a text that begins with its backslash. -/
def command? (c : Char) (rest : Text) : Except LexicalFault (Lexeme × Text) :=
  match ofCommand? (c :: rest.takeWhile Char.isAlpha) with
  | some lexeme => .ok (lexeme, rest.dropWhile Char.isAlpha)
  | none => .error (.unexpectedCommand (c :: rest.takeWhile Char.isAlpha))

/-- Splits the first lexeme off a nonempty text. -/
def first (c : Char) (rest : Text) : Except LexicalFault (Lexeme × Text) :=
  if inNumber c then number? c rest
  else if c = '@' then token? c rest
  else if c = '\\' then command? c rest
  else
    match ofChar? c with
    | some lexeme => .ok (lexeme, rest)
    | none => .error (.unexpectedCharacter c)

theorem length_dropWhile_le {α : Type} (p : α → Bool) (l : List α) : (l.dropWhile p).length ≤ l.length :=
  (List.dropWhile_suffix p).length_le

/-- What follows a lexeme is no longer than what followed its first character. -/
theorem length_of_first {c : Char} {rest after : Text} {lexeme : Lexeme} (h : first c rest = .ok (lexeme, after)) :
    after.length ≤ rest.length := by
  simp only [first, number?, token?, command?] at h
  repeat' split at h
  all_goals simp only [Except.ok.injEq, Prod.mk.injEq, reduceCtorEq] at h
  · exact h.2 ▸ length_dropWhile_le _ _
  · rename_i hs _ _ _
    have := Token.length_of_split? hs
    rw [h.2] at this
    simp at this
    omega
  · exact h.2 ▸ length_dropWhile_le _ _
  · exact h.2 ▸ Nat.le_refl _

/-- The lexemes of a text, possibly none. -/
def scanAll (t : Text) : Except LexicalFault (List Lexeme) :=
  match t with
  | [] => .ok []
  | c :: rest =>
    match _first : first c rest with
    | .error fault => .error fault
    | .ok (lexeme, after) =>
      match scanAll after with
      | .error fault => .error fault
      | .ok lexemes => .ok (lexeme :: lexemes)
termination_by t.length
decreasing_by
  have := length_of_first _first
  simp
  omega

/-- The lexemes of a leaf, at least one. -/
def scan (t : Text) : Except LexicalFault (List Lexeme) :=
  match scanAll t with
  | .ok [] => .error .empty
  | result => result

/-- The meanings of each symbol occurrence, in order. -/
def symbolChoices (lexemes : List Lexeme) : List (List Choice) :=
  lexemes.filterMap fun
    | symbol choices => some choices
    | _ => none

/-- The indices that the lexemes read, each once, in order of first appearance. -/
def indices (lexemes : List Lexeme) : List Nat :=
  (lexemes.filterMap fun
    | index i => some i
    | _ => none).eraseDups

end Lexeme

end FormulaDag
