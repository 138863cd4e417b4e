import FormulaDag.Pool.Basic
import FormulaDag.Source.Protection
import FormulaDag.Symbol

/-!
# Binding of variables

Every declared variable gets an index that holds its letter, and each unprotected occurrence of the letter in another text becomes
a token of that index. The variable `e` stands for a fixed number instead, which takes the place of its letter.
-/

namespace FormulaDag.Pool

/-- The text that the index of a variable holds. -/
def letterText (letter : Char) : Text := if letter = 'e' then Symbol.eulerNumber else [letter]

/-- The index of a variable and the pool with it. An index that holds the letter alone is the one. -/
def letterIndex (p : Pool) (letter : Char) : Pool × Nat :=
  match p.find? [letter] with
  | some i =>
    if letter = 'e' then ((p.setText i Symbol.eulerNumber), (p.setText i Symbol.eulerNumber).resolve i)
    else (p, p.resolve i)
  | none => ((p.intern (letterText letter)).pool, (p.intern (letterText letter)).index)

/-- The text with the unprotected occurrences of a letter replaced by a token. -/
def replaceLetter (names : List Text) (letter : Char) (token t : Text) : Text :=
  (Source.marked names t).flatMap fun (c, isProtected) => if c = letter && !isProtected then token else [c]

/-- Replaces a letter in the text of one index, unless it is the index of the letter. -/
def bindIn (names : List Text) (letter : Char) (i : Nat) (p : Pool) (other : Nat) : Pool :=
  if other = i || !p.holds other then p
  else if replaceLetter names letter (Index.token i) (p.text other) = p.text other then p
  else p.setText other (replaceLetter names letter (Index.token i) (p.text other))

/-- Binds one variable in every text. -/
def bindLetter (names : List Text) (p : Pool) (letter : Char) : Pool :=
  (p.letterIndex letter).1.holders.foldl (bindIn names letter (p.letterIndex letter).2)
    (p.letterIndex letter).1

/-- Binds the variables one after the other. -/
def bindLetters (names : List Text) (letters : List Char) (p : Pool) : Pool :=
  letters.foldl (bindLetter names) p

end FormulaDag.Pool
