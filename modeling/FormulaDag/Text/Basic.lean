/-!
# Texts

A text is the list of its characters, so that scanning is recursion on the data. Positions reported to the outside count the
bytes of the UTF-8 form; `byteSize` is that measure, and it is additive.
-/

namespace FormulaDag

/-- A text as the list of its characters. -/
abbrev Text := List Char

namespace Text

/-- The number of bytes that a text takes in UTF-8. -/
def byteSize (t : Text) : Nat := t.foldr (fun c n => c.utf8Size + n) 0

/-- The decimal numeral of a natural number. -/
def ofNat (n : Nat) : Text := Nat.toDigits 10 n

/-- The value of a string of decimal digits read from the most significant one on; any other character counts by its distance
from zero, so callers check the digits first. -/
def digitsValue (t : Text) : Nat := t.foldl (fun n c => 10 * n + (c.toNat - '0'.toNat)) 0

/-- Puts a separator between texts and joins them. -/
def join (separator : Text) (parts : List Text) : Text := (parts.intersperse separator).flatten

@[simp] theorem byteSize_nil : byteSize [] = 0 := rfl

@[simp] theorem byteSize_cons (c : Char) (t : Text) : byteSize (c :: t) = c.utf8Size + byteSize t := rfl

@[simp] theorem byteSize_append (s t : Text) : byteSize (s ++ t) = byteSize s + byteSize t := by
  induction s with
  | nil => simp
  | cons c s ih => rw [List.cons_append, byteSize_cons, byteSize_cons, ih, Nat.add_assoc]

end Text

end FormulaDag
