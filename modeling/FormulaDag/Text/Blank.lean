import FormulaDag.Text.Basic

/-!
# White space

The characters with the Unicode property `White_Space`. Source texts may hold any of them between their symbols.
-/

namespace FormulaDag.Text

/-- The characters of the Unicode property `White_Space`. -/
def isBlank (c : Char) : Bool :=
  let n := c.toNat
  (9 ≤ n && n ≤ 13) || n == 0x20 || n == 0x85 || n == 0xA0 || n == 0x1680 || (0x2000 ≤ n && n ≤ 0x200A) ||
    n == 0x2028 || n == 0x2029 || n == 0x202F || n == 0x205F || n == 0x3000

/-- The text without the white space at its two ends. -/
def trim (t : Text) : Text := ((t.dropWhile isBlank).reverse.dropWhile isBlank).reverse

example : ([' ', 'a', '\u3000'] : Text).map isBlank = [true, false, true] := rfl

end FormulaDag.Text
