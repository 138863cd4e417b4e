import FormulaDag.Text.Basic

/-!
# Writing JSON strings

A string is written between quotation marks. Quotation marks and backslashes get a backslash in front, control characters an escape
sequence, and all other characters stand for themselves.
-/

namespace FormulaDag.Json

/-- The lower-case hexadecimal digit of a number below sixteen. -/
def hexDigit (n : Nat) : Char := Nat.digitChar n

/-- How a character is written inside of a string. -/
def writeChar (c : Char) : Text :=
  if c = '"' then ['\\', '"']
  else if c = '\\' then ['\\', '\\']
  else if c = '\x08' then ['\\', 'b']
  else if c = '\x0c' then ['\\', 'f']
  else if c = '\n' then ['\\', 'n']
  else if c = '\r' then ['\\', 'r']
  else if c = '\t' then ['\\', 't']
  else if c.toNat < 0x20 then ['\\', 'u', '0', '0', hexDigit (c.toNat / 16), hexDigit (c.toNat % 16)]
  else [c]

/-- A string with its quotation marks. -/
def writeString (t : Text) : Text := '"' :: t.flatMap writeChar ++ ['"']

/-- An object whose members are strings, without white space. -/
def writeObject (items : List (Text × Text)) : Text :=
  '{' :: Text.join [','] (items.map fun (name, value) => writeString name ++ ':' :: writeString value) ++ ['}']

end FormulaDag.Json
