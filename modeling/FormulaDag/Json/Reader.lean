import FormulaDag.Json.Basic

/-!
# Reading JSON

Strict JSON: nothing but white space may follow the value, numbers have no superfluous zeros and are in the range of doubles,
strings hold no control characters and no lone surrogates, and arrays and objects are nested at most 127 deep. Each reader takes a
text and gives what it read with the rest, or nothing when the text does not begin with such a thing.
-/

namespace FormulaDag.Json

/-- White space between the symbols of a JSON text. -/
def isBlank (c : Char) : Bool := c == ' ' || c == '\t' || c == '\n' || c == '\r'

/-- The text without white space in front. -/
def skip (t : Text) : Text := t.dropWhile isBlank

/-- The value of a hexadecimal digit. -/
def hexDigit? (c : Char) : Option Nat :=
  if c.isDigit then some (c.toNat - '0'.toNat)
  else if 'a' ≤ c ∧ c ≤ 'f' then some (c.toNat - 'a'.toNat + 10)
  else if 'A' ≤ c ∧ c ≤ 'F' then some (c.toNat - 'A'.toNat + 10)
  else none

/-- The value of four hexadecimal digits. -/
def hexFour? (a b c d : Char) : Option Nat := do
  return (((← hexDigit? a) * 16 + (← hexDigit? b)) * 16 + (← hexDigit? c)) * 16 + (← hexDigit? d)

/-- The character that a letter after a backslash stands for. -/
def escape? : Char → Option Char
  | '"' => some '"'
  | '\\' => some '\\'
  | '/' => some '/'
  | 'b' => some '\x08'
  | 'f' => some '\x0c'
  | 'n' => some '\n'
  | 'r' => some '\r'
  | 't' => some '\t'
  | _ => none

/-- The character of two surrogates: the first from `0xD800` on, the second from `0xDC00` on, with ten bits each. -/
def ofSurrogates? (high low : Nat) : Option Char :=
  if 0xD800 ≤ high ∧ high < 0xDC00 ∧ 0xDC00 ≤ low ∧ low < 0xE000 then
    some (Char.ofNat (0x10000 + (high - 0xD800) * 0x400 + (low - 0xDC00)))
  else none

/-- The rest of a string after its opening quotation mark. -/
def stringBody : Text → Option (Text × Text)
  | [] => none
  | '"' :: rest => some ([], rest)
  | '\\' :: 'u' :: a :: b :: c :: d :: rest =>
    match hexFour? a b c d with
    | none => none
    | some n =>
      if 0xD800 ≤ n ∧ n < 0xE000 then
        match rest with
        | '\\' :: 'u' :: a' :: b' :: c' :: d' :: rest' =>
          match (hexFour? a' b' c' d').bind (ofSurrogates? n) with
          | none => none
          | some ch => (stringBody rest').map fun (s, after) => (ch :: s, after)
        | _ => none
      else (stringBody rest).map fun (s, after) => (Char.ofNat n :: s, after)
  | '\\' :: c :: rest =>
    match escape? c with
    | none => none
    | some ch => (stringBody rest).map fun (s, after) => (ch :: s, after)
  | c :: rest => if c.toNat < 0x20 then none else (stringBody rest).map fun (s, after) => (c :: s, after)

/-- The digits before the point: a single zero, or digits that do not begin with one. -/
def wholePart : Text → Option (Text × Text)
  | '0' :: rest => some (['0'], rest)
  | t =>
    match t.takeWhile Char.isDigit with
    | [] => none
    | digits => some (digits, t.dropWhile Char.isDigit)

/-- The digits after the point, none when there is no point, and at least one when there is one. -/
def fractionPart : Text → Option (Text × Text)
  | '.' :: rest =>
    match rest.takeWhile Char.isDigit with
    | [] => none
    | digits => some (digits, rest.dropWhile Char.isDigit)
  | t => some ([], t)

/-- The exponent, with a flag that one is written. -/
def exponentPart : Text → Option (Option Int × Text)
  | [] => some (none, [])
  | c :: rest =>
    if c = 'e' ∨ c = 'E' then
      let (negative, digits) := match rest with
        | '-' :: r => (true, r)
        | '+' :: r => (false, r)
        | r => (false, r)
      match digits.takeWhile Char.isDigit with
      | [] => none
      | ds =>
        let n : Int := Text.digitsValue ds
        some (some (if negative then -n else n), digits.dropWhile Char.isDigit)
    else some (none, c :: rest)

/-- A number without its sign, in the range of doubles. A bare integer that is negative and zero is not counted as an integer. -/
def numeral (negative : Bool) (t : Text) : Option (Json × Text) := do
  let (whole, afterWhole) ← wholePart t
  let (fraction, afterFraction) ← fractionPart afterWhole
  let (exponent, rest) ← exponentPart afterFraction
  let value : Decimal := ⟨negative, Text.digitsValue (whole ++ fraction), exponent.getD 0 - fraction.length⟩
  if value.toFloat.isFinite then some (.number value (fraction.isEmpty && exponent.isNone), rest) else none

/-- The items of an array or object after its opening delimiter, separated by commas. The reader of one item is given; the number
bounds the items. -/
def items {α : Type} (item : Text → Option (α × Text)) (closer : Char) : Nat → Text → Option (List α × Text)
  | 0, _ => none
  | turns + 1, t =>
    match item t with
    | none => none
    | some (first, rest) =>
      match skip rest with
      | [] => none
      | c :: more =>
        if c = closer then some ([first], more)
        else if c = ',' then (items item closer turns more).map fun (others, after) => (first :: others, after)
        else none

/-- The items of an array or object, possibly none. -/
def group {α : Type} (item : Text → Option (α × Text)) (closer : Char) (t : Text) : Option (List α × Text) :=
  match skip t with
  | [] => none
  | c :: rest => if c = closer then some ([], rest) else items item closer (t.length + 1) t

/-- A member of an object, given the reader of its value. -/
def member (value : Text → Option (Json × Text)) (t : Text) : Option ((Text × Json) × Text) := do
  match skip t with
  | '"' :: body =>
    let (name, rest) ← stringBody body
    match skip rest with
    | ':' :: after =>
      let (read, more) ← value after
      some ((name, read), more)
    | _ => none
  | _ => none

/-- The rest of a text after a word. -/
def after? (word : String) (value : Json) (t : Text) : Option (Json × Text) :=
  (word.toList.isPrefixOf? t).map fun rest => (value, rest)

/-- A value in which at most the given number of arrays and objects are nested. -/
def value : Nat → Text → Option (Json × Text)
  | depth, t =>
    match skip t with
    | [] => none
    | c :: rest =>
      if c = '"' then (stringBody rest).map fun (s, more) => (.string s, more)
      else if c = '[' then
        match depth with
        | 0 => none
        | shallower + 1 => (group (value shallower) ']' rest).map fun (l, more) => (.array l, more)
      else if c = '{' then
        match depth with
        | 0 => none
        | shallower + 1 => (group (member (value shallower)) '}' rest).map fun (l, more) => (.object l, more)
      else if c = '-' then numeral true rest
      else if c.isDigit then numeral false (c :: rest)
      else if c = 'n' then after? "null" .null (c :: rest)
      else if c = 't' then after? "true" (.bool true) (c :: rest)
      else if c = 'f' then after? "false" (.bool false) (c :: rest)
      else none

/-- How deep arrays and objects may be nested. -/
def maxDepth : Nat := 127

/-- Reads a text that is one value and white space. -/
def read? (t : Text) : Option Json :=
  match value maxDepth t with
  | some (j, rest) => if skip rest = [] then some j else none
  | none => none

end FormulaDag.Json
