import FormulaDag.Source.Protection
import FormulaDag.RuleSet

/-!
# Well-formed sources

The conditions on a source text without white space and on its variables, in the order in which they are checked: the text is not
empty, its characters are allowed, its groups nest, its commands are known, and its other letters are declared.
-/

namespace FormulaDag.Source

/-- Whether a character may stand in a source text. -/
def isSourceChar (c : Char) : Bool := c.isAlphanum || "+-*/.^_\\()\x7b\x7d[]".toList.contains c

/-- The delimiter that a closing one needs. -/
def openerOf? : Char → Option Char
  | ')' => some '('
  | '}' => some '{'
  | ']' => some '['
  | _ => none

/-- Whether a character opens a group. -/
def isOpener (c : Char) : Bool := c == '(' || c == '{' || c == '['

/-- The first fault in the nesting of groups, from the left. The state holds the open delimiters, innermost first, and the character
before the place. -/
def groupFault : List Char → Option Char → Text → Option ShapeFault
  | [], _, [] => none
  | opener :: _, _, [] => some (.unclosed opener)
  | opened, previous, c :: rest =>
    match openerOf? c with
    | none => groupFault (if isOpener c then c :: opened else opened) (some c) rest
    | some opener =>
      if opened.head? ≠ some opener then some (.unbalanced c)
      else if previous = some opener then some (.emptyGroup opener c)
      else groupFault opened.tail (some c) rest

/-- The commands of a text that are neither reserved nor functions of the user. -/
def unsupported (s : RuleSet) (t : Text) : List Text :=
  ((Command.words t).filter fun word => !s.isCommand word).map ('\\' :: ·)

/-- The first letter outside of commands and function names that is not declared. -/
def undeclared? (s : RuleSet) (letters : List Char) (t : Text) : Option Char :=
  ((marked s.functionNames t).find? fun (c, isProtected) => c.isAlpha && !isProtected && !letters.contains c).map
    Prod.fst

/-- The first condition that a source text without white space does not meet. -/
def fault? (s : RuleSet) (letters : List Char) (t : Text) : Option SourceFault :=
  if t = [] then some (.malformed .empty)
  else
    match t.find? fun c => !isSourceChar c with
    | some c => some (.unknownSymbol c)
    | none =>
      match groupFault [] none t with
      | some shape => some (.malformed shape)
      | none =>
        if (Command.words t).contains [] then some (.malformed .bareBackslash)
        else if unsupported s t ≠ [] then some (.unsupported (unsupported s t))
        else
          match undeclared? s letters t with
          | some c => some (if letters = [] then .notConstant else .unknownSymbol c)
          | none => none

/-- The variable that a name declares, if it may be declared after the given ones. -/
def letter? (s : RuleSet) (declared : List Char) : Text → Option Char
  | [c] => if c.isLower && !declared.contains c && !s.isCommand [c] then some c else none
  | _ => none

/-- Declares variables after those declared before. -/
def declareAfter (s : RuleSet) (declared : List Char) : List Text → Except SourceFault (List Char)
  | [] => .ok declared
  | name :: rest =>
    match letter? s declared name with
    | some c => declareAfter s (declared ++ [c]) rest
    | none => .error (.badVariable name)

/-- The variables that a list of names declares, in the same order: distinct lowercase letters that name no command. -/
def declare (s : RuleSet) (names : List Text) : Except SourceFault (List Char) := declareAfter s [] names

end FormulaDag.Source
